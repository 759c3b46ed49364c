import ClosedTypes.Block.Validation
/-!
Blocks of declarations, which go into the log together or not at all.
-/

namespace ClosedTypes

abbrev Block := List Entry

namespace Context

def stage (ctx : Context) (block : Block) (entry : Entry) : Except NameFault Block := do
  ctx.ensureFresh block entry
  return block ++ [entry]

def stageAll (ctx : Context) (block : Block) (entries : List Entry) : Except NameFault Block :=
  entries.foldlM ctx.stage block

/-- The context with the block committed, or the same context and what is wrong with the block.
In the log the named entries come first. -/
def commit (ctx : Context) (block : Block) : Except (List Error) Unit × Context :=
  let mark := ctx.size
  let (named, keyed) := block.partition (·.name?.isSome)
  let opened := ctx.installAll named
  match Validation.errors opened block mark with
  | [] => (.ok (), (opened.installAll keyed).sealBlock mark)
  | errors => (.error errors, opened.rollback mark)

end Context

end ClosedTypes
