import ClosedTypes.Typing.Checker
/-!
What a block has to satisfy. The block's types, constructors and eliminators are in the context by
the time it is checked, so that its entries may refer to each other in any order; `mark` is where it
begins in the log.
-/

namespace ClosedTypes.Validation

def distinctVars (seen : List Name) : List Ty → Option (List Name)
  | [] => some []
  | .var x :: ts => if x ∈ seen then none else (x :: ·) <$> distinctVars (x :: seen) ts
  | _ => none

def parameters (ctx : Context) (declared owner : Name) (t : Ty) : Except Error (List Name) := do
  let arity := (← ctx.dataType owner).arity.toNat
  match t.head? with
  | some (c, args) =>
    if c ≠ owner then throw (.malformed ⟨declared, .otherType owner t⟩)
    if args.length ≠ arity then throw (.type (.typeArity owner arity args.length))
    match distinctVars [] args with
    | some params => return params
    | none => throw (.malformed ⟨declared, .parametersNotVariables t owner⟩)
  | none => throw (.malformed ⟨declared, .otherType owner t⟩)

def validateFields (d : Constructor) (params : List Name) : List Ty → Except Error Unit
  | [] => .ok ()
  | field :: fields =>
    match field.vars.find? (· ∉ params) with
    | some x => .error (.malformed ⟨d.name, .strayFieldVariable field x d.owner⟩)
    | none => validateFields d params fields

def validateConstructor (ctx : Context) (d : Constructor) (mark : Nat) : Except Error Unit := do
  let _ ← ctx.dataType d.owner
  Barrier.permitExtension ctx d.name d.owner mark
  Checker.checkWritten ctx d.signature
  validateFields d (← parameters ctx d.name d.owner d.signature.result) d.fields

/-- The branch of a case eliminator for a constructor: the fields at the eliminator's parameters,
then the motive. -/
def branchType (c : Constructor) (params : List Name) (motive : Name) : Ty :=
  .arrows (c.fields.map (·.subst (.ofList (c.params.zip (params.map .var))))) (.var motive)

def validateBranches (ctx : Context) (d : Eliminator) (params : List Name)
    (motive : Name) (i : Nat) :
    List Ty → List Name → Except Error Unit
  | branch :: branches, c :: cs => do
    let expected := branchType (← ctx.constructor c) params motive
    if branch = expected then validateBranches ctx d params motive (i + 1) branches cs
    else throw (.malformed ⟨d.name, .branchShape i c expected branch⟩)
  | _, _ => .ok ()

def validateEliminator (ctx : Context) (d : Eliminator) (mark : Nat) : Except Error Unit := do
  let _ ← ctx.dataType d.owner
  Barrier.permitExtension ctx d.name d.owner mark
  Checker.checkWritten ctx d.signature
  match d.scrutinee? with
  | none => throw (.malformed ⟨d.name, .noScrutinee⟩)
  | some scrutinee =>
    let params ← parameters ctx d.name d.owner scrutinee
    match d.motive with
    | none => return
    | some motive =>
      if d.result ≠ .var motive ∨ motive ∈ params then
        throw (.malformed ⟨d.name, .misplacedMotive motive d.owner⟩)
      let cs := ctx.constructors d.owner
      if d.rest.length ≠ cs.length then
        throw (.type (.eliminatorArity d.name cs.length d.rest.length))
      validateBranches ctx d params motive 0 d.rest cs

def firstRepeat? (seen : List Name) : List Name → Option Name
  | [] => none
  | x :: xs => if x ∈ seen then some x else firstRepeat? (x :: seen) xs

def pushAll : List (Name × Ty) → Checker.Check Unit
  | [] => return
  | (x, t) :: rest => do
    Checker.push x t
    pushAll rest

def checkUnder (ctx : Context) (assumptions : List (Name × Ty)) (t : Term) (expected : Ty) :
    Except Error Unit :=
  let checking : Checker.Check Unit := do
    pushAll assumptions
    Checker.check ctx t expected
    Checker.discharge ctx
  (checking.apply .initial).1

def validateEquation (ctx : Context) (d : Equation) (mark : Nat) : Except Error Unit := do
  let e ← ctx.eliminator d.eliminator
  let c ← ctx.constructor d.constructor
  if c.owner ≠ e.owner then
    throw (.malformed ⟨d.eliminator, .foreignConstructor d.constructor e.owner⟩)
  Barrier.permitExtension ctx d.eliminator e.owner mark
  let types := e.binderTypes c
  if types.length ≠ d.binders.length then
    throw (.equationArity d.eliminator d.constructor types.length d.binders.length)
  if let some x := firstRepeat? [] d.binders then
    throw (.malformed ⟨d.eliminator, .repeatedBinder d.constructor x⟩)
  checkUnder ctx (d.binders.zip types) d.rhs e.result

def validateRepresentation (ctx : Context) (d : Representation) (mark : Nat) :
    Except Error Unit := do
  match ctx.position? d.typeName with
  | some i =>
    if i < mark then
      let _ ← ctx.dataType d.typeName
    else throw (.uncommitted d.typeName)
  | none => throw (.uncommitted d.typeName)

def backing? (ctx : Context) (staged : List Entry) (typeName : Name) : Option Ty :=
  let inBlock := staged.findSome? fun
    | .representation d => if d.typeName = typeName then some d else none
    | _ => none
  (inBlock.or (ctx.representation? typeName)).map (·.backing.toTy)

def signatureOnBacking (ctx : Context) (op : Name) (backing : Ty) : Except Error Ty := do
  match ← ctx.lookup op with
  | .constructor d => return d.signature.substConst d.owner backing
  | .eliminator d => return d.signature.substConst d.owner backing
  | e => throw (.malformed ⟨op, .notAnOperation (some e.kind)⟩)

def validateImplementation (ctx : Context) (staged : List Entry) (d : Implementation) :
    Except Error Unit := do
  match ctx.owner? d.op with
  | none =>
    let _ ← ctx.lookup d.op
    throw (.malformed ⟨d.op, .notAnOperation none⟩)
  | some owner =>
    match backing? ctx staged owner with
    | none => throw (.malformed ⟨d.op, .ownerNotRepresented owner⟩)
    | some backing => checkUnder ctx [] d.body (← signatureOnBacking ctx d.op backing)

def validateEntry (ctx : Context) (staged : List Entry) (mark : Nat) : Entry → Except Error Unit
  | .type _ => .ok ()
  | .constructor d => validateConstructor ctx d mark
  | .eliminator d => validateEliminator ctx d mark
  | .equation d => validateEquation ctx d mark
  | .representation d => validateRepresentation ctx d mark
  | .implementation d => validateImplementation ctx staged d

def equationCount (staged : List Entry) (e c : Name) : Nat :=
  staged.countP fun
    | .equation d => d.eliminator = e && d.constructor = c
    | _ => false

def coverageErrors (ctx : Context) (staged : List Entry) : Entry → List Error
  | .eliminator d =>
    let cs := ctx.constructors d.owner
    let missing := cs.filter fun c => equationCount staged d.name c = 0
    (cs.filter fun c => 1 < equationCount staged d.name c).map (.overlapping d.name) ++
      if missing.isEmpty then [] else [.nonExhaustive d.name missing]
  | _ => []

def implements (op : Name) : Entry → Bool
  | .implementation d => d.op = op
  | _ => false

def completenessErrors (ctx : Context) (staged : List Entry) : Entry → List Error
  | .representation d =>
    let missing := (ctx.operations d.typeName).filter fun op => !staged.any (implements op)
    if missing.isEmpty then [] else [.incomplete d.typeName missing]
  | _ => []

/-- All that is wrong with a block: entry by entry, then missing and overlapping equations, then
missing implementations. -/
def errors (ctx : Context) (staged : List Entry) (mark : Nat) : List Error :=
  (staged.filterMap fun e => match validateEntry ctx staged mark e with
    | .ok _ => none
    | .error err => some err) ++
  staged.flatMap (coverageErrors ctx staged) ++
  staged.flatMap (completenessErrors ctx staged)

end ClosedTypes.Validation
