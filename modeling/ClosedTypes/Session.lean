import ClosedTypes.Archive.Log
import ClosedTypes.Declaration.Draft
import ClosedTypes.Faithfulness
/-!
Sessions: a committed context and the block that is being written. What is declared is pending, and
no question sees it, until the block is committed.
-/

namespace ClosedTypes

structure Session where
  context : Context
  pending : Block
  limits : Limits

namespace Session

def start (limits : Limits) : Session := ⟨.empty, [], limits⟩

def stage (s : Session) (entry : Entry) : Except Error Session :=
  match s.context.stage s.pending entry with
  | .ok pending => .ok { s with pending }
  | .error e => .error (.name e)

def declare (s : Session) (draft : Draft) : Except Error Session :=
  match draft.entry with
  | .ok entry => s.stage entry
  | .error m => .error (.malformed m)

/-- Commits the pending block. Nothing is pending afterwards, whether it went in or not. -/
def commit (s : Session) : Except (List Error) Unit × Session :=
  match s.context.stageAll [] s.pending with
  | .error e => (.error [.name e], { s with pending := [] })
  | .ok block =>
    let (answer, context) := s.context.commit block
    (answer, { s with context, pending := [] })

def abandon (s : Session) : Session := { s with pending := [] }

def inferType (s : Session) (t : Term) : Except Error Ty := ClosedTypes.inferType s.context t

def normalize (s : Session) (t : Term) (fuel : Nat) : Except Error Term :=
  ClosedTypes.normalize s.context t fuel

def definitionallyEqual (s : Session) (a b : Term) : Except Error Bool :=
  ClosedTypes.definitionallyEqual s.context a b s.limits.fuel

def faithfulness (s : Session) (typeName : Name) (mode : Faithfulness.Mode)
    (samples : List Literal) :
    Except Error Faithfulness.Report :=
  ClosedTypes.faithfulness s.context s.limits typeName mode samples

def save (s : Session) : List UInt8 := Archive.save s.context

def load (bytes : List UInt8) (limits : Limits) : Except Archive.LoadError Session :=
  match Archive.load bytes with
  | .ok context => .ok ⟨context, [], limits⟩
  | .error e => .error e

end Session

end ClosedTypes
