import ClosedTypes.Context
/-!
The barrier around declared types: only a type's own constructors build its values, only its own
eliminators look inside, and neither may be added once the type's block is committed.
-/

namespace ClosedTypes.Barrier

def guarded? (ctx : Context) (t : Ty) : Option Name := do
  let (c, _) ← t.head?
  if ctx.declaresType c then some c else none

def breach (ctx : Context) (typeName : Name) (how : Intrusion) : Error :=
  .intrusion typeName how (ctx.eliminators typeName)

def permitPrimitive (ctx : Context) (op : Operator) (arg : Ty) : Except Error Unit :=
  match guarded? ctx arg with
  | some c => .error (breach ctx c (.primitive op))
  | none => .ok ()

def permitProjection (ctx : Context) (i : UInt64) (t : Ty) : Except Error Unit :=
  match guarded? ctx t with
  | some c => .error (breach ctx c (.projection i))
  | none => .ok ()

/-- An eliminator may take apart values of its own type, and whatever is not known to be of a
declared type. -/
def permitElimination (ctx : Context) (e : Eliminator) (scrutinee : Ty) : Except Error Unit :=
  match guarded? ctx scrutinee with
  | some c => if c = e.owner then .ok () else .error (breach ctx c (.elimination e.name e.owner))
  | none => .ok ()

def permitExtension (ctx : Context) (op owner : Name) (mark : Nat) : Except Error Unit :=
  match ctx.position? owner with
  | some i => if i < mark then .error (breach ctx owner (.extension op)) else .ok ()
  | none => .ok ()

end ClosedTypes.Barrier
