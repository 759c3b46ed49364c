import ClosedTypes.Barrier
import ClosedTypes.Typing.Solutions
/-!
Bidirectional type checking. Each use of a constructor or an eliminator takes its signature at fresh
metavariables; the type variables of local assumptions are rigid.
-/

namespace ClosedTypes

/-- What a checker knows: solutions, local assumptions (innermost first), and the `==` operands
whose type was still open. -/
structure Checker where
  solutions : Solutions
  locals : List (Name × Ty)
  equalities : List (Term × Ty)

namespace Checker

def initial : Checker := ⟨.empty, [], []⟩

abbrev Check := ExceptT Error (StateM Checker)

def Check.apply {α : Type} (m : Check α) (c : Checker) : Except Error α × Checker := m.run c

def zonk (t : Ty) : Check Ty := do return (← get).solutions.zonk t

def resolve (t : Ty) : Check Ty := do return (← get).solutions.resolve t

def fresh : Check Ty :=
  modifyGet fun c => (c.solutions.fresh.1, { c with solutions := c.solutions.fresh.2 })

def unify (a b : Ty) : Check Bool :=
  modifyGet fun c => ((c.solutions.unify a b).1, { c with solutions := (c.solutions.unify a b).2 })

def freshAll : List Name → Check (List (Name × Ty))
  | [] => return []
  | x :: xs => do
    let t ← fresh
    return (x, t) :: (← freshAll xs)

def freshCopy (signature : Ty) : Check Ty := do
  return signature.subst (.ofList (← freshAll signature.vars))

def push (x : Name) (t : Ty) : Check Unit := modify fun c => { c with locals := (x, t) :: c.locals }

def pop : Check Unit := modify fun c => { c with locals := c.locals.tail }

/-- Runs `m` under a local assumption, which is gone afterwards even if `m` fails. -/
def withLocal {α : Type} (x : Name) (t : Ty) (m : Check α) : Check α :=
  ExceptT.mk fun c =>
    let (answer, c) := m.apply { c with locals := (x, t) :: c.locals }
    (answer, { c with locals := c.locals.tail })

def localType? (x : Name) :
    Check (Option Ty) := do return ((← get).locals.find? (·.1 = x)).map Prod.snd

def mismatch {α : Type} (t : Term) (expected found : Ty) : Check α := do
  throw (.type (.mismatch t (← zonk expected) (← zonk found)))

mutual

def checkWritten (ctx : Context) : Ty → Except Error Unit
  | .var _ => .ok ()
  | .prim _ => .ok ()
  | .metavar i => .error (.type (.writtenMetavar (.metavar i)))
  | .arrow d c => do
    checkWritten ctx d
    checkWritten ctx c
  | .tuple elems => checkWrittenAll ctx elems
  | .const c args => do
    match ← ctx.lookup c with
    | .type d =>
      if d.arity.toNat = args.length then checkWrittenAll ctx args
      else .error (.type (.typeArity c d.arity.toNat args.length))
    | _ => .error (.type (.notAType c))

def checkWrittenAll (ctx : Context) : List Ty → Except Error Unit
  | [] => .ok ()
  | t :: ts => do
    checkWritten ctx t
    checkWrittenAll ctx ts

end

inductive Mode where
  | infer
  | check (expected : Ty)

/-- Ends the judgement of `t`: a type that was found is the answer, or has to agree with the
expected one. -/
def settle (t : Term) (found : Ty) : Mode → Check Ty
  | .infer => return found
  | .check expected => do
    if ← unify found expected then return found
    mismatch t expected found

def expectedArrow? : Mode → Check (Option (Ty × Ty))
  | .infer => return none
  | .check expected => do
    match ← resolve expected with
    | .arrow d c => return some (d, c)
    | _ => return none

def functionType (f : Term) (t : Ty) : Check (Ty × Ty) := do
  match ← resolve t with
  | .arrow d c => return (d, c)
  | .metavar i =>
    let d ← fresh
    let c ← fresh
    let _ ← unify (.metavar i) (.arrow d c)
    return (d, c)
  | _ => throw (.type (.notAFunction f (← zonk t)))

def blameApplication (f a : Term) : Error → Error
  | .type (.mismatch t expected found) =>
    if t = a then .type (.argument f a expected found) else .type (.mismatch t expected found)
  | e => e

def inspect (ctx : Context) (op : Operator) (operand : Check Ty) : Check Ty := do
  let t ← zonk (← operand)
  Barrier.permitPrimitive ctx op t
  return t

def operandType : Operator → Prim
  | .and | .or | .not | .ite => .bool
  | _ => .int

def resultType : Operator → Prim
  | .add | .sub | .mul => .int
  | _ => .bool

def checkOperand (ctx : Context) (op : Operator) (t : Term) (operand : Check Ty) : Check Unit := do
  let found ← inspect ctx op operand
  let expected := .prim (operandType op)
  unless ← unify found expected do mismatch t expected found

/-- `==` compares two operands of one primitive type; while that type is open the comparison is
put off. -/
def checkEquality (ctx : Context) (a b : Term) (left right : Check Ty) : Check Unit := do
  let left ← inspect ctx .eq left
  let right ← inspect ctx .eq right
  unless ← unify left right do mismatch b left right
  match ← zonk left with
  | .prim _ => return
  | .metavar i => modify fun c => { c with equalities := c.equalities ++ [(a, .metavar i)] }
  | t => mismatch a (.prim .int) t

def leadingDoms (n : Nat) (t : Ty) : List Ty := t.doms.take n

/-- A branch takes the constructor's fields and returns the motive, which the first branch to say
anything about it fixes. -/
def judgeBranch (e : Name) (i : Nat) (branch : Term) (dom : Ty) (fields : Nat) (motive : Ty)
    (found : Check Ty) :
    Check Unit := do
  let found ← found
  let result ← fresh
  unless ← unify found (.arrows (leadingDoms fields dom) result) do mismatch branch dom found
  unless ← unify result motive do throw (.type (.motive e i (← zonk motive) (← zonk result)))

mutual

/-- The type of a term, inferred or checked. Only a function literal makes use of the expected
type on the way down. -/
def judge (ctx : Context) : Term → Mode → Check Ty
  | .var x, mode => do
    match ← localType? x with
    | some t => settle (.var x) t mode
    | none => throw (.type (.unboundVariable x))
  | .lit l, mode => settle (.lit l) (.prim l.prim) mode
  | .lam x dom body, mode => do
    match ← expectedArrow? mode, mode with
    | some (d, c), .check expected =>
      if let some written := dom then
        checkWritten ctx written
        unless ← unify written d do mismatch (.lam x dom body) expected (.arrow written (← fresh))
      let c' ← withLocal x d (judge ctx body (.check c))
      return .arrow d c'
    | _, mode =>
      let d ← match dom with
        | some written => do
          checkWritten ctx written
          pure written
        | none => fresh
      let c ← withLocal x d (judge ctx body .infer)
      settle (.lam x dom body) (.arrow d c) mode
  | .app f a, mode => do
    let (d, c) ← functionType f (← judge ctx f .infer)
    let _ ← (judge ctx a (.check d)).adapt (blameApplication f a)
    settle (.app f a) c mode
  | .ann t ty, mode => do
    checkWritten ctx ty
    let _ ← judge ctx t (.check ty)
    settle (.ann t ty) ty mode
  | .ctor c args, mode => do
    let decl ← ctx.constructor c
    let signature ← freshCopy decl.signature
    if signature.doms.length ≠ args.length then
      throw (.type (.constructorArity c signature.doms.length args.length))
    checkAll ctx args signature.doms
    settle (.ctor c args) signature.result mode
  | .elim e s args, mode => do
    let decl ← ctx.eliminator e
    let found ← zonk (← judge ctx s .infer)
    Barrier.permitElimination ctx decl found
    let signature ← freshCopy decl.signature
    match signature.doms with
    | [] => throw (.malformed ⟨e, .noScrutinee⟩)
    | scrutinee :: rest =>
      unless ← unify found scrutinee do mismatch s scrutinee found
      if rest.length ≠ args.length then throw (.type (.eliminatorArity e rest.length args.length))
      if decl.isCaseAnalysis then
        judgeBranches ctx e signature.result 0 args rest (ctx.constructors decl.owner)
      else checkAll ctx args rest
      settle (.elim e s args) signature.result mode
  | .prim op args, mode => do
    if args.length ≠ op.arity then throw (.type (.primArity op args.length))
    match op, args with
    | .eq, [a, b] =>
      checkEquality ctx a b (judge ctx a .infer) (judge ctx b .infer)
      settle (.prim .eq [a, b]) (.prim .bool) mode
    | .ite, [c, t, e] =>
      checkOperand ctx .ite c (judge ctx c .infer)
      let found ← judge ctx t .infer
      let _ ← judge ctx e (.check found)
      settle (.prim .ite [c, t, e]) found mode
    | op, args =>
      checkOperands ctx op args
      settle (.prim op args) (.prim (resultType op)) mode
  | .tuple elems, mode => do
    let found ← inferAll ctx elems
    settle (.tuple elems) (.tuple found) mode
  | .proj t i, mode => do
    let found ← zonk (← judge ctx t .infer)
    Barrier.permitProjection ctx i found
    match found with
    | .tuple elems =>
      match elems[i.toNat]? with
      | some elem => settle (.proj t i) elem mode
      | none => throw (.type (.projection i found))
    | _ => throw (.type (.projection i found))

def inferAll (ctx : Context) : List Term → Check (List Ty)
  | [] => return []
  | t :: ts => do
    let found ← judge ctx t .infer
    return found :: (← inferAll ctx ts)

def checkAll (ctx : Context) : List Term → List Ty → Check Unit
  | t :: ts, d :: ds => do
    let _ ← judge ctx t (.check d)
    checkAll ctx ts ds
  | _, _ => return

def checkOperands (ctx : Context) (op : Operator) : List Term → Check Unit
  | [] => return
  | t :: ts => do
    checkOperand ctx op t (judge ctx t .infer)
    checkOperands ctx op ts

def judgeBranches (ctx : Context) (e : Name) (motive : Ty) (i : Nat) :
    List Term → List Ty → List Name → Check Unit
  | t :: ts, d :: ds, c :: cs => do
    let decl ← ctx.constructor c
    judgeBranch e i t d decl.fields.length motive (judge ctx t .infer)
    judgeBranches ctx e motive (i + 1) ts ds cs
  | _, _, _ => return

end

def infer (ctx : Context) (t : Term) : Check Ty := judge ctx t .infer

def check (ctx : Context) (t : Term) (expected : Ty) : Check Unit := do
  let _ ← judge ctx t (.check expected)

def checkDeferred (ctx : Context) : List (Term × Ty) → Check Unit
  | [] => return
  | (t, ty) :: rest => do
    let ty ← zonk ty
    Barrier.permitPrimitive ctx .eq ty
    match ty with
    | .prim _ | .metavar _ => checkDeferred ctx rest
    | _ => mismatch t (.prim .int) ty

/-- Looks again at the comparisons that were put off, once for each whole term. They are
forgotten even if one of them fails. -/
def discharge (ctx : Context) : Check Unit := do
  let deferred := (← get).equalities
  modify fun c => { c with equalities := [] }
  checkDeferred ctx deferred

end Checker

def inferType (ctx : Context) (t : Term) : Except Error Ty :=
  let typing : Checker.Check Ty := do
    let ty ← Checker.infer ctx t
    Checker.discharge ctx
    Checker.zonk ty
  (typing.apply .initial).1

end ClosedTypes
