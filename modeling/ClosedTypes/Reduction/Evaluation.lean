import ClosedTypes.Reduction.Rules
/-!
Evaluation in normal order on a budget. `whnf` exposes the head of a term, `normalize` goes on into
what is left below it. Each step costs one unit; without a unit for the next step there is no
answer. An answer comes with what is left of the budget.
-/

namespace ClosedTypes

/-- Of a budget `n` an answer leaves at most `n`, and exactly `n` only if nothing was done. -/
def Spent {α : Type} (n : Nat) (untouched : α → Prop) (r : Option (α × Nat)) : Prop :=
  ∀ a m, r = some (a, m) → m ≤ n ∧ (m = n → untouched a)

namespace Spent

theorem none {α : Type} {n : Nat} {p : α → Prop} : Spent n p none := nofun

theorem some {α : Type} {n m : Nat} {p : α → Prop} {a : α} (h : m ≤ n) (ha : m = n → p a) :
    Spent n p (some (a, m)) := by
  rintro _ _ ⟨⟩
  exact ⟨h, ha⟩

theorem le {α : Type} {n m : Nat} {p : α → Prop} {a : α} (h : Spent n p (Option.some (a, m))) :
    m ≤ n := (h a m rfl).1

theorem eq {α : Type} {n m : Nat} {a b : α} (h : Spent n (· = b) (Option.some (a, m))) (e : m = n) :
    a = b := (h a m rfl).2 e

theorem paid {α β : Type} {n m : Nat} {p : β → Prop} {q s : α → Prop} {b : β} {r : Option (α × Nat)}
    (h : Spent n p (Option.some (b, m + 1))) (h' : Spent m q r) : Spent n s r := by
  intro a k e
  have := h.le
  have := (h' a k e).1
  exact ⟨by omega, fun _ => by omega⟩

theorem weaken {α : Type} {n m : Nat} {p : α → Prop} {r : Option (α × Nat)} (h : Spent m p r)
    (le : m ≤ n) :
    Spent n (fun _ => True) r :=
  fun a k e => ⟨Nat.le_trans (h a k e).1 le, fun _ => trivial⟩

theorem trans {α β : Type} {n m : Nat} {p : α → Prop} {q : β → Prop} {a : α} {r : Option (β × Nat)}
    (h : Spent n p (Option.some (a, m))) (h' : Spent m q r) : Spent n (fun _ => True) r :=
  fun b k e => ⟨Nat.le_trans (h' b k e).1 h.le, fun _ => trivial⟩

theorem built {α β : Type} {n m : Nat} {p : α → Prop} {a : α} {b : β}
    (h : Spent n p (Option.some (a, m))) :
    Spent n (fun _ => True) (Option.some (b, m)) :=
  .some h.le fun _ => trivial

theorem cons {n k m : Nat} {t t' : Term} {ts ts' : List Term}
    (h : Spent n (· = t) (Option.some (t', k)))
    (hs : Spent k (· = ts) (Option.some (ts', m))) :
    Spent n (· = t :: ts) (Option.some (t' :: ts', m)) := by
  have := h.le
  have := hs.le
  exact .some (by omega) fun e => by rw [h.eq (by omega), hs.eq (by omega)]

end Spent

theorem lex_of {n m a b : Nat} (h : n ≤ m) (hab : n = m → a < b) :
    Prod.Lex (· < ·) (· < ·) (n, a) (m, b) := by
  rcases Nat.lt_or_eq_of_le h with h | rfl
  · exact .left _ _ h
  · exact .right _ (hab rfl)

def moved (n k : Nat) (t : Term) : Option Term := if k = n then none else some t

namespace Rules

mutual

def whnf (rules : Rules) (n : Nat) (t : Term) : { r : Option (Term × Nat) // Spent n (· = t) r } :=
  match step rules n t with
  | ⟨none, _⟩ => ⟨none, .none⟩
  | ⟨some (none, k), h⟩ => ⟨some (t, k), .some h.le fun _ => rfl⟩
  | ⟨some (some _, 0), _⟩ => ⟨none, .none⟩
  | ⟨some (some u, k + 1), h⟩ =>
    have := h.le
    ⟨(whnf rules k u).1, h.paid (whnf rules k u).2⟩
termination_by (n, 2 * t.size + 1)
decreasing_by all_goals exact lex_of (by omega) fun _ => by omega

/-- One head step, or nothing when the head is stuck. Parts that had to be evaluated to decide
stay evaluated. -/
def step (rules : Rules) (n : Nat) (t : Term) :
    { r : Option (Option Term × Nat) // Spent n (fun _ => True) r } :=
  match t with
  | .ann t _ => ⟨some (some t, n), .some n.le_refl fun _ => trivial⟩
  | .app f a =>
    match whnf rules n f with
    | ⟨none, _⟩ => ⟨none, .none⟩
    | ⟨some (f', k), h⟩ => ⟨some ((f'.beta? a).or (moved n k (.app f' a)), k), h.built⟩
  | .ctor c args =>
    match rules.implementation? c with
    | some body => ⟨some (some (body.applyAll args), n), .some n.le_refl fun _ => trivial⟩
    | none => ⟨some (none, n), .some n.le_refl fun _ => trivial⟩
  | .elim e s args =>
    match rules.implementation? e with
    | some body => ⟨some (some (body.applyAll (s :: args)), n), .some n.le_refl fun _ => trivial⟩
    | none =>
      match whnf rules n s with
      | ⟨none, _⟩ => ⟨none, .none⟩
      | ⟨some (s', k), h⟩ =>
        ⟨some ((rules.contract? e s' args).or (moved n k (.elim e s' args)), k), h.built⟩
  | .proj t i =>
    match whnf rules n t with
    | ⟨none, _⟩ => ⟨none, .none⟩
    | ⟨some (t', k), h⟩ => ⟨some ((t'.component? i).or (moved n k (.proj t' i)), k), h.built⟩
  | .prim .ite [c, t, e] =>
    match whnf rules n c with
    | ⟨none, _⟩ => ⟨none, .none⟩
    | ⟨some (c', k), h⟩ =>
      ⟨some ((c'.branch? t e).or (moved n k (.prim .ite [c', t, e])), k), h.built⟩
  | .prim op args =>
    match whnfEach rules n args with
    | ⟨none, _⟩ => ⟨none, .none⟩
    | ⟨some (args', k), h⟩ =>
      ⟨some ((fold op args').or (moved n k (.prim op args')), k), h.built⟩
  | .var _ => ⟨some (none, n), .some n.le_refl fun _ => trivial⟩
  | .lit _ => ⟨some (none, n), .some n.le_refl fun _ => trivial⟩
  | .lam _ _ _ => ⟨some (none, n), .some n.le_refl fun _ => trivial⟩
  | .tuple _ => ⟨some (none, n), .some n.le_refl fun _ => trivial⟩
termination_by (n, 2 * t.size)
decreasing_by
  all_goals exact lex_of (by omega) fun _ => by simp only [Term.size, Term.sizeAll]; omega

def whnfEach (rules : Rules) (n : Nat) (ts : List Term) :
    { r : Option (List Term × Nat) // Spent n (· = ts) r } :=
  match ts with
  | [] => ⟨some ([], n), .some n.le_refl fun _ => rfl⟩
  | t :: ts =>
    match whnf rules n t with
    | ⟨none, _⟩ => ⟨none, .none⟩
    | ⟨some (t', k), h⟩ =>
      have := h.le
      match whnfEach rules k ts with
      | ⟨none, _⟩ => ⟨none, .none⟩
      | ⟨some (ts', m), hs⟩ => ⟨some (t' :: ts', m), h.cons hs⟩
termination_by (n, 2 * Term.sizeAll ts)
decreasing_by all_goals exact lex_of (by omega) fun _ => by simp only [Term.sizeAll]; omega

end

mutual

/-- The normal form. Normal operands can expose a fold that the head alone did not show. -/
def normalize (rules : Rules) (n : Nat) (t : Term) :
    { r : Option (Term × Nat) // Spent n (fun _ => True) r } :=
  match whnf rules n t with
  | ⟨none, _⟩ => ⟨none, .none⟩
  | ⟨some (w, k), hk⟩ =>
    match w, hk with
    | .var x, hk => ⟨some (.var x, k), hk.built⟩
    | .lit l, hk => ⟨some (.lit l, k), hk.built⟩
    | .lam x d b, hk =>
      match normalize rules k b with
      | ⟨none, _⟩ => ⟨none, .none⟩
      | ⟨some (b', m), h⟩ => ⟨some (.lam x d b', m), hk.trans h.built⟩
    | .ann t _, hk => ⟨(normalize rules k t).1, hk.trans (normalize rules k t).2⟩
    | .app f a, hk =>
      match normalize rules k f with
      | ⟨none, _⟩ => ⟨none, .none⟩
      | ⟨some (f', m), hm⟩ =>
        have := hm.le
        match normalize rules m a with
        | ⟨none, _⟩ => ⟨none, .none⟩
        | ⟨some (a', l), h⟩ => ⟨some (.app f' a', l), hk.trans (hm.trans h.built)⟩
    | .ctor c args, hk =>
      match normalizeEach rules k args with
      | ⟨none, _⟩ => ⟨none, .none⟩
      | ⟨some (args', m), h⟩ => ⟨some (.ctor c args', m), hk.trans h.built⟩
    | .elim e s args, hk =>
      match normalize rules k s with
      | ⟨none, _⟩ => ⟨none, .none⟩
      | ⟨some (s', m), hm⟩ =>
        have := hm.le
        match normalizeEach rules m args with
        | ⟨none, _⟩ => ⟨none, .none⟩
        | ⟨some (args', l), h⟩ => ⟨some (.elim e s' args', l), hk.trans (hm.trans h.built)⟩
    | .tuple elems, hk =>
      match normalizeEach rules k elems with
      | ⟨none, _⟩ => ⟨none, .none⟩
      | ⟨some (elems', m), h⟩ => ⟨some (.tuple elems', m), hk.trans h.built⟩
    | .proj t i, hk =>
      match normalize rules k t with
      | ⟨none, _⟩ => ⟨none, .none⟩
      | ⟨some (t', m), h⟩ => ⟨some (.proj t' i, m), hk.trans h.built⟩
    | .prim op args, hk =>
      match normalizeEach rules k args with
      | ⟨none, _⟩ => ⟨none, .none⟩
      | ⟨some (args', m), hm⟩ =>
        have := hm.le
        match fold op args', m with
        | none, m => ⟨some (.prim op args', m), hk.trans hm.built⟩
        | some _, 0 => ⟨none, .none⟩
        | some u, l + 1 =>
          ⟨(normalize rules l u).1, hk.trans (hm.trans ((normalize rules l u).2.weaken l.le_succ))⟩
termination_by (n, t.size)
decreasing_by
  all_goals
    have := hk.le
    refine lex_of (by omega) fun e => ?_
    have := hk.eq (by omega)
    subst this
    simp only [Term.size]
    omega

def normalizeEach (rules : Rules) (n : Nat) (ts : List Term) :
    { r : Option (List Term × Nat) // Spent n (fun _ => True) r } :=
  match ts with
  | [] => ⟨some ([], n), .some n.le_refl fun _ => trivial⟩
  | t :: ts =>
    match normalize rules n t with
    | ⟨none, _⟩ => ⟨none, .none⟩
    | ⟨some (t', k), hk⟩ =>
      have := hk.le
      match normalizeEach rules k ts with
      | ⟨none, _⟩ => ⟨none, .none⟩
      | ⟨some (ts', m), h⟩ => ⟨some (t' :: ts', m), hk.trans h.built⟩
termination_by (n, Term.sizeAll ts)
decreasing_by all_goals exact lex_of (by omega) fun _ => by simp only [Term.sizeAll]; omega

end

end Rules

end ClosedTypes
