import ClosedTypes.Proofs.Reduction.Agreement
/-!
Related terms evaluate in lockstep. If every form of term and every contraction keeps a relation,
evaluation takes the same steps on both sides, and budgets that differ by `d` still do so at the
end. They tell the runs apart only where the smaller one is too small.
-/

namespace ClosedTypes

/-- Two answers, the second on a budget that is larger by `d`. Both are there and leave the same
but for the difference, or the first is missing and the second, if there is one, has used some of
the difference. -/
inductive Tracks {α β : Type} (d : Nat) (R : α → β → Prop) :
    Option (α × Nat) → Option (β × Nat) → Prop where
  | both {a b k} : R a b → Tracks d R (some (a, k)) (some (b, k + d))
  | neither : Tracks d R none none
  | second {b k} : k < d → Tracks d R none (some (b, k))

def paid {α : Type} (n : Nat) (f : Nat → Option α) : Option α :=
  match n with
  | 0 => none
  | m + 1 => f m

theorem Spent.map {α β : Type} {n : Nat} {p : α → Prop} {r : Option (α × Nat)} {f : α × Nat → β}
    (h : Spent n p r) :
    Spent n (fun _ => True) (r.map fun q => (f q, q.2)) := by
  rcases r with _ | ⟨a, k⟩
  · exact .none
  · exact .some h.le fun _ => trivial

theorem Spent.bind {α β : Type} {n : Nat} {p : α → Prop} {q : β → Prop} {r : Option (α × Nat)}
    {f : α × Nat → Option (β × Nat)}
    (h : Spent n p r) (hf : ∀ a, Spent a.2 q (f a)) : Spent n (fun _ => True) (r.bind f) := by
  rcases r with _ | ⟨a, k⟩
  · exact .none
  · exact h.trans (hf (a, k))

theorem spent_paid {α : Type} {n : Nat} {p : Nat → α → Prop} {f : Nat → Option (α × Nat)}
    (h : ∀ m, Spent m (p m) (f m)) :
    Spent n (fun _ => True) (paid n f) := by
  cases n with
  | zero => exact .none
  | succ m => exact (h m).weaken m.le_succ

namespace Tracks

variable {α β γ δ : Type} {d n : Nat} {R : α → β → Prop} {S : γ → δ → Prop} {r : Option (α × Nat)}
  {r' : Option (β × Nat)}

theorem eq {s : Option (α × Nat)} (h : Tracks 0 (fun a b => a = b) r s) : s = r := by
  cases h with
  | both h => rw [h, Nat.add_zero]
  | neither => rfl
  | second h => exact absurd h (Nat.not_lt_zero _)

theorem map {f : α × Nat → γ} {g : β × Nat → δ} (h : Tracks d R r r')
    (hfg : ∀ a b k, r = some (a, k) → R a b → S (f (a, k)) (g (b, k + d))) :
    Tracks d S (r.map fun p => (f p, p.2)) (r'.map fun p => (g p, p.2)) := by
  cases h with
  | both h => exact .both (hfg _ _ _ rfl h)
  | neither => exact .neither
  | second h => exact .second h

theorem of_spent {p : β → Prop} (h : Spent n p r') (hn : n < d) : Tracks d R none r' := by
  rcases r' with _ | ⟨b, k⟩
  · exact .neither
  · exact .second (Nat.lt_of_le_of_lt h.le hn)

theorem bind {f : α × Nat → Option (γ × Nat)} {g : β × Nat → Option (δ × Nat)} {p : δ → Prop}
    (h : Tracks d R r r')
    (hfg : ∀ a b k, r = some (a, k) → R a b → Tracks d S (f (a, k)) (g (b, k + d)))
    (hg : ∀ b k, Spent k p (g (b, k))) : Tracks d S (r.bind f) (r'.bind g) := by
  cases h with
  | both h => exact hfg _ _ _ rfl h
  | neither => exact .neither
  | second h => exact .of_spent (hg _ _) h

theorem paid {f : Nat → Option (α × Nat)} {g : Nat → Option (β × Nat)} {p : Nat → β → Prop}
    (hfg : ∀ m, n = m + 1 → Tracks d R (f m) (g (m + d))) (hg : ∀ m, Spent m (p m) (g m)) :
    Tracks d R (paid n f) (paid (n + d) g) := by
  cases n with
  | zero =>
    rw [Nat.zero_add]
    cases d with
    | zero => exact .neither
    | succ d => exact .of_spent (hg d) d.lt_succ_self
  | succ m =>
    rw [Nat.succ_add]
    exact hfg m rfl

end Tracks

namespace Rules

variable {known : Use → Prop} {rules rules' : Rules}
  {R : List Name → List Name → Term → Term → Prop}
  {n d k m : Nat} {t u w s f g a b c : Term} {ts us args : List Term} {xs ys : List Name}
    {x y e : Name} {i : UInt64}

/-- Terms of one form with related parts. Under binders, `R` is about what the binders around the
two sides are called. -/
inductive Alike (R : List Name → List Name → Term → Term → Prop) (xs ys : List Name) :
    Term → Term → Prop where
  | var {x y : Name} : R xs ys (.var x) (.var y) → Alike R xs ys (.var x) (.var y)
  | lit {l : Literal} : Alike R xs ys (.lit l) (.lit l)
  | app {f g a b : Term} : R xs ys f g → R xs ys a b → Alike R xs ys (.app f a) (.app g b)
  | lam {x y : Name} {dom dom' : Option Ty} {b c : Term} : R (x :: xs) (y :: ys) b c →
    (∀ b' c', R (x :: xs) (y :: ys) b' c' → R xs ys (.lam x dom b') (.lam y dom' c')) →
      Alike R xs ys (.lam x dom b) (.lam y dom' c)
  | ann {t u : Term} {ty : Ty} : R xs ys t u → Alike R xs ys (.ann t ty) (.ann u ty)
  | ctor {c : Name} {ts us : List Term} : List.Forall₂ (R xs ys) ts us →
    Alike R xs ys (.ctor c ts) (.ctor c us)
  | elim {e : Name} {s s' : Term} {ts us : List Term} : R xs ys s s' →
    List.Forall₂ (R xs ys) ts us →
    Alike R xs ys (.elim e s ts) (.elim e s' us)
  | prim {op : Operator} {ts us : List Term} : List.Forall₂ (R xs ys) ts us →
    Alike R xs ys (.prim op ts) (.prim op us)
  | tuple {ts us : List Term} : List.Forall₂ (R xs ys) ts us → Alike R xs ys (.tuple ts) (.tuple us)
  | proj {t u : Term} {i : UInt64} : R xs ys t u → Alike R xs ys (.proj t i) (.proj u i)

/-- A relation between terms, those on the left over known uses, that the contractions of rules
keep which agree on these. -/
structure Lockstep (known : Use → Prop) (rules rules' : Rules)
    (R : List Name → List Name → Term → Term → Prop) : Prop where
  agree : Agree known rules rules'
  covered : rules.Over known
  alike : ∀ {xs ys t u}, R xs ys t u ↔ Alike R xs ys t u
  beta : ∀ {xs ys x y dom dom' a b c d}, R xs ys (.lam x dom b) (.lam y dom' c) → R xs ys a d →
    R xs ys (b.instantiate x a) (c.instantiate y d)
  equation : ∀ {xs ys e c d n k ts us}, rules.implementation? e = none →
    rules.context.equation? e c = some d →
    known (.eliminator e n) → known (.constructor c k) → ts.length = k + n →
      List.Forall₂ (R xs ys) ts us →
    R xs ys (d.rhs.subst (.ofList (d.binders.zip ts))) (d.rhs.subst (.ofList (d.binders.zip us)))
  fold : ∀ {xs ys op ts us}, List.Forall₂ (R xs ys) ts us →
    Option.Rel (R xs ys) (fold op ts) (fold op us)
  body : ∀ {xs ys op body}, rules.implementation? op = some body → R xs ys body body

theorem rel_or {α β : Type} {r : α → β → Prop} {o p : Option α} {o' p' : Option β}
    (h : Option.Rel r o o') (hp : Option.Rel r p p') :
    Option.Rel r (o.or p) (o'.or p') := by
  cases h with
  | some h => exact .some h
  | none => exact hp

theorem rel_moved (h : R xs ys t u) :
    Option.Rel (R xs ys) (moved n k t) (moved (n + d) (k + d) u) := by
  unfold moved
  by_cases hk : k = n
  · rw [if_pos hk, if_pos (congrArg (· + d) hk)]
    exact .none
  · rw [if_neg hk, if_neg fun h => hk (Nat.add_right_cancel h)]
    exact .some h

theorem forall₂_getElem? {α β : Type} {r : α → β → Prop} {as : List α} {bs : List β}
    (h : List.Forall₂ r as bs) (i : Nat) :
    Option.Rel r as[i]? bs[i]? := by
  induction h generalizing i with
  | nil => exact .none
  | cons h _ ih =>
    cases i with
    | zero => exact .some h
    | succ i => simpa using ih i

namespace Lockstep

variable (h : Lockstep known rules rules' R)

include h

theorem applyAll (hf : R xs ys f g) (hargs : List.Forall₂ (R xs ys) ts us) :
    R xs ys (f.applyAll ts) (g.applyAll us) := by
  induction hargs generalizing f g with
  | nil => exact hf
  | cons ha _ ih => exact ih (h.alike.2 (.app hf ha))

theorem beta? (hf : R xs ys f g) (ha : R xs ys a b) :
    Option.Rel (R xs ys) (f.beta? a) (g.beta? b) := by
  cases h.alike.1 hf with
  | lam _ _ => exact .some (h.beta hf ha)
  | _ => exact .none

theorem branch? (hc : R xs ys s w) (ht : R xs ys t u) (hf : R xs ys f g) :
    Option.Rel (R xs ys) (s.branch? t f) (w.branch? u g) := by
  cases h.alike.1 hc with
  | @lit l =>
    cases l with
    | bool c =>
      cases c
      · exact .some hf
      · exact .some ht
    | int n => exact .none
  | _ => exact .none

theorem component? (ht : R xs ys t u) (i : UInt64) :
    Option.Rel (R xs ys) (t.component? i) (u.component? i) := by
  cases h.alike.1 ht with
  | tuple helems => exact forall₂_getElem? helems i.toNat
  | _ => exact .none

theorem contract? (hs : R xs ys s w) (hargs : List.Forall₂ (R xs ys) ts us)
    (he : rules.implementation? e = none)
    (hover : s.Over known) (hknown : known (.eliminator e ts.length)) :
    Option.Rel (R xs ys) (rules.contract? e s ts) (rules'.contract? e w us) := by
  cases h.alike.1 hs with
  | @ctor c fields fields' hfields =>
    rw [h.agree.contract?_eq hknown he]
    show Option.Rel (R xs ys) (Option.map _ (rules.context.equation? e c))
      (Option.map _ (rules.context.equation? e c))
    cases hd : rules.context.equation? e c with
    | none => exact .none
    | some d =>
      exact .some (h.equation he hd hknown (Term.over_ctor.1 hover).1 List.length_append
        (List.rel_append hfields hargs))
  | _ => exact .none

end Lockstep

theorem whnf_eq_bind : (rules.whnf n t).1 = (rules.step n t).1.bind fun r =>
    match r.1 with
    | none => some (t, r.2)
    | some u => paid r.2 fun m => (rules.whnf m u).1 := by
  rw [whnf]
  rcases rules.step n t with ⟨_ | ⟨_ | u, _ | k⟩, hs⟩ <;> rfl

theorem IsBranching.of_forall₂ {r : Term → Term → Prop} {op : Operator} (h : List.Forall₂ r ts us) :
    IsBranching op ts ↔ IsBranching op us := by
  unfold IsBranching
  refine and_congr_right fun _ => ?_
  rw [← List.length_eq_three, ← List.length_eq_three, h.length_eq]

mutual

theorem Lockstep.whnf {xs ys : List Name} {n : Nat} {t u : Term} (h : Lockstep known rules rules' R)
    (d : Nat) (ht : t.Over known) (htu : R xs ys t u) :
    Tracks d (R xs ys) (rules.whnf n t).1 (rules'.whnf (n + d) u).1 := by
  rw [whnf_eq_bind, whnf_eq_bind]
  refine (h.step d ht htu).bind (p := fun _ => True) (fun o o' k ho hrel => ?_) fun o k => ?_
  · cases hrel with
    | none => exact .both htu
    | some hrel =>
      refine .paid (fun m hm => ?_) fun m => (rules'.whnf m _).2
      have hle := ((rules.step n t).2 _ _ ho).1
      exact h.whnf d (h.covered.reaches ht (runs_of_step ho).reaches) hrel
  · cases o with
    | none => exact .some k.le_refl fun _ => trivial
    | some u => exact spent_paid fun m => (rules'.whnf m u).2
termination_by (n, 2 * t.size + 1)
decreasing_by all_goals exact lex_of (by omega) fun _ => by omega

theorem Lockstep.step {xs ys : List Name} {n : Nat} {t u : Term} (h : Lockstep known rules rules' R)
    (d : Nat) (ht : t.Over known) (htu : R xs ys t u) :
    Tracks d (Option.Rel (R xs ys)) (rules.step n t).1 (rules'.step (n + d) u).1 := by
  match t, u, h.alike.1 htu with
  | _, _, .var _ =>
    rw [step_var, step_var]
    exact .both .none
  | _, _, .lit =>
    rw [step_lit, step_lit]
    exact .both .none
  | _, _, .lam _ _ =>
    rw [step_lam, step_lam]
    exact .both .none
  | _, _, .tuple _ =>
    rw [step_tuple, step_tuple]
    exact .both .none
  | _, _, .ann htu =>
    rw [step_ann, step_ann]
    exact .both (.some htu)
  | _, _, .ctor (c := c) hargs =>
    rw [step_ctor, step_ctor, h.agree.implementations]
    refine .both ?_
    cases hbody : rules.implementation? c with
    | none => exact .none
    | some body => exact .some (h.applyAll (h.body hbody) hargs)
  | .app f a, .app g b, .app hf ha =>
    rw [step_app, step_app]
    refine (h.whnf d (Term.over_app.1 ht).1 hf).map fun f' g' k _ hf' => ?_
    exact rel_or (h.beta? hf' ha) (rel_moved (h.alike.2 (.app hf' ha)))
  | .proj t i, .proj u _, .proj htu =>
    rw [step_proj, step_proj]
    refine (h.whnf d (t := t) ht htu).map fun t' u' k _ htu' => ?_
    exact rel_or (h.component? htu' i) (rel_moved (h.alike.2 (.proj htu')))
  | .elim e s ts, .elim _ s' us, .elim hs hargs =>
    rw [Term.over_elim] at ht
    cases himpl : rules.implementation? e with
    | some body =>
      rw [step_elim_of_implemented himpl, step_elim_of_implemented
        ((h.agree.implementations e).trans himpl)]
      exact .both (.some (h.applyAll (h.body himpl) (.cons hs hargs)))
    | none =>
      rw [step_elim himpl, step_elim ((h.agree.implementations e).trans himpl)]
      refine (h.whnf d ht.2.1 hs).map fun w w' k hw hrel => ?_
      exact rel_or (h.contract? hrel hargs himpl (h.covered.whnf ht.2.1 hw) ht.1)
        (rel_moved (h.alike.2 (.elim hrel hargs)))
  | .prim op ts, .prim _ us, .prim hargs =>
    rw [Term.over_prim] at ht
    by_cases hb : IsBranching op ts
    · obtain ⟨hop, c, t, e, rfl⟩ := hb
      obtain ⟨-, c', t', e', rfl⟩ := (IsBranching.of_forall₂ hargs).1 ⟨hop, c, t, e, rfl⟩
      subst hop
      rw [step_ite, step_ite]
      have hc : c.Over known := ht c (by simp)
      simp only [List.forall₂_cons, List.forall₂_nil_left_iff] at hargs
      obtain ⟨hcc, htt, hee, -⟩ := hargs
      refine (h.whnf d hc hcc).map fun w w' k _ hrel => ?_
      exact rel_or (h.branch? hrel htt hee)
        (rel_moved (h.alike.2 (.prim (.cons hrel (.cons htt (.cons hee .nil))))))
    · rw [step_prim hb, step_prim (mt (IsBranching.of_forall₂ hargs).2 hb)]
      refine (h.whnfEach d ht hargs).map fun ws ws' k _ hrel => ?_
      exact rel_or (h.fold hrel) (rel_moved (h.alike.2 (.prim hrel)))
termination_by (n, 2 * t.size)
decreasing_by
  all_goals
    refine lex_of (by omega) fun _ => ?_
    subst_vars
    simp only [Term.size, Term.sizeAll]
    omega

theorem Lockstep.whnfEach {xs ys : List Name} {n : Nat} {ts us : List Term}
    (h : Lockstep known rules rules' R) (d : Nat) (hts : ∀ t ∈ ts, t.Over known)
    (htsus : List.Forall₂ (R xs ys) ts us) :
    Tracks d (List.Forall₂ (R xs ys)) (rules.whnfEach n ts).1 (rules'.whnfEach (n + d) us).1 := by
  match ts, us, htsus with
  | [], [], .nil =>
    rw [whnfEach_nil, whnfEach_nil]
    exact .both .nil
  | t :: ts, u :: us, .cons htu htsus =>
    rw [List.forall_mem_cons] at hts
    rw [whnfEach_cons, whnfEach_cons]
    refine (h.whnf d hts.1 htu).bind (p := fun _ => True) (fun w w' k hw hrel => ?_) fun w k => ?_
    · have hle := ((rules.whnf n t).2 _ _ hw).1
      exact (h.whnfEach d hts.2 htsus).map fun ws ws' k _ hrels => .cons hrel hrels
    · exact (rules'.whnfEach k us).2.map
termination_by (n, 2 * Term.sizeAll ts)
decreasing_by all_goals exact lex_of (by omega) fun _ => by simp only [Term.sizeAll]; omega

end

theorem rebuild_prim {op : Operator} :
    rules.rebuild n (.prim op args) = (rules.normalizeEach n args).1.bind fun r =>
    match ClosedTypes.fold op r.1 with
    | none => some (.prim op r.1, r.2)
    | some u => paid r.2 fun m => (rules.normalize m u).1 := by
  rw [rebuild]
  refine Option.bind_congr fun r _ => ?_
  rcases ClosedTypes.fold op r.1 with _ | u
  · rfl
  · rcases r.2 with _ | m <;> rfl

theorem spent_rebuild : Spent n (fun _ => True) (rules.rebuild n w) := by
  match w with
  | .var x => exact .some n.le_refl fun _ => trivial
  | .lit l => exact .some n.le_refl fun _ => trivial
  | .lam x dom b => exact (rules.normalize n b).2.map
  | .ann t ty => exact (rules.normalize n t).2
  | .ctor c args => exact (rules.normalizeEach n args).2.map
  | .tuple elems => exact (rules.normalizeEach n elems).2.map
  | .proj t i => exact (rules.normalize n t).2.map
  | .app f a => exact (rules.normalize n f).2.bind fun r => (rules.normalize r.2 a).2.map
  | .elim e s args =>
    exact (rules.normalize n s).2.bind fun r => (rules.normalizeEach r.2 args).2.map
  | .prim op args =>
    rw [rebuild_prim]
    refine (rules.normalizeEach n args).2.bind (q := fun _ => True) fun r => ?_
    cases ClosedTypes.fold op r.1 with
    | none => exact .some r.2.le_refl fun _ => trivial
    | some u => exact spent_paid fun m => (rules.normalize m u).2

mutual

theorem Lockstep.normalize {xs ys : List Name} {n : Nat} {t u : Term}
    (h : Lockstep known rules rules' R) (d : Nat) (ht : t.Over known)
    (htu : R xs ys t u) :
    Tracks d (R xs ys) (rules.normalize n t).1 (rules'.normalize (n + d) u).1 := by
  rw [normalize_eq_bind, normalize_eq_bind]
  refine (h.whnf d ht htu).bind (fun w w' k hw hrel => ?_) fun _ _ => spent_rebuild
  obtain ⟨hle, heq⟩ := (rules.whnf n t).2 _ _ hw
  exact h.rebuild d (h.covered.whnf ht hw) hrel
termination_by (n, 2 * t.size + 1)
decreasing_by exact lex_of hle fun e => by have := heq e; subst this; omega

theorem Lockstep.rebuild {xs ys : List Name} {n : Nat} {w v : Term}
    (h : Lockstep known rules rules' R) (d : Nat) (hw : w.Over known)
    (hwv : R xs ys w v) : Tracks d (R xs ys) (rules.rebuild n w) (rules'.rebuild (n + d) v) := by
  match w, v, h.alike.1 hwv with
  | _, _, .var hxy => exact .both hxy
  | _, _, .lit => exact .both hwv
  | .ann t _, _, .ann htu => exact h.normalize d (t := t) hw htu
  | .lam _ _ b, _, .lam hbc hlam =>
    exact (h.normalize d (t := b) hw hbc).map fun _ _ _ _ hrel => hlam _ _ hrel
  | .proj t _, _, .proj htu =>
    exact (h.normalize d (t := t) hw htu).map fun _ _ _ _ hrel => h.alike.2 (.proj hrel)
  | .ctor _ args, _, .ctor hargs =>
    exact (h.normalizeEach d (Term.over_ctor.1 hw).2 hargs).map fun _ _ _ _ hrel =>
      h.alike.2 (.ctor hrel)
  | .tuple elems, _, .tuple helems =>
    exact (h.normalizeEach d (Term.over_tuple.1 hw) helems).map fun _ _ _ _ hrel =>
      h.alike.2 (.tuple hrel)
  | .app f a, .app g b, .app hf ha =>
    rw [Term.over_app] at hw
    refine (h.normalize d hw.1 hf).bind (fun f' g' k hk hrel => ?_) fun g' k =>
      (rules'.normalize k b).2.map
    have hle := ((rules.normalize n f).2 _ _ hk).1
    exact (h.normalize d hw.2 ha).map fun _ _ _ _ harg => h.alike.2 (.app hrel harg)
  | .elim e s ts, .elim _ s' us, .elim hs hargs =>
    rw [Term.over_elim] at hw
    refine (h.normalize d hw.2.1 hs).bind (fun v v' k hk hrel => ?_) fun v' k =>
      (rules'.normalizeEach k us).2.map
    have hle := ((rules.normalize n s).2 _ _ hk).1
    exact (h.normalizeEach d hw.2.2 hargs).map fun _ _ _ _ hrest => h.alike.2 (.elim hrel hrest)
  | .prim op ts, .prim _ us, .prim hargs =>
    rw [Term.over_prim] at hw
    rw [rebuild_prim, rebuild_prim]
    refine (h.normalizeEach d hw hargs).bind (p := fun _ => True) (fun vs vs' k hk hrel => ?_)
      fun vs k => ?_
    · have hle := ((rules.normalizeEach n ts).2 _ _ hk).1
      dsimp only
      have hfolds : Option.Rel (R xs ys) (ClosedTypes.fold op vs) (ClosedTypes.fold op vs') :=
        h.fold hrel
      generalize hfold : ClosedTypes.fold op vs = o at hfolds
      generalize ClosedTypes.fold op vs' = o' at hfolds
      cases hfolds with
      | none => exact .both (h.alike.2 (.prim hrel))
      | some hu =>
        refine .paid (fun m hm => ?_) fun m => (rules'.normalize m _).2
        exact h.normalize d
          (h.covered.contracts (Term.over_prim.2 (h.covered.normalizeEach hw hk)) (.fold hfold)) hu
    · cases ClosedTypes.fold op vs with
      | none => exact .some k.le_refl fun _ => trivial
      | some u => exact spent_paid fun m => (rules'.normalize m u).2
termination_by (n, 2 * w.size)
decreasing_by all_goals exact lex_of (by omega) fun _ => by subst_vars; simp only [Term.size]; omega

theorem Lockstep.normalizeEach {xs ys : List Name} {n : Nat} {ts us : List Term}
    (h : Lockstep known rules rules' R) (d : Nat)
    (hts : ∀ t ∈ ts, t.Over known) (htsus : List.Forall₂ (R xs ys) ts us) :
    Tracks d (List.Forall₂ (R xs ys)) (rules.normalizeEach n ts).1
      (rules'.normalizeEach (n + d) us).1 := by
  match ts, us, htsus with
  | [], [], .nil =>
    rw [normalizeEach_nil, normalizeEach_nil]
    exact .both .nil
  | t :: ts, u :: us, .cons htu htsus =>
    rw [List.forall_mem_cons] at hts
    rw [normalizeEach_cons, normalizeEach_cons]
    refine (h.normalize d hts.1 htu).bind (fun v v' k hk hrel => ?_) fun v k =>
      (rules'.normalizeEach k us).2.map
    have hle := ((rules.normalize n t).2 _ _ hk).1
    exact (h.normalizeEach d hts.2 htsus).map fun _ _ _ _ hrels => .cons hrel hrels
termination_by (n, 2 * Term.sizeAll ts)
decreasing_by
  all_goals exact lex_of (by omega) fun _ => by subst_vars; simp only [Term.sizeAll]; omega

end

theorem eq_of_forall₂ {α : Type} {as bs : List α} (h : List.Forall₂ Eq as bs) : as = bs :=
  List.forall₂_eq_eq_eq ▸ h

theorem alike_eq : t = u ↔ Alike (fun _ _ => Eq) xs ys t u := by
  refine ⟨?_, fun h => ?_⟩
  · rintro rfl
    have heach (ts : List Term) : List.Forall₂ Eq ts ts := List.forall₂_refl ts
    cases t with
    | var x => exact .var rfl
    | lit l => exact .lit
    | app f a => exact .app rfl rfl
    | lam x dom b => exact .lam rfl fun b' c' h => congrArg _ h
    | ann t ty => exact .ann rfl
    | ctor c ts => exact .ctor (heach ts)
    | elim e s ts => exact .elim rfl (heach ts)
    | prim op ts => exact .prim (heach ts)
    | tuple ts => exact .tuple (heach ts)
    | proj t i => exact .proj rfl
  · cases h with
    | var h => exact h
    | lit => rfl
    | app hf ha => rw [hf, ha]
    | lam hb h => exact h _ _ hb
    | ann h => rw [h]
    | ctor h => rw [eq_of_forall₂ h]
    | elim hs h => rw [hs, eq_of_forall₂ h]
    | prim h => rw [eq_of_forall₂ h]
    | tuple h => rw [eq_of_forall₂ h]
    | proj h => rw [h]

theorem rel_refl {α : Type} (o : Option α) : Option.Rel Eq o o := by
  cases o with
  | none => exact .none
  | some a => exact .some rfl

theorem Agree.lockstep (ha : Agree known rules rules') (hr : rules.Over known) :
    Lockstep known rules rules' fun _ _ => Eq where
  agree := ha
  covered := hr
  alike := alike_eq
  beta hf ha := by
    cases hf
    rw [ha]
  equation _ _ _ _ _ h := by rw [eq_of_forall₂ h]
  fold h := by
    rw [eq_of_forall₂ h]
    exact rel_refl _
  body _ := rfl

theorem Agree.tracks_whnf (ha : Agree known rules rules') (hr : rules.Over known)
    (ht : t.Over known) :
    Tracks d (fun u v => u = v) (rules.whnf n t).1 (rules'.whnf (n + d) t).1 :=
  @Lockstep.whnf _ _ _ _ [] [] n t t (ha.lockstep hr) d ht rfl

theorem Agree.tracks_normalize (ha : Agree known rules rules') (hr : rules.Over known)
    (ht : t.Over known) :
    Tracks d (fun u v => u = v) (rules.normalize n t).1 (rules'.normalize (n + d) t).1 :=
  @Lockstep.normalize _ _ _ _ [] [] n t t (ha.lockstep hr) d ht rfl

theorem Agree.whnf_eq (ha : Agree known rules rules') (hr : rules.Over known) (ht : t.Over known) :
    (rules'.whnf n t).1 = (rules.whnf n t).1 :=
  (ha.tracks_whnf hr ht).eq

theorem Agree.normalize_eq (ha : Agree known rules rules') (hr : rules.Over known)
    (ht : t.Over known) :
    (rules'.normalize n t).1 = (rules.normalize n t).1 :=
  (ha.tracks_normalize hr ht).eq

theorem Agree.equal_eq (ha : Agree known rules rules') (hr : rules.Over known) (ht : t.Over known)
    (hu : u.Over known) :
    rules'.equal n t u = rules.equal n t u := by
  unfold Rules.equal
  simp only [ha.normalize_eq hr ht, ha.normalize_eq hr hu]

end Rules

end ClosedTypes
