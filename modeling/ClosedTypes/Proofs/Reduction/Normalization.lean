import ClosedTypes.Proofs.Reduction.Evaluation
import ClosedTypes.Reduction.Evaluator
/-!
Normalization, form by form and without the account of the budget: head steps, then the parts, then
a fold if the parts show one.
-/

namespace ClosedTypes

namespace Rules

variable {rules : Rules} {n k m : Nat} {t u v w f a s b : Term} {ts us args : List Term} {x : Name}
  {i : UInt64}

theorem normalizeEach_nil : (rules.normalizeEach n []).1 = some ([], n) := by rw [normalizeEach]

theorem normalizeEach_cons : (rules.normalizeEach n (t :: ts)).1 =
    (rules.normalize n t).1.bind fun r => (rules.normalizeEach r.2 ts).1.map fun rs =>
      (r.1 :: rs.1, rs.2) := by
  rw [normalizeEach]
  rcases h : rules.normalize n t with ⟨_ | ⟨t', k⟩, hs⟩
  · rfl
  · dsimp only
    rcases h' : rules.normalizeEach k ts with ⟨_ | ⟨ts', m⟩, hs'⟩ <;> simp [h']

def rebuild (rules : Rules) (n : Nat) : Term → Option (Term × Nat)
  | .lam x dom b => (rules.normalize n b).1.map fun r => (.lam x dom r.1, r.2)
  | .ann t _ => (rules.normalize n t).1
  | .app f a =>
    (rules.normalize n f).1.bind fun r => (rules.normalize r.2 a).1.map fun q => (.app r.1 q.1, q.2)
  | .ctor c args => (rules.normalizeEach n args).1.map fun r => (.ctor c r.1, r.2)
  | .elim e s args =>
    (rules.normalize n s).1.bind fun r => (rules.normalizeEach r.2 args).1.map fun q =>
      (.elim e r.1 q.1, q.2)
  | .tuple elems => (rules.normalizeEach n elems).1.map fun r => (.tuple r.1, r.2)
  | .proj t i => (rules.normalize n t).1.map fun r => (.proj r.1 i, r.2)
  | .prim op args => (rules.normalizeEach n args).1.bind fun r =>
    match fold op r.1, r.2 with
    | none, m => some (.prim op r.1, m)
    | some _, 0 => none
    | some u, m + 1 => (rules.normalize m u).1
  | t => some (t, n)

theorem normalize_eq_bind :
    (rules.normalize n t).1 = (rules.whnf n t).1.bind fun r => rules.rebuild r.2 r.1 := by
  rw [normalize]
  rcases hw : rules.whnf n t with ⟨_ | ⟨w, k⟩, hk⟩
  · rfl
  · rw [Option.bind_some]
    cases w with
    | var x => rfl
    | lit l => rfl
    | ann t ty => rfl
    | lam x dom b =>
      dsimp only [rebuild]
      rcases rules.normalize k b with ⟨_ | ⟨b', m⟩, hm⟩ <;> rfl
    | ctor c args =>
      dsimp only [rebuild]
      rcases rules.normalizeEach k args with ⟨_ | ⟨args', m⟩, hm⟩ <;> rfl
    | tuple elems =>
      dsimp only [rebuild]
      rcases rules.normalizeEach k elems with ⟨_ | ⟨elems', m⟩, hm⟩ <;> rfl
    | proj t i =>
      dsimp only [rebuild]
      rcases rules.normalize k t with ⟨_ | ⟨t', m⟩, hm⟩ <;> rfl
    | app f a =>
      dsimp only [rebuild]
      rcases hf : rules.normalize k f with ⟨_ | ⟨f', m⟩, hm⟩
      · rfl
      · dsimp only
        rcases ha : rules.normalize m a with ⟨_ | ⟨a', l⟩, hl⟩ <;> simp [ha]
    | elim e s args =>
      dsimp only [rebuild]
      rcases hs : rules.normalize k s with ⟨_ | ⟨s', m⟩, hm⟩
      · rfl
      · dsimp only
        rcases ha : rules.normalizeEach m args with ⟨_ | ⟨args', l⟩, hl⟩ <;> simp [ha]
    | prim op args =>
      dsimp only [rebuild]
      rcases ha : rules.normalizeEach k args with ⟨_ | ⟨args', m⟩, hm⟩
      · rfl
      · dsimp only [Option.bind_some]
        split <;> simp_all

/-- Head steps until one of them is not needed any more, and then the parts. A fold that shows up
behind them is a step again. -/
inductive Normalizes (rules : Rules) : Term → Term → Prop where
  | step {t u v : Term} : rules.Advances t u → Normalizes rules u v → Normalizes rules t v
  | var {x : Name} : Normalizes rules (.var x) (.var x)
  | lit {l : Literal} : Normalizes rules (.lit l) (.lit l)
  | lam {x : Name} {dom : Option Ty} {b c : Term} : Normalizes rules b c →
    Normalizes rules (.lam x dom b) (.lam x dom c)
  | app {f g a b : Term} : Normalizes rules f g → Normalizes rules a b →
    Normalizes rules (.app f a) (.app g b)
  | ctor {c : Name} {as bs : List Term} :
    rules.implementation? c = none → as.length = bs.length →
      (∀ p ∈ as.zip bs, Normalizes rules p.1 p.2) →
    Normalizes rules (.ctor c as) (.ctor c bs)
  | elim {e : Name} {s t : Term} {as bs : List Term} :
    rules.implementation? e = none → Normalizes rules s t → as.length = bs.length →
    (∀ p ∈ as.zip bs, Normalizes rules p.1 p.2) → Normalizes rules (.elim e s as) (.elim e t bs)
  | tuple {as bs : List Term} :
    as.length = bs.length → (∀ p ∈ as.zip bs, Normalizes rules p.1 p.2) →
      Normalizes rules (.tuple as) (.tuple bs)
  | proj {t u : Term} {i : UInt64} : Normalizes rules t u → Normalizes rules (.proj t i) (.proj u i)
  | prim {op : Operator} {as bs : List Term} :
    as.length = bs.length → (∀ p ∈ as.zip bs, Normalizes rules p.1 p.2) →
      ClosedTypes.fold op bs = none →
    Normalizes rules (.prim op as) (.prim op bs)
  | fold {op : Operator} {as bs : List Term} {t u : Term} :
    as.length = bs.length → (∀ p ∈ as.zip bs, Normalizes rules p.1 p.2) →
      ClosedTypes.fold op bs = some t →
    Normalizes rules t u → Normalizes rules (.prim op as) u

theorem forall_of_forall_zip {p : Term → Prop} (hlen : ts.length = us.length)
    (h : ∀ q ∈ ts.zip us, p q.2) : ∀ u ∈ us, p u := by
  rw [← List.map_snd_zip (Nat.le_of_eq hlen.symm), List.forall_mem_map]
  exact h

theorem Normalizes.of_runs (h : rules.Runs t w) (hw : rules.Normalizes w u) :
    rules.Normalizes t u := by
  induction h using Relation.ReflTransGen.head_induction_on with
  | refl => exact hw
  | head hstep _ ih => exact .step hstep ih

mutual

theorem normalizes_of_normalize {n k : Nat} {t u : Term}
    (h : (rules.normalize n t).1 = some (u, k)) : rules.Normalizes t u := by
  rw [normalize_eq_bind, Option.bind_eq_some_iff] at h
  obtain ⟨⟨w, m⟩, hw, h⟩ := h
  obtain ⟨hle, heq⟩ := (rules.whnf n t).2 _ _ hw
  exact .of_runs (runs_of_whnf hw) (normalizes_of_rebuild (stuck_of_whnf hw) h)
termination_by (n, 2 * t.size + 1)
decreasing_by exact lex_of hle fun e => by have := heq e; subst this; omega

theorem normalizes_of_rebuild {n k : Nat} {w u : Term} (hw : rules.Stuck w)
    (h : rules.rebuild n w = some (u, k)) :
    rules.Normalizes w u := by
  match w with
  | .var x =>
    cases h
    exact .var
  | .lit l =>
    cases h
    exact .lit
  | .ann t ty => cases hw
  | .lam x dom b =>
    obtain ⟨⟨b', m⟩, hb, h⟩ := Option.map_eq_some_iff.1 h
    cases h
    exact .lam (normalizes_of_normalize hb)
  | .proj t i =>
    obtain ⟨⟨t', m⟩, ht, h⟩ := Option.map_eq_some_iff.1 h
    cases h
    exact .proj (normalizes_of_normalize ht)
  | .app f a =>
    obtain ⟨⟨f', m⟩, hf, h⟩ := Option.bind_eq_some_iff.1 h
    obtain ⟨⟨a', l⟩, ha, h⟩ := Option.map_eq_some_iff.1 h
    cases h
    have hle := ((rules.normalize n f).2 _ _ hf).1
    exact .app (normalizes_of_normalize hf) (normalizes_of_normalize ha)
  | .ctor c args =>
    obtain ⟨⟨args', m⟩, ha, h⟩ := Option.map_eq_some_iff.1 h
    cases h
    cases hw with
    | ctor hc =>
      exact .ctor hc (normalizes_of_normalizeEach ha).1 (normalizes_of_normalizeEach ha).2
  | .elim e s args =>
    obtain ⟨⟨s', m⟩, hs, h⟩ := Option.bind_eq_some_iff.1 h
    obtain ⟨⟨args', l⟩, ha, h⟩ := Option.map_eq_some_iff.1 h
    cases h
    have hle := ((rules.normalize n s).2 _ _ hs).1
    cases hw with
    | elim he _ _ =>
      exact .elim he (normalizes_of_normalize hs) (normalizes_of_normalizeEach ha).1
        (normalizes_of_normalizeEach ha).2
  | .tuple elems =>
    obtain ⟨⟨elems', m⟩, ha, h⟩ := Option.map_eq_some_iff.1 h
    cases h
    exact .tuple (normalizes_of_normalizeEach ha).1 (normalizes_of_normalizeEach ha).2
  | .prim op args =>
    obtain ⟨⟨args', m⟩, ha, h⟩ := Option.bind_eq_some_iff.1 h
    obtain ⟨hlen, hargs⟩ := normalizes_of_normalizeEach ha
    dsimp only at h
    split at h
    · rename_i hfold
      cases h
      exact .prim hlen hargs hfold
    · cases h
    · rename_i v l hfold
      have hle := ((rules.normalizeEach n args).2 _ _ ha).1
      exact .fold hlen hargs hfold (normalizes_of_normalize h)
termination_by (n, 2 * w.size)
decreasing_by all_goals exact lex_of (by omega) fun _ => by subst_vars; simp only [Term.size]; omega

theorem normalizes_of_normalizeEach {n k : Nat} {ts us : List Term}
    (h : (rules.normalizeEach n ts).1 = some (us, k)) :
    ts.length = us.length ∧ ∀ p ∈ ts.zip us, rules.Normalizes p.1 p.2 := by
  match ts with
  | [] =>
    rw [normalizeEach_nil] at h
    cases h
    exact ⟨rfl, nofun⟩
  | t :: ts =>
    rw [normalizeEach_cons, Option.bind_eq_some_iff] at h
    obtain ⟨⟨t', m⟩, ht, h⟩ := h
    obtain ⟨⟨ts', l⟩, hts, h⟩ := Option.map_eq_some_iff.1 h
    cases h
    have hle := ((rules.normalize n t).2 _ _ ht).1
    obtain ⟨hlen, hall⟩ := normalizes_of_normalizeEach hts
    exact ⟨congrArg Nat.succ hlen, List.forall_mem_cons.2 ⟨normalizes_of_normalize ht, hall⟩⟩
termination_by (n, 2 * Term.sizeAll ts)
decreasing_by
  all_goals exact lex_of (by omega) fun _ => by subst_vars; simp only [Term.sizeAll]; omega

end

theorem reachesEach (hlen : ts.length = us.length) (h : ∀ p ∈ ts.zip us, rules.Reaches p.1 p.2) :
    Relation.ReflTransGen rules.ReducesOne ts us := by
  induction ts generalizing us with
  | nil =>
    cases List.length_eq_zero_iff.1 hlen.symm
    exact .refl
  | cons t ts ih =>
    cases us with
    | nil => cases hlen
    | cons u us =>
      obtain ⟨ht, hts⟩ := List.forall_mem_cons.1 h
      have hhead : Relation.ReflTransGen rules.ReducesOne (t :: ts) (u :: ts) :=
        ht.lift (· :: ts) fun _ _ => .head
      exact hhead.trans ((ih (Nat.succ.inj hlen) hts).lift (u :: ·) fun _ _ => .tail)

theorem Normalizes.reaches (h : rules.Normalizes t u) : rules.Reaches t u := by
  induction h with
  | step h _ ih => exact .head h.reduces ih
  | var => exact .refl
  | lit => exact .refl
  | @lam x dom b c _ ih => exact ih.lift (Term.lam x dom) fun _ _ => .body
  | @app f g a b _ _ ihf iha =>
    exact (ihf.lift (Term.app · a) fun _ _ => .fn).trans (iha.lift (Term.app g) fun _ _ => .arg)
  | @ctor c as bs _ hlen _ ih => exact (reachesEach hlen ih).lift (Term.ctor c) fun _ _ => .fields
  | @elim e s t as bs _ _ hlen _ ihs ih =>
    exact (ihs.lift (Term.elim e · as) fun _ _ => .scrutinee).trans
      ((reachesEach hlen ih).lift (Term.elim e t) fun _ _ => .operands)
  | tuple hlen _ ih => exact (reachesEach hlen ih).lift Term.tuple fun _ _ => .tuple
  | @proj t u i _ ih => exact ih.lift (Term.proj · i) fun _ _ => .proj
  | @prim op as bs hlen _ _ ih => exact (reachesEach hlen ih).lift (Term.prim op) fun _ _ => .prim
  | @fold op as bs t u hlen _ hfold _ ih ihu =>
    exact ((reachesEach hlen ih).lift (Term.prim op) fun _ _ => .prim).trans
      (.head (.here (.fold hfold)) ihu)

end Rules

namespace Evaluator

variable {α : Type} {question : Rules → Nat → Option (α × Nat)} {r : Evaluator} {a : α} {t u : Term}

theorem fst_ask_eq_ok_iff :
    (r.ask question).1 = .ok a ↔ ∃ m, question r.rules r.remaining = some (a, m) := by
  unfold ask
  rcases question r.rules r.remaining with _ | ⟨b, m⟩ <;> simp

theorem normalizes_of_normalize (h : (r.normalize t).1 = .ok u) : r.rules.Normalizes t u := by
  obtain ⟨k, hk⟩ := fst_ask_eq_ok_iff.1 h
  exact Rules.normalizes_of_normalize hk

end Evaluator

end ClosedTypes
