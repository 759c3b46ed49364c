import ClosedTypes.Proofs.Reduction.Arithmetic
import ClosedTypes.Proofs.Reduction.Equivalence
import ClosedTypes.Proofs.Reduction.Plain
import Mathlib.Data.Int.ModEq
/-!
Canonical forms of linear terms. Every fold of a linear term keeps its offset from the variable, and
where no fold is left there is at most one literal, on the right.
-/

namespace ClosedTypes

variable {rules : Rules} {x : Name} {c d k : Int64} {t u v s : Term}

section

variable (h : t.literal? = none)

include h

theorem Term.int?_of_literal? : t.int? = none := by
  cases t with
  | lit l => cases h
  | _ => rfl

theorem Term.alpha_lit {l : Literal} : t.alpha (.lit l) = false := by
  refine Bool.eq_false_iff.2 fun halpha => ?_
  have hskeleton : t.skeleton [] = .node (.lit l) [] := skeleton_inj.2 halpha
  have hlit : t = .lit l := eq_lit_of_skeleton hskeleton
  rw [hlit] at h
  cases h

theorem fold_add : fold .add [t, .int k] = if k = 0 then some t else
    t.addend?.map fun p => .prim .add [p.1, .int (p.2 + k)] := by
  simp [fold, foldAdd, Term.int?_of_literal? h, Term.int, Term.int?_lit]

theorem fold_add_swap : fold .add [.int k, t] = some (.prim .add [t, .int k]) := by
  simp [fold, foldAdd, Term.int?_of_literal? h, Term.int, Term.int?_lit]

theorem fold_sub : fold .sub [t, .int k] = some (.prim .add [t, .int (-k)]) := by
  simp [fold, foldSub, Term.int?_of_literal? h, Term.int, Term.int?_lit]

theorem fold_eq :
    fold .eq [t, .int k] = t.addend?.map fun p => .prim .eq [p.1, .int (k - p.2)] := by
  have halpha : t.alpha (.lit (.int k)) = false := Term.alpha_lit h
  cases hadd : t.addend? <;> simp [fold, foldEq, h, halpha, hadd, Term.int, Term.int?_lit]

theorem fold_eq_swap : fold .eq [.int k, t] = some (.prim .eq [t, .int k]) := by
  have halpha : (Term.lit (.int k)).alpha t = false := Rules.alpha_comm t _ ▸ Term.alpha_lit h
  have hk : (Term.lit (.int k)).literal? = some (.int k) := rfl
  simp [fold, foldEq, h, halpha, hk, Term.int]

end

theorem Term.eq_var_of_addend? (h : t = .shifted x c) (hadd : t.addend? = none) :
    c = 0 ∧ t = .var x := by
  unfold Term.shifted at h
  split at h
  · exact ⟨‹_›, h⟩
  · rw [h] at hadd
    cases hadd

namespace Rules

variable {op : Operator} {l : Literal} {a b : Term}

theorem not_reduces_lit : ¬rules.Reduces (.lit l) u := by
  intro h
  cases h with
  | here h => cases h

theorem not_reducesOne_lit {us : List Term} : ¬rules.ReducesOne [.lit l] us := by
  intro h
  cases h with
  | head h => exact not_reduces_lit h
  | tail h => cases h

theorem Reduces.of_right (h : rules.Reduces (.prim op [t, .int k]) u) :
    ClosedTypes.fold op [t, .int k] = some u ∨ ∃ t', rules.Reduces t t' ∧
    u = .prim op [t', .int k] := by
  cases h with
  | here h => cases h with
    | fold hfold => exact .inl hfold
  | prim h => cases h with
    | head h => exact .inr ⟨_, h, rfl⟩
    | tail h => exact absurd h not_reducesOne_lit

theorem Reduces.of_left (h : rules.Reduces (.prim op [.int k, t]) u) :
    ClosedTypes.fold op [.int k, t] = some u ∨ ∃ t', rules.Reduces t t' ∧
    u = .prim op [.int k, t'] := by
  cases h with
  | here h => cases h with
    | fold hfold => exact .inl hfold
  | prim h => cases h with
    | head h => exact absurd h not_reduces_lit
    | tail h => cases h with
      | head h => exact .inr ⟨_, h, rfl⟩
      | tail h => cases h

theorem Irreducible.pair (h : rules.Irreducible (.prim op [a, b])) :
    ClosedTypes.fold op [a, b] = none ∧ rules.Irreducible a ∧ rules.Irreducible b := by
  obtain ⟨hhere, hparts⟩ := List.forall_mem_cons.1 h
  have hargs := Term.forall_mem_subtermsAll.1 hparts
  exact ⟨eq_none_of_contracts hhere fun _ => .fold, hargs a (by simp), hargs b (by simp)⟩

theorem not_exposed_lit : ∀ s ∈ (Term.lit l).subterms, ¬rules.Exposed s :=
  List.forall_mem_singleton.2 nofun

theorem not_exposed_pair (ha : ∀ s ∈ a.subterms, ¬rules.Exposed s)
    (hb : ∀ s ∈ b.subterms, ¬rules.Exposed s) :
    ∀ s ∈ (Term.prim op [a, b]).subterms, ¬rules.Exposed s :=
  List.forall_mem_cons.2 ⟨nofun, Term.forall_mem_subtermsAll.2 (by simpa using ⟨ha, hb⟩)⟩

end Rules

inductive Offset (x : Name) : Int64 → Term → Prop where
  | self : Offset x 0 (.var x)
  | plus {c k : Int64} {t : Term} : Offset x c t → Offset x (c + k) (.prim .add [t, .int k])
  | onto {c k : Int64} {t : Term} : Offset x c t → Offset x (k + c) (.prim .add [.int k, t])
  | minus {c k : Int64} {t : Term} : Offset x c t → Offset x (c - k) (.prim .sub [t, .int k])

theorem Linear.offset_term (x : Name) (e : Linear) : Offset x (.ofInt e.offset) (e.term x) := by
  induction e with
  | self => exact .self
  | plus e k ih =>
    rw [offset, Int64.ofInt_add, Int64.ofInt_toInt]
    exact .plus ih
  | onto k e ih =>
    rw [offset, Int64.ofInt_add, Int64.ofInt_toInt]
    exact .onto ih
  | minus e k ih =>
    rw [offset, Int64.ofInt_sub, Int64.ofInt_toInt]
    exact .minus ih

namespace Offset

theorem literal? (h : Offset x c t) : t.literal? = none := by cases h <;> rfl

theorem plain (h : Offset x c t) : t.Plain := by
  induction h with
  | self => exact .var
  | plus _ ih => exact Term.plain_pair.2 ⟨ih, .lit⟩
  | onto _ ih => exact Term.plain_pair.2 ⟨.lit, ih⟩
  | minus _ ih => exact Term.plain_pair.2 ⟨ih, .lit⟩

theorem shifted (x : Name) (c : Int64) : Offset x c (.shifted x c) := by
  unfold Term.shifted
  split
  · rename_i hc
    rw [hc]
    exact .self
  · have h : Offset x (0 + c) (.prim .add [.var x, .int c]) := .plus .self
    rwa [Int64.zero_add] at h

theorem value? (h : Offset x c t) : t.value? (fun _ => some (.int 0)) = some (.int c) := by
  induction h with
  | self => rfl
  | plus _ ih => simp [Term.value?, Term.values?, ih, Term.int, Operator.value?_of_computes .add]
  | onto _ ih => simp [Term.value?, Term.values?, ih, Term.int, Operator.value?_of_computes .add]
  | minus _ ih => simp [Term.value?, Term.values?, ih, Term.int, Operator.value?_of_computes .sub]

theorem eq_of_alpha (ht : Offset x c t) (hu : Offset x d u) (h : t.alpha u = true) : c = d := by
  have hvalue : t.value? (fun _ => some (.int 0)) = u.value? fun _ => some (.int 0) := by
    rw [← Skeleton.value?_skeleton, ← Skeleton.value?_skeleton, Term.skeleton_inj.2 h]
  rw [ht.value?, hu.value?] at hvalue
  cases hvalue
  rfl

theorem exists_of_addend? (h : Offset x c t) (hadd : t.addend? = some (u, k)) :
    ∃ d, Offset x d u ∧ c = d + k := by
  obtain rfl := eq_add_of_addend? hadd
  cases h with
  | plus hu => exact ⟨_, hu, rfl⟩
  | onto hk => cases hk

theorem fold {op : Operator} {args : List Term} (h : Offset x c (.prim op args))
    (hfold : ClosedTypes.fold op args = some u) :
    Offset x c u := by
  cases h with
  | @plus c k t ht =>
    rw [fold_add ht.literal?] at hfold
    split at hfold
    · rename_i hk
      cases hfold
      rwa [hk, Int64.add_zero]
    · obtain ⟨⟨s, j⟩, hs, rfl⟩ := Option.map_eq_some_iff.1 hfold
      obtain ⟨d, hd, rfl⟩ := ht.exists_of_addend? hs
      rw [Int64.add_assoc]
      exact .plus hd
  | @onto c k t ht =>
    rw [fold_add_swap ht.literal?] at hfold
    cases hfold
    rw [Int64.add_comm]
    exact .plus ht
  | minus ht =>
    rw [fold_sub ht.literal?] at hfold
    cases hfold
    rw [Int64.sub_eq_add_neg]
    exact .plus ht

theorem reduces (h : Offset x c t) (hr : rules.Reduces t u) : Offset x c u := by
  induction h generalizing u with
  | self => cases hr with
    | here hc => cases hc
  | plus ht ih =>
    rcases hr.of_right with hfold | ⟨t', ht', rfl⟩
    · exact (plus ht).fold hfold
    · exact .plus (ih ht')
  | onto ht ih =>
    rcases hr.of_left with hfold | ⟨t', ht', rfl⟩
    · exact (onto ht).fold hfold
    · exact .onto (ih ht')
  | minus ht ih =>
    rcases hr.of_right with hfold | ⟨t', ht', rfl⟩
    · exact (minus ht).fold hfold
    · exact .minus (ih ht')

theorem not_exposed (h : Offset x c t) : ∀ s ∈ t.subterms, ¬rules.Exposed s := by
  induction h with
  | self => exact List.forall_mem_singleton.2 nofun
  | plus _ ih => exact Rules.not_exposed_pair ih Rules.not_exposed_lit
  | onto _ ih => exact Rules.not_exposed_pair Rules.not_exposed_lit ih
  | minus _ ih => exact Rules.not_exposed_pair ih Rules.not_exposed_lit

theorem eq_shifted (h : Offset x c t) (hn : rules.Irreducible t) : t = .shifted x c := by
  induction h with
  | self => exact (if_pos rfl).symm
  | @plus c k t ht ih =>
    obtain ⟨hfold, htn, -⟩ := hn.pair
    rw [fold_add ht.literal?] at hfold
    split at hfold
    · cases hfold
    · rename_i hk
      obtain ⟨rfl, rfl⟩ := Term.eq_var_of_addend? (ih htn) (Option.map_eq_none_iff.1 hfold)
      rw [Int64.zero_add, Term.shifted, if_neg hk]
  | onto ht =>
    obtain ⟨hfold, -⟩ := hn.pair
    rw [fold_add_swap ht.literal?] at hfold
    cases hfold
  | minus ht =>
    obtain ⟨hfold, -⟩ := hn.pair
    rw [fold_sub ht.literal?] at hfold
    cases hfold

end Offset

/-- `t` compares `x` with `d`, where an offset of `x` may still stand on the other side. -/
inductive Compared (x : Name) : Int64 → Term → Prop where
  | right {c k : Int64} {t : Term} : Offset x c t → Compared x (k - c) (.prim .eq [t, .int k])
  | left {c k : Int64} {t : Term} : Offset x c t → Compared x (k - c) (.prim .eq [.int k, t])

namespace Compared

theorem plain (h : Compared x d t) : t.Plain := by
  cases h with
  | right ht => exact Term.plain_pair.2 ⟨ht.plain, .lit⟩
  | left ht => exact Term.plain_pair.2 ⟨.lit, ht.plain⟩

theorem reduces (h : Compared x d t) (hr : rules.Reduces t u) : Compared x d u := by
  cases h with
  | @right c k t ht =>
    rcases hr.of_right with hfold | ⟨t', ht', rfl⟩
    · rw [fold_eq ht.literal?] at hfold
      obtain ⟨⟨s, j⟩, hs, rfl⟩ := Option.map_eq_some_iff.1 hfold
      obtain ⟨d, hd, rfl⟩ := ht.exists_of_addend? hs
      have hshift : k - (d + j) = k - j - d := by grind
      rw [hshift]
      exact .right hd
    · exact .right (ht.reduces ht')
  | left ht =>
    rcases hr.of_left with hfold | ⟨t', ht', rfl⟩
    · rw [fold_eq_swap ht.literal?] at hfold
      cases hfold
      exact .right ht
    · exact .left (ht.reduces ht')

theorem not_exposed (h : Compared x d t) : ∀ s ∈ t.subterms, ¬rules.Exposed s := by
  cases h with
  | right ht => exact Rules.not_exposed_pair ht.not_exposed Rules.not_exposed_lit
  | left ht => exact Rules.not_exposed_pair Rules.not_exposed_lit ht.not_exposed

theorem eq_of_irreducible (h : Compared x d t) (hn : rules.Irreducible t) :
    t = .prim .eq [.var x, .int d] := by
  cases h with
  | right ht =>
    obtain ⟨hfold, htn, -⟩ := hn.pair
    rw [fold_eq ht.literal?] at hfold
    obtain ⟨rfl, rfl⟩ := Term.eq_var_of_addend? (ht.eq_shifted htn) (Option.map_eq_none_iff.1 hfold)
    rw [Int64.sub_zero]
  | left ht =>
    obtain ⟨hfold, -⟩ := hn.pair
    rw [fold_eq_swap ht.literal?] at hfold
    cases hfold

end Compared

theorem ofInt_eq_ofInt_iff (m n : Int) : Int64.ofInt m = .ofInt n ↔ m ≡ n [ZMOD 2 ^ 64] := by
  rw [Int64.ofInt_eq_iff_bmod_eq_toInt, Int64.toInt_ofInt]
  change m.bmod (2 ^ 64) = n.bmod (2 ^ 64) ↔ m % ((2 ^ 64 : Nat) : Int) = n % ((2 ^ 64 : Nat) : Int)
  constructor
  · intro h
    rw [← Int.bmod_emod, h, Int.bmod_emod]
  · intro h
    rw [← Int.emod_bmod, h, Int.emod_bmod]

namespace Evaluator

theorem Settles.of_invariant {P : Term → Prop} (hplain : t.Plain) (ht : P t)
    (hreduces : ∀ s u, P s → rules.Reduces s u → P u)
    (hexposed : ∀ u, P u → ∀ s ∈ u.subterms, ¬rules.Exposed s)
    (hunique : ∀ v, P v → rules.Irreducible v → v = u) :
    Settles rules (·.normalize t) u := by
  have hterminates : rules.Terminates t := .of_plain hplain
  obtain ⟨v, hsettles⟩ := exists_settles hterminates
  obtain ⟨n, hn⟩ := hsettles.enough
  have hv : rules.Normalizes t v := normalizes_of_normalize (hn ⟨rules, n, n⟩ rfl (Nat.le_refl n))
  have hkeeps {w : Term} (hw : rules.Reaches t w) : P w := by
    induction hw with
    | refl => exact ht
    | tail _ hstep ih => exact hreduces _ _ ih hstep
  have hP : P v := hkeeps hv.reaches
  have hirreducible : rules.Irreducible v :=
    fun s hs w hw => hexposed v hP s hs (hv.exposed_of_contracts s hs w hw)
  rwa [← hunique v hP hirreducible]

theorem Settles.equal (ht : Settles rules (·.normalize t) u) (hs : Settles rules (·.normalize s) v)
    (halpha : t.alpha s = true → u.alpha v = true) : Settles rules (·.equal t s) (u.alpha v) := by
  obtain ⟨n, hn⟩ := ht.enough
  obtain ⟨m, hm⟩ := hs.enough
  obtain ⟨_, hu⟩ := fst_ask_eq_ok_iff.1 (hn ⟨rules, n, n⟩ rfl (Nat.le_refl n))
  obtain ⟨_, hv⟩ := fst_ask_eq_ok_iff.1 (hm ⟨rules, m, m⟩ rfl (Nat.le_refl m))
  obtain ⟨d, hd, -⟩ := Rules.normalize_eq_some_iff.1 hu
  obtain ⟨e, he, -⟩ := Rules.normalize_eq_some_iff.1 hv
  have hanswer : rules.equal (0 + (d + e)) t s =
      some (u.alpha v, if t.alpha s then d + e else 0) := by
    rw [Rules.equal_eq_some_iff_normalizesIn]
    cases h : t.alpha s with
    | true => exact .inl ⟨rfl, halpha h, by simp⟩
    | false => exact .inr ⟨rfl, u, v, d, e, hd, he, by simp, rfl⟩
  exact .ask Rules.metered_equal hanswer

theorem settles_offset (rules : Rules) (h : Offset x c t) :
    Settles rules (·.normalize t) (.shifted x c) :=
  .of_invariant h.plain h (fun _ _ => Offset.reduces) (fun _ => Offset.not_exposed) fun _ =>
    Offset.eq_shifted

theorem settles_compared (rules : Rules) (h : Compared x d t) :
    Settles rules (·.normalize t) (.prim .eq [.var x, .int d]) :=
  .of_invariant h.plain h (fun _ _ => Compared.reduces) (fun _ => Compared.not_exposed) fun _ =>
    Compared.eq_of_irreducible

/-- Linear terms have canonical forms. By any rules a linear term goes to its variable and its
whole offset, brought back to 64 bits, so that two of them are equal just if their offsets agree
modulo 2 to the 64th. In a comparison with a literal, on either side, the offset goes over to the
literal. -/
theorem linear_canonical (rules : Rules) (x : Name) (e f : Linear) (k : Int64) :
    Settles rules (·.normalize (e.term x)) (.shifted x (.ofInt e.offset)) ∧
      Settles rules (·.equal (e.term x) (f.term x)) (decide (e.offset ≡ f.offset [ZMOD 2 ^ 64])) ∧
      Settles rules (·.normalize (.prim .eq [e.term x, .int k]))
        (.prim .eq [.var x, .int (k - .ofInt e.offset)]) ∧
      Settles rules (·.normalize (.prim .eq [.int k, e.term x]))
        (.prim .eq [.var x, .int (k - .ofInt e.offset)]) := by
  have he : Offset x (.ofInt e.offset) (e.term x) := e.offset_term x
  have hf : Offset x (.ofInt f.offset) (f.term x) := f.offset_term x
  refine ⟨settles_offset rules he, ?_, settles_compared rules (.right he),
    settles_compared rules (.left he)⟩
  have hforms : (Term.shifted x (.ofInt e.offset)).alpha (.shifted x (.ofInt f.offset)) =
      decide (e.offset ≡ f.offset [ZMOD 2 ^ 64]) := by
    rw [Bool.eq_iff_iff, decide_eq_true_iff, ← ofInt_eq_ofInt_iff]
    exact ⟨(Offset.shifted ..).eq_of_alpha (.shifted ..), fun h => h ▸ Term.congruent_alpha.refl _⟩
  rw [← hforms]
  refine (settles_offset rules he).equal (settles_offset rules hf) fun halpha => ?_
  rw [he.eq_of_alpha hf halpha]
  exact Term.congruent_alpha.refl _

example :
    ((start .empty 20).normalize
      ((Linear.minus (.onto Int64.maxValue (.plus .self 1)) Int64.minValue).term "x")).1 =
    .ok (.var "x") := by cbv

end Evaluator

end ClosedTypes
