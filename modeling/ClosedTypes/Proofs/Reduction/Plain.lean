import ClosedTypes.Proofs.Reduction.Fold
import ClosedTypes.Proofs.Reduction.Termination
import ClosedTypes.Proofs.Reduction.Translation
import ClosedTypes.Term.Plain
/-!
Reduction of plain terms ends, well-sorted or not. Some folds move operands around instead of
removing them, so that the size of a term does not go down. Its weight does: what stands further to
the right counts double, a literal weighs least, and a difference more than the sum that it becomes.
-/

namespace ClosedTypes

def Literal.weight : Literal → Nat
  | .int _ => 1
  | .bool _ => 2

def Operator.weight : Operator → Nat
  | .sub => 4
  | _ => 3

theorem Operator.three_le_weight (op : Operator) : 3 ≤ op.weight := by cases op <;> decide

namespace Term

mutual

def weight : Term → Nat
  | lit l => l.weight
  | prim op args => op.weight + weights args
  | tuple elems => 3 + weights elems
  | proj t _ => 3 + weight t
  | _ => 3

def weights : List Term → Nat
  | [] => 0
  | t :: ts => weight t + 2 * weights ts

end

variable {t u a b : Term} {ts args : List Term} {op : Operator} {l : Literal}

theorem weight_int (n : Int64) : (int n).weight = 1 := by simp [int, weight, Literal.weight]

theorem weight_lit_le (l : Literal) :
    (lit l).weight ≤ 2 := by cases l <;> simp [weight, Literal.weight]

theorem weight_prim (op : Operator) (args : List Term) :
    (prim op args).weight = op.weight + weights args := by rw [weight]

theorem weight_pair (op : Operator) (a b : Term) :
    (prim op [a, b]).weight = op.weight + (a.weight + 2 * b.weight) := by
  simp [weight, weights]

theorem three_le_weight (h : t.literal? = none) : 3 ≤ t.weight := by
  cases t with
  | lit l => cases h
  | prim op args =>
    have := op.three_le_weight
    rw [weight_prim]
    omega
  | _ => simp [weight]

theorem two_le_weight (h : t.int? = none) : 2 ≤ t.weight := by
  cases hl : t.literal? with
  | none => exact Nat.le_of_succ_le (three_le_weight hl)
  | some l =>
    obtain rfl := literal?_eq_some_iff.1 hl
    cases l with
    | int n => cases h
    | bool c => simp [weight, Literal.weight]

theorem weight_le_of_mem (h : t ∈ ts) : t.weight ≤ weights ts := by
  induction ts with
  | nil => cases h
  | cons s ts ih =>
    rw [weights]
    rcases List.mem_cons.1 h with rfl | h
    · omega
    · have := ih h
      omega

theorem weight_lit_lt (l : Literal) : (lit l).weight < (prim op args).weight := by
  have := weight_lit_le l
  have := op.three_le_weight
  rw [weight_prim]
  omega

theorem weight_lt_of_mem (h : t ∈ args) : t.weight < (prim op args).weight := by
  have := weight_le_of_mem h
  have := op.three_le_weight
  rw [weight_prim]
  omega

theorem weight_foldAdd (h : foldAdd a b = some u) : u.weight < (prim .add [a, b]).weight := by
  unfold foldAdd at h
  split at h
  · cases h
    exact weight_lit_lt _
  · rename_i ha hb
    cases h
    obtain rfl := int?_eq_some_iff.1 ha
    have := two_le_weight hb
    simp only [weight_pair, weight_int]
    omega
  · rename_i hb
    obtain rfl := int?_eq_some_iff.1 hb
    split at h
    · cases h
      exact weight_lt_of_mem List.mem_cons_self
    · obtain ⟨⟨t, k⟩, ht, rfl⟩ := Option.map_eq_some_iff.1 h
      obtain rfl := eq_add_of_addend? ht
      simp only [weight_pair, weight_int, Operator.weight]
      omega
  · cases h

theorem weight_foldSub (h : foldSub a b = some u) : u.weight < (prim .sub [a, b]).weight := by
  unfold foldSub at h
  split at h
  · cases h
    exact weight_lit_lt _
  · rename_i hb
    cases h
    obtain rfl := int?_eq_some_iff.1 hb
    simp only [weight_pair, weight_int, Operator.weight]
    omega
  · split at h
    · cases h
      exact weight_lit_lt _
    · cases h

theorem weight_foldEq (h : foldEq a b = some u) : u.weight < (prim .eq [a, b]).weight := by
  unfold foldEq at h
  split at h
  · cases h
    exact weight_lit_lt _
  · rename_i hliterals
    split at h
    · cases h
      exact weight_lit_lt _
    · split at h
      · rename_i ha
        cases h
        obtain ⟨l, hl⟩ := Option.isSome_iff_exists.1 ha
        have hb : b.literal? = none := Option.eq_none_iff_forall_ne_some.2 fun k hk =>
          hliterals l k hl hk
        obtain rfl := literal?_eq_some_iff.1 hl
        have := three_le_weight hb
        have := weight_lit_le l
        simp only [weight_pair]
        omega
      · split at h
        · rename_i hadd hb
          cases h
          obtain rfl := eq_add_of_addend? hadd
          obtain rfl := int?_eq_some_iff.1 hb
          simp only [weight_pair, weight_int, Operator.weight]
          omega
        · cases h

theorem weight_fold (h : fold op args = some u) : u.weight < (prim op args).weight := by
  unfold fold at h
  split at h
  · exact weight_foldAdd h
  · exact weight_foldSub h
  · simp only [Option.bind_eq_bind, Option.bind_eq_some_iff, Option.pure_def, Option.some.injEq]
      at h
    obtain ⟨_, -, _, -, rfl⟩ := h
    exact weight_lit_lt _
  · simp only [Option.bind_eq_bind, Option.bind_eq_some_iff, Option.pure_def, Option.some.injEq]
      at h
    obtain ⟨_, -, _, -, rfl⟩ := h
    exact weight_lit_lt _
  · exact weight_foldEq h
  · unfold foldAnd at h
    split at h <;> cases h
    · exact weight_lit_lt _
    · exact weight_lit_lt _
    · exact weight_lt_of_mem (by simp)
    · exact weight_lt_of_mem (by simp)
  · unfold foldOr at h
    split at h <;> cases h
    · exact weight_lit_lt _
    · exact weight_lit_lt _
    · exact weight_lt_of_mem (by simp)
    · exact weight_lt_of_mem (by simp)
  · simp only [Option.bind_eq_bind, Option.bind_eq_some_iff, Option.pure_def, Option.some.injEq]
      at h
    obtain ⟨_, -, rfl⟩ := h
    exact weight_lit_lt _
  · cases h

theorem Plain.forall_of_prim (h : (Term.prim op args).Plain) : ∀ a ∈ args, a.Plain := by
  cases h with
  | prim hargs => exact hargs

theorem plain_pair : (prim op [a, b]).Plain ↔ a.Plain ∧ b.Plain :=
  ⟨fun h => ⟨h.forall_of_prim a (by simp), h.forall_of_prim b (by simp)⟩, fun ⟨ha, hb⟩ =>
    .prim (by simp [ha, hb])⟩

end Term

namespace Rules

open Term (Plain weight weights)

variable {rules : Rules} {t u : Term} {ts us : List Term}

theorem Contracts.plain (h : rules.Contracts t u) (ht : t.Plain) :
    u.Plain ∧ u.weight < t.weight := by
  cases h with
  | beta => cases ht
  | erasure => cases ht
  | equation _ => cases ht
  | constructor _ => cases ht
  | eliminator _ => cases ht
  | fold hfold =>
    exact ⟨fold_of_parts (fun _ => .lit) (fun _ _ _ => Term.plain_pair) ht.forall_of_prim hfold,
      Term.weight_fold hfold⟩
  | @branch c a b =>
    have hmem : (if c then a else b) ∈ [.bool c, a, b] := by cases c <;> simp
    exact ⟨ht.forall_of_prim _ hmem, Term.weight_lt_of_mem hmem⟩
  | @projection elems i u hi =>
    have hmem : u ∈ elems := List.mem_of_getElem? hi
    cases ht with
    | proj htuple =>
      cases htuple with
      | tuple helems =>
        have := Term.weight_le_of_mem hmem
        simp only [weight]
        exact ⟨helems u hmem, by omega⟩

mutual

theorem Reduces.plain : ∀ {t u : Term}, rules.Reduces t u → t.Plain → u.Plain ∧ u.weight < t.weight
  | _, _, .here h, ht => h.plain ht
  | _, _, .prim h, .prim hargs =>
    have ⟨hplain, hlt⟩ := h.plain hargs
    ⟨.prim hplain, by simpa only [weight, Nat.add_lt_add_iff_left] using hlt⟩
  | _, _, .tuple h, .tuple helems =>
    have ⟨hplain, hlt⟩ := h.plain helems
    ⟨.tuple hplain, by simpa only [weight, Nat.add_lt_add_iff_left] using hlt⟩
  | _, _, .proj h, .proj ht =>
    have ⟨hplain, hlt⟩ := h.plain ht
    ⟨.proj hplain, by simpa only [weight, Nat.add_lt_add_iff_left] using hlt⟩

theorem ReducesOne.plain : ∀ {ts us : List Term}, rules.ReducesOne ts us → (∀ t ∈ ts, t.Plain) →
    (∀ u ∈ us, u.Plain) ∧ weights us < weights ts
  | _, _, .head h, hts => by
    obtain ⟨ht, hts⟩ := List.forall_mem_cons.1 hts
    obtain ⟨hplain, hlt⟩ := h.plain ht
    refine ⟨List.forall_mem_cons.2 ⟨hplain, hts⟩, ?_⟩
    simp only [weights]
    omega
  | _, _, .tail h, hts => by
    obtain ⟨ht, hts⟩ := List.forall_mem_cons.1 hts
    obtain ⟨hplain, hlt⟩ := h.plain hts
    refine ⟨List.forall_mem_cons.2 ⟨ht, hplain⟩, ?_⟩
    simp only [weights]
    omega

end

theorem Terminates.of_plain (ht : t.Plain) : rules.Terminates t := by
  induction hw : t.weight using Nat.strong_induction_on generalizing t with
  | _ n ih =>
    refine .intro t fun u hu => ?_
    obtain ⟨hplain, hlt⟩ := hu.plain ht
    exact ih u.weight (hw ▸ hlt) hplain rfl

end Rules

/-- Folds do not feed each other forever. Whatever the operands are, well-sorted or not,
reduction of a plain term ends in every order, by any rules, and every budget that is large
enough leads to its normal form. -/
theorem normalize_plain {t : Term} (ht : t.Plain) :
    (∀ rules : Rules, rules.Terminates t ∧ ∃ u, Evaluator.Settles rules (·.normalize t) u) ∧
      ∀ ctx, ∃ n u, ∀ fuel, n ≤ fuel → normalize ctx t fuel = .ok u := by
  have hsettles (rules : Rules) : ∃ u, Evaluator.Settles rules (·.normalize t) u :=
    Evaluator.exists_settles (.of_plain ht)
  refine ⟨fun rules => ⟨.of_plain ht, hsettles rules⟩, fun ctx => ?_⟩
  obtain ⟨u, ⟨n, hn⟩, -⟩ := hsettles (.ofContext ctx)
  exact ⟨n, u, fun fuel hfuel => hn (.start ctx fuel) rfl hfuel⟩

def illSorted : Term :=
  .proj (.tuple [.prim .add [.int 1, .bool true],
    .prim .eq
      [.bool true, .prim .sub [.prim .add [.int 1, .prim .add [.int 2, .var "x"]], .int 3]]]) 1

theorem normalize_illSorted : illSorted.Plain ∧
    ∃ n, ∀ fuel, n ≤ fuel → normalize .empty illSorted fuel =
      .ok (.prim .eq [.var "x", .bool true]) := by
  have hplain : illSorted.Plain := by
    simp only [illSorted, Term.int, Term.bool]
    exact .proj (.tuple (by simp [Term.plain_pair, Term.Plain.lit, Term.Plain.var]))
  obtain ⟨hrules, -⟩ := normalize_plain hplain
  obtain ⟨-, u, ⟨n, hn⟩, honly⟩ := hrules (.ofContext .empty)
  have hanswer : normalize .empty illSorted 20 = .ok (.prim .eq [.var "x", .bool true]) := by cbv
  have hu := honly (.start .empty 20) _ rfl hanswer
  exact ⟨hplain, n, fun fuel hfuel => hu ▸ hn (.start .empty fuel) rfl hfuel⟩

end ClosedTypes
