import ClosedTypes.Proofs.Reduction.NormalForm
import ClosedTypes.Proofs.Reduction.Translation
/-!
Terms that reduce to each other have one normal form between them, up to bound names, if reduction
of both ends in every order. Evaluation finds it, unless it leaves a redex behind.
-/

namespace ClosedTypes

namespace Rules

variable {known : Use → Prop} {rules : Rules} {t u v s : Term}

mutual

theorem Reduces.exists_contracts :
    ∀ {t u : Term}, rules.Reduces t u → ∃ s ∈ t.subterms, ∃ v, rules.Contracts s v
  | t, _, .here h => ⟨t, t.mem_subterms_self, _, h⟩
  | _, _, .fn h =>
    h.exists_contracts.imp fun _ => .imp_left fun hs =>
      List.mem_cons_of_mem _ (List.mem_append_left _ hs)
  | _, _, .arg h =>
    h.exists_contracts.imp fun _ => .imp_left fun hs =>
      List.mem_cons_of_mem _ (List.mem_append_right _ hs)
  | _, _, .body h => h.exists_contracts.imp fun _ => .imp_left (List.mem_cons_of_mem _)
  | _, _, .ascribed h => h.exists_contracts.imp fun _ => .imp_left (List.mem_cons_of_mem _)
  | _, _, .fields h => h.exists_contracts.imp fun _ => .imp_left (List.mem_cons_of_mem _)
  | _, _, .scrutinee h =>
    h.exists_contracts.imp fun _ => .imp_left fun hs =>
      List.mem_cons_of_mem _ (List.mem_append_left _ hs)
  | _, _, .operands h =>
    h.exists_contracts.imp fun _ => .imp_left fun hs =>
      List.mem_cons_of_mem _ (List.mem_append_right _ hs)
  | _, _, .prim h => h.exists_contracts.imp fun _ => .imp_left (List.mem_cons_of_mem _)
  | _, _, .tuple h => h.exists_contracts.imp fun _ => .imp_left (List.mem_cons_of_mem _)
  | _, _, .proj h => h.exists_contracts.imp fun _ => .imp_left (List.mem_cons_of_mem _)

theorem ReducesOne.exists_contracts : ∀ {ts us : List Term}, rules.ReducesOne ts us →
    ∃ s ∈ Term.subtermsAll ts, ∃ v, rules.Contracts s v
  | _, _, .head h => h.exists_contracts.imp fun _ => .imp_left (List.mem_append_left _)
  | _, _, .tail h => h.exists_contracts.imp fun _ => .imp_left (List.mem_append_right _)

end

section

variable (hrules : rules.Fitting known)

include hrules

theorem Reaches.skeleton (h : rules.Reaches t u) (ht : t.Over known) (xs : List Name) :
    Skeleton.Reaches rules (t.skeleton xs) (u.skeleton xs) := by
  induction h with
  | refl => exact .refl
  | tail h hstep ih => exact ih.tail (hstep.skeleton hrules (hrules.covered.reaches ht h) xs)

theorem Terminates.skeleton (h : rules.Terminates t) (ht : t.Over known) (xs : List Name) :
    Acc (fun u t => Skeleton.Reduces rules t u) (t.skeleton xs) := by
  induction h with
  | intro t _ ih =>
    refine .intro _ fun w hw => ?_
    obtain ⟨u, hu, rfl⟩ := exists_reduces hrules hw ht
    exact ih u hu (hrules.covered.reduces ht hu)

theorem Irreducible.not_reduces_skeleton (h : rules.Irreducible t) (ht : t.Over known)
    (xs : List Name) (w : Skeleton) :
    ¬Skeleton.Reduces rules (t.skeleton xs) w := fun hw => by
  obtain ⟨u, hu, -⟩ := exists_reduces hrules hw ht
  obtain ⟨s, hs, v, hv⟩ := hu.exists_contracts
  exact h s hs v hv

theorem alpha_of_joins (htend : rules.Terminates t) (hsend : rules.Terminates s) (ht : t.Over known)
    (hs : s.Over known)
    (hjoin : Skeleton.Joins rules (t.skeleton []) (s.skeleton [])) (hu : rules.Reaches t u)
    (hv : rules.Reaches s v)
    (hunormal : rules.Irreducible u) (hvnormal : rules.Irreducible v) : u.alpha v = true := by
  obtain ⟨w, htw, hsw⟩ := hjoin
  have hu' := hu.skeleton hrules ht []
  have hunormal' := hunormal.not_reduces_skeleton hrules (hrules.covered.reaches ht hu) []
  have hvnormal' := hvnormal.not_reduces_skeleton hrules (hrules.covered.reaches hs hv) []
  have hwv := Skeleton.Reaches.of_normal hrules.closed (hsend.skeleton hrules hs [])
    (hv.skeleton hrules hs []) hsw hvnormal'
  have hvu := Skeleton.Reaches.of_normal hrules.closed (htend.skeleton hrules ht []) hu'
    (htw.trans hwv) hunormal'
  rcases hvu.cases_head with heq | ⟨w', hw', -⟩
  · exact Term.skeleton_inj.1 heq.symm
  · exact absurd hw' (hvnormal' w')

end

end Rules

end ClosedTypes
