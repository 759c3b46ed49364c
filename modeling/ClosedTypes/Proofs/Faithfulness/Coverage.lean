import ClosedTypes.Proofs.Faithfulness
import ClosedTypes.Proofs.Success
import Mathlib.Algebra.BigOperators.Group.List.Basic
import Mathlib.Data.List.Iterate
import Mathlib.Data.List.Nodup
import Mathlib.Data.Nat.ModEq
import Mathlib.Tactic.Ring
/-!
What the samples cover. The wheels count the combinations one by one, so that the cases that are
tried are different ones, and as many as there are or as are allowed.
-/

namespace ClosedTypes.Faithfulness

variable {w : Wheel} {wheels others : List Wheel} {x : Name} {pool : List Literal} {k n limit : Nat}

def Wheel.face (w : Wheel) : Name × List Literal := (w.name, w.pool)

def volume (wheels : List Wheel) : Nat := (wheels.map fun w => w.pool.length).prod

/-- The place of a combination in the count: the digits in mixed radix, the first one the lowest. -/
def rank : List Wheel → Nat
  | [] => 0
  | w :: ws => w.digit + w.pool.length * rank ws

theorem volume_cons (w : Wheel) (ws : List Wheel) :
    volume (w :: ws) = w.pool.length * volume ws := by
  simp [volume]

theorem volume_eq_of_faces (h : wheels.map Wheel.face = others.map Wheel.face) :
    volume wheels = volume others := by
  have hlengths : (wheels.map Wheel.face).map (·.2.length) = (others.map Wheel.face).map
      (·.2.length) := by rw [h]
  rw [List.map_map, List.map_map] at hlengths
  exact congrArg List.prod hlengths

theorem volume_pos (wheels : List Wheel) : 0 < volume wheels := by
  induction wheels with
  | nil => simp [volume]
  | cons w ws ih =>
    rw [volume_cons]
    exact Nat.mul_pos w.digit.pos ih

theorem rank_lt_volume (wheels : List Wheel) : rank wheels < volume wheels := by
  induction wheels with
  | nil => simp [rank, volume]
  | cons w ws ih =>
    rw [rank, volume_cons]
    calc w.digit + w.pool.length * rank ws
        < w.pool.length + w.pool.length * rank ws := Nat.add_lt_add_right w.digit.isLt _
      _ = w.pool.length * (rank ws + 1) := by ring
      _ ≤ w.pool.length * volume ws := Nat.mul_le_mul_left _ ih

theorem face_of_next? {w' : Wheel} (h : w.next? = some w') :
    w'.face = w.face ∧ w'.digit.val = w.digit + 1 := by
  unfold Wheel.next? at h
  split at h
  · cases h
    exact ⟨rfl, rfl⟩
  · cases h

theorem digit_of_next?_eq_none (h : w.next? = none) : w.digit + 1 = w.pool.length := by
  unfold Wheel.next? at h
  split at h
  · cases h
  · have := w.digit.isLt
    omega

theorem map_face_advance (wheels : List Wheel) :
    (advance wheels).map Wheel.face = wheels.map Wheel.face := by
  induction wheels with
  | nil => rfl
  | cons w ws ih =>
    rw [advance]
    cases hnext : w.next? with
    | some w' => rw [List.map_cons, List.map_cons, (face_of_next? hnext).1]
    | none => exact congrArg (w.face :: ·) ih

theorem rank_advance (wheels : List Wheel) :
    rank (advance wheels) = (rank wheels + 1) % volume wheels := by
  induction wheels with
  | nil => simp [advance, rank, volume]
  | cons w ws ih =>
    rw [advance]
    cases hnext : w.next? with
    | some w' =>
      obtain ⟨hface, hdigit⟩ := face_of_next? hnext
      have hpool : w'.pool = w.pool := congrArg Prod.snd hface
      have hplace : rank (w' :: ws) = rank (w :: ws) + 1 := by
        rw [rank, rank, hdigit, hpool]
        ring
      have hlt : rank (w' :: ws) < volume (w :: ws) := by
        have hvolume : volume (w :: ws) = volume (w' :: ws) := by
          rw [volume_cons, volume_cons, hpool]
        rw [hvolume]
        exact rank_lt_volume _
      rw [← hplace, Nat.mod_eq_of_lt hlt]
    -- the wheel comes round, and the others count one further
    | none =>
      have hlast := digit_of_next?_eq_none hnext
      have hround : rank (w :: ws) + 1 = w.pool.length * (rank ws + 1) := by
        rw [rank]
        calc w.digit + w.pool.length * rank ws + 1
            = (w.digit + 1) + w.pool.length * rank ws := by ring
          _ = w.pool.length * (rank ws + 1) := by rw [hlast]; ring
      have hstart : rank (w.rewind :: advance ws) = w.pool.length * rank (advance ws) :=
        Nat.zero_add _
      rw [hround, hstart, volume_cons, ih, Nat.mul_mod_mul_left]

theorem map_face_iterate (k : Nat) (wheels : List Wheel) :
    (advance^[k] wheels).map Wheel.face = wheels.map Wheel.face := by
  induction k with
  | zero => rfl
  | succ k ih => rw [Function.iterate_succ_apply', map_face_advance, ih]

theorem rank_iterate (hstart : rank wheels = 0) (hk : k < volume wheels) :
    rank (advance^[k] wheels) = k := by
  induction k with
  | zero => exact hstart
  | succ k ih =>
    have hvolume : volume (advance^[k] wheels) = volume wheels :=
      volume_eq_of_faces (map_face_iterate k wheels)
    rw [Function.iterate_succ_apply', rank_advance, ih (by omega), hvolume, Nat.mod_eq_of_lt hk]

theorem eq_of_rank_eq (hfaces : wheels.map Wheel.face = others.map Wheel.face)
    (h : rank wheels = rank others) : wheels = others := by
  induction wheels generalizing others with
  | nil => exact (List.map_eq_nil_iff.1 hfaces.symm).symm
  | cons w ws ih =>
    obtain ⟨w', ws', rfl⟩ := List.exists_cons_of_ne_nil (l := others) (by rintro rfl; cases hfaces)
    rw [List.map_cons, List.map_cons] at hfaces
    obtain ⟨hface, hrests⟩ := List.cons.inj hfaces
    obtain ⟨name, pool, digit⟩ := w
    obtain ⟨name', pool', digit'⟩ := w'
    obtain ⟨rfl, rfl⟩ := Prod.mk.inj hface
    simp only [rank] at h
    have hdigit : digit.val = digit'.val := by
      have hmod := congrArg (· % pool.length) h
      simpa only [Nat.add_mul_mod_self_left, Nat.mod_eq_of_lt digit.isLt,
        Nat.mod_eq_of_lt digit'.isLt] using hmod
    have hrest : rank ws = rank ws' := by
      rw [hdigit] at h
      exact Nat.eq_of_mul_eq_mul_left digit.pos (Nat.add_left_cancel h)
    rw [Fin.ext hdigit, ih hrests hrest]

theorem foldlM_volume (wheels : List Wheel) (hn : 0 < n) (hlt : n < UInt64.size) : wheels.foldlM
      (fun n w => if n * w.pool.length < UInt64.size then some (n * w.pool.length) else none) n =
    if n * volume wheels < UInt64.size then some (n * volume wheels) else none := by
  induction wheels generalizing n with
  | nil => simp [volume, hlt]
  | cons w ws ih =>
    rw [List.foldlM_cons, volume_cons, ← Nat.mul_assoc]
    by_cases hfits : n * w.pool.length < UInt64.size
    · rw [if_pos hfits]
      exact ih (Nat.mul_pos hn w.digit.pos) hfits
    -- the other pools are not empty, so that the whole number does not fit either
    · have hall : ¬n * w.pool.length * volume ws < UInt64.size := by
        have := Nat.le_mul_of_pos_right (n * w.pool.length) (volume_pos ws)
        omega
      rw [if_neg hfits, if_neg hall]
      rfl

theorem caseCount_eq (hlimit : limit < UInt64.size) (wheels : List Wheel) :
    caseCount limit wheels = min limit (volume wheels) := by
  have hcount : combinations? wheels = if volume wheels < UInt64.size then
      some (volume wheels) else none := by
    have h := foldlM_volume wheels Nat.one_pos (by decide : 1 < UInt64.size)
    rwa [Nat.one_mul] at h
  rw [caseCount, hcount]
  split
  · exact Nat.min_comm _ _
  · rw [Option.getD_none]
    omega

def Assigns (pools : List (Name × List Literal)) (bindings : List (Name × Term)) : Prop :=
  List.Forall₂ (fun p b => b.1 = p.1 ∧ ∃ l ∈ p.2, b.2 = .lit l) pools bindings

theorem assigns_bindings (wheels : List Wheel) :
    Assigns (wheels.map Wheel.face) (wheels.map Wheel.binding) := by
  unfold Assigns
  rw [List.forall₂_map_left_iff, List.forall₂_map_right_iff, List.forall₂_same]
  exact fun w _ => ⟨rfl, w.pool.get w.digit, List.get_mem _ _, rfl⟩

theorem exists_wheels_of_assigns {pools : List (Name × List Literal)}
    {bindings : List (Name × Term)} (h : Assigns pools bindings) :
    ∃ wheels : List Wheel, wheels.map Wheel.face = pools ∧ wheels.map Wheel.binding = bindings := by
  induction h with
  | nil => exact ⟨[], rfl, rfl⟩
  | @cons p b pools bindings hb _ ih =>
    obtain ⟨wheels, hfaces, hbindings⟩ := ih
    obtain ⟨hname, l, hl, hvalue⟩ := hb
    obtain ⟨i, hi⟩ := List.get_of_mem hl
    refine ⟨⟨p.1, p.2, i⟩ :: wheels, ?_, ?_⟩
    · rw [List.map_cons, hfaces]
      rfl
    · rw [List.map_cons, hbindings, Wheel.binding, hi, ← hname, ← hvalue]

theorem literal_of_assigns {pools : List (Name × List Literal)} {bindings : List (Name × Term)}
    (h : Assigns pools bindings) :
    ∀ b ∈ bindings, ∃ l, b.2 = .lit l := by
  obtain ⟨wheels, -, rfl⟩ := exists_wheels_of_assigns h
  exact fun _ => literal_of_mem_bindings

theorem first?_eq_some_iff :
    Wheel.first? x pool = some w ↔ w.face = (x, pool) ∧ w.digit.val = 0 := by
  obtain ⟨name, pool', digit⟩ := w
  unfold Wheel.first? Wheel.face
  constructor
  · intro h
    split at h <;> cases h
    exact ⟨rfl, rfl⟩
  · rintro ⟨hface, hdigit⟩
    cases hface
    rw [dif_pos digit.pos, Fin.ext (a := digit) (b := ⟨0, digit.pos⟩) hdigit]

theorem start_of_mapM {pools : List (Name × List Literal)}
    (h : pools.mapM (fun (x, pool) => Wheel.first? x pool) = some wheels) :
    wheels.map Wheel.face = pools ∧ rank wheels = 0 := by
  induction pools generalizing wheels with
  | nil =>
    cases h
    exact ⟨rfl, rfl⟩
  | cons p pools ih =>
    simp only [List.mapM_cons, Option.bind_eq_bind, Option.bind_eq_some_iff, Option.pure_def,
      Option.some.injEq] at h
    obtain ⟨w, hw, ws, hws, rfl⟩ := h
    obtain ⟨hface, hdigit⟩ := first?_eq_some_iff.1 hw
    obtain ⟨hfaces, hrank⟩ := ih hws
    refine ⟨?_, ?_⟩
    · rw [List.map_cons, hface, hfaces]
    · rw [rank, hdigit, hrank, Nat.mul_zero]

theorem exists_start {pools : List (Name × List Literal)} (h : ∀ p ∈ pools, p.2 ≠ []) :
    ∃ wheels, pools.mapM (fun (x, pool) => Wheel.first? x pool) = some wheels := by
  induction pools with
  | nil => exact ⟨[], rfl⟩
  | cons p pools ih =>
    obtain ⟨hp, hpools⟩ := List.forall_mem_cons.1 h
    obtain ⟨wheels, hwheels⟩ := ih hpools
    have hfirst : Wheel.first? p.1 p.2 = some ⟨p.1, p.2, ⟨0, List.length_pos_iff.2 hp⟩⟩ :=
      first?_eq_some_iff.2 ⟨rfl, rfl⟩
    refine ⟨⟨p.1, p.2, ⟨0, List.length_pos_iff.2 hp⟩⟩ :: wheels, ?_⟩
    rw [List.mapM_cons, hwheels]
    exact congrArg (· >>= fun w => pure (w :: wheels)) hfirst

def digits (wheels : List Wheel) : List Nat := wheels.map fun w => w.digit.val

def combinations (wheels : List Wheel) (n : Nat) : List (List Wheel) :=
  List.iterate advance wheels n

theorem map_face_of_mem_combinations {ws : List Wheel} (h : ws ∈ combinations wheels n) :
    ws.map Wheel.face = wheels.map Wheel.face := by
  obtain ⟨k, -, rfl⟩ := List.mem_iterate.1 h
  exact map_face_iterate k wheels

theorem map_rank_combinations (hstart : rank wheels = 0) (hn : n ≤ volume wheels) :
    (combinations wheels n).map rank = List.range n := by
  rw [combinations, ← List.range_map_iterate, List.map_map]
  refine (List.map_congr_left fun k hk => ?_).trans (List.map_id _)
  exact rank_iterate hstart ((List.mem_range.1 hk).trans_le hn)

theorem nodup_combinations (hstart : rank wheels = 0) (hn : n ≤ volume wheels) :
    ((combinations wheels n).map digits).Nodup := by
  have hrank {ws others : List Wheel} (hfaces : ws.map Wheel.face = others.map Wheel.face)
      (h : digits ws = digits others) : rank ws = rank others := by
    induction ws generalizing others with
    | nil => rw [List.map_eq_nil_iff.1 hfaces.symm]
    | cons w ws ih =>
      obtain ⟨w', others, rfl⟩ :=
        List.exists_cons_of_ne_nil (l := others) (by rintro rfl; cases hfaces)
      obtain ⟨hface, hfaces⟩ := List.cons.inj hfaces
      obtain ⟨hdigit, h⟩ := List.cons.inj h
      have hpool : w.pool = w'.pool := congrArg Prod.snd hface
      have hdigit : w.digit.val = w'.digit.val := hdigit
      rw [rank, rank, ih hfaces h, hdigit, hpool]
  have hnodup : (combinations wheels n).Nodup := by
    refine .of_map rank ?_
    rw [map_rank_combinations hstart hn]
    exact List.nodup_range
  refine hnodup.map_on fun ws hws others hothers h => ?_
  have hfaces :=
    (map_face_of_mem_combinations hws).trans (map_face_of_mem_combinations hothers).symm
  exact eq_of_rank_eq hfaces (hrank hfaces h)

theorem mem_combinations {ws : List Wheel} (hstart : rank wheels = 0)
    (hfaces : ws.map Wheel.face = wheels.map Wheel.face) :
    ws ∈ combinations wheels (volume wheels) := by
  have hlt : rank ws < volume wheels := by
    rw [← volume_eq_of_faces hfaces]
    exact rank_lt_volume ws
  refine List.mem_iterate.2 ⟨rank ws, hlt, eq_of_rank_eq ?_ (rank_iterate hstart hlt).symm⟩
  rw [map_face_iterate, hfaces]

namespace Goal

variable {goal : Goal} {r : Evaluator} {samples : List Literal} {bindings : List (Name × Term)}
  {verdict : Verdict}

def HoldsAt (goal : Goal) (r : Evaluator) (bindings : List (Name × Term)) : Prop :=
  ∃ u v, goal.sides r bindings = .ok (u, v) ∧ u.alpha v = true

theorem tryCase_eq_ok_iff :
    goal.tryCase r wheels = .ok () ↔ goal.HoldsAt r (wheels.map Wheel.binding) := by
  unfold tryCase HoldsAt
  rw [bind_eq_ok_iff, Prod.exists]
  refine exists_congr fun u => exists_congr fun v => and_congr_right fun _ => ?_
  by_cases halpha : u.alpha v = true <;> simp [halpha]

theorem tryCases_eq_forM :
    goal.tryCases r wheels n = (combinations wheels n).forM (goal.tryCase r) := by
  induction n generalizing wheels with
  | zero => rfl
  | succ n ih =>
    unfold tryCases
    rw [ih]
    rfl

theorem onSamples_eq_forM
    (h : (goal.pools samples).mapM (fun (x, pool) => Wheel.first? x pool) = some wheels)
    (hpos : 0 < limit) (hlimit : limit < UInt64.size) : goal.onSamples r limit samples = do
      (combinations wheels (min limit (volume wheels))).forM (goal.tryCase r)
      return .holdsOnSamples (min limit (volume wheels)) := by
  have hcases : min limit (volume wheels) ≠ 0 := by
    have := volume_pos wheels
    omega
  unfold onSamples
  simp only [h, caseCount_eq hlimit, if_neg hcases, tryCases_eq_forM]

/-- The cases that are tried are the first ones of the count, all different, and as many as there
are combinations or as are allowed; when they are all of them, the equation holds wherever the
samples can put its variables. -/
theorem onSamples_covers (r : Evaluator) (hpools : ∀ p ∈ goal.pools samples, p.2 ≠ [])
    (hpos : 0 < limit) (hlimit : limit < UInt64.size) : ∃ cases : List (List Wheel),
      cases.length = min limit ((goal.pools samples).map (·.2.length)).prod ∧
      (∀ wheels ∈ cases, wheels.map Wheel.face = goal.pools samples ∧
        Assigns (goal.pools samples) (wheels.map Wheel.binding)) ∧
      cases.map rank = List.range cases.length ∧
      (cases.map digits).Nodup ∧
      goal.onSamples r limit samples = (do
        cases.forM (goal.tryCase r)
        return .holdsOnSamples cases.length) ∧
      (∀ verdict, goal.onSamples r limit samples = .ok verdict →
        verdict = .holdsOnSamples cases.length ∧
        ∀ wheels ∈ cases, goal.HoldsAt r (wheels.map Wheel.binding)) ∧
      (goal.onSamples r limit samples =
        .ok (.holdsOnSamples ((goal.pools samples).map (·.2.length)).prod) →
        ∀ bindings, Assigns (goal.pools samples) bindings → goal.HoldsAt r bindings) := by
  obtain ⟨wheels, hwheels⟩ := exists_start hpools
  obtain ⟨hfaces, hstart⟩ := start_of_mapM hwheels
  have hvolume : ((goal.pools samples).map (·.2.length)).prod = volume wheels := by
    rw [← hfaces, List.map_map]
    rfl
  have hrun := onSamples_eq_forM (r := r) hwheels hpos hlimit
  have hlength : (combinations wheels (min limit (volume wheels))).length =
      min limit (volume wheels) := List.length_iterate _ _ _
  have hcount : min limit (volume wheels) ≤ volume wheels := Nat.min_le_right _ _
  have hall {verdict : Verdict} (h : goal.onSamples r limit samples = .ok verdict) :
      verdict = .holdsOnSamples (min limit (volume wheels)) ∧
        ∀ ws ∈ combinations wheels (min limit (volume wheels)), goal.HoldsAt r
            (ws.map Wheel.binding) := by
    rw [hrun] at h
    obtain ⟨_, htried, h⟩ := bind_eq_ok_iff.1 h
    exact ⟨(pure_eq_ok_iff.1 h).symm, fun ws hws =>
      tryCase_eq_ok_iff.1 (forM_eq_ok_iff.1 htried ws hws)⟩
  refine ⟨combinations wheels (min limit (volume wheels)), hlength.trans (hvolume ▸ rfl),
    fun ws hws => ?_, ?_, nodup_combinations hstart hcount, hlength.symm ▸ hrun, fun verdict h =>
      hlength.symm ▸ hall h, fun h bindings hb => ?_⟩
  · have hface := (map_face_of_mem_combinations hws).trans hfaces
    exact ⟨hface, hface ▸ assigns_bindings ws⟩
  · rw [map_rank_combinations hstart hcount, hlength]
  · obtain ⟨hcases, hholds⟩ := hall h
    obtain ⟨ws, hfaces', rfl⟩ := exists_wheels_of_assigns hb
    rw [hvolume] at hcases
    rw [← Verdict.holdsOnSamples.inj hcases] at hholds
    exact hholds ws (mem_combinations hstart (hfaces'.trans hfaces.symm))

def swappedSum : Goal where
  typeName := "T"
  eliminator := "Plus"
  constructor := "Mk"
  lhs := .prim .add [.var "a", .var "b"]
  rhs := .prim .add [.var "b", .var "a"]
  sampled := [("a", .int), ("b", .int)]

theorem swappedSum_covered : (∀ p ∈ swappedSum.pools [.int 3, .bool true, .int 4], p.2 ≠ []) ∧
    swappedSum.onSamples (.start .empty 10) 4 [.int 3, .bool true, .int 4] =
      .ok (.holdsOnSamples 4) ∧
    ∀ bindings, Assigns (swappedSum.pools [.int 3, .bool true, .int 4]) bindings →
      swappedSum.HoldsAt (.start .empty 10) bindings := by
  have hpools : ∀ p ∈ swappedSum.pools [.int 3, .bool true, .int 4], p.2 ≠ [] := by decide
  have hok : swappedSum.onSamples (.start .empty 10) 4 [.int 3, .bool true, .int 4] =
      .ok (.holdsOnSamples 4) := by cbv
  have hlimit : 4 < UInt64.size := by decide
  obtain ⟨cases, -, -, -, -, -, -, hall⟩ :=
    onSamples_covers (.start .empty 10) hpools (by decide) hlimit
  exact ⟨hpools, hok, hall hok⟩

end Goal

end ClosedTypes.Faithfulness
