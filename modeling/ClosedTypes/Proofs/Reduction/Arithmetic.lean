import ClosedTypes.Proofs.Reduction.NormalForm
import ClosedTypes.Proofs.Reduction.Translation
import ClosedTypes.Term.Value
/-!
Evaluation keeps the values of primitive terms. Every rule for folds is a law of arithmetic modulo 2
to the 64th; without variables no operation is left over.
-/

namespace ClosedTypes

variable {ρ : Name → Option Literal} {Γ : Name → Prim} {op : Operator} {p : Prim} {k l m : Literal}
  {ls : List Literal}

theorem Literal.exists_int (h : l.prim = .int) : ∃ n, l = .int n := by
  cases l with
  | int n => exact ⟨n, rfl⟩
  | bool b => cases h

theorem Literal.exists_bool (h : l.prim = .bool) : ∃ b, l = .bool b := by
  cases l with
  | int n => cases h
  | bool b => exact ⟨b, rfl⟩

namespace Operator

inductive Computes : Operator → List Literal → Literal → Prop where
  | add {x y : Int64} : Computes add [.int x, .int y] (.int (x + y))
  | sub {x y : Int64} : Computes sub [.int x, .int y] (.int (x - y))
  | mul {x y : Int64} : Computes mul [.int x, .int y] (.int (x * y))
  | lt {x y : Int64} : Computes lt [.int x, .int y] (.bool (x < y))
  | eq {k l : Literal} : Computes eq [k, l] (.bool (k = l))
  | and {b c : Bool} : Computes and [.bool b, .bool c] (.bool (b && c))
  | or {b c : Bool} : Computes or [.bool b, .bool c] (.bool (b || c))
  | not {b : Bool} : Computes not [.bool b] (.bool !b)
  | ite {c : Bool} {k l : Literal} : Computes ite [.bool c, k, l] (if c then k else l)

theorem value?_of_computes (h : Computes op ls m) : op.value? ls = some m := by
  cases h with
  | @add x y =>
    show some (Literal.int (.ofInt (x.toInt + y.toInt))) = _
    rw [Int64.ofInt_add, Int64.ofInt_toInt, Int64.ofInt_toInt]
  | @sub x y =>
    show some (Literal.int (.ofInt (x.toInt - y.toInt))) = _
    rw [Int64.ofInt_sub, Int64.ofInt_toInt, Int64.ofInt_toInt]
  | @mul x y =>
    show some (Literal.int (.ofInt (x.toInt * y.toInt))) = _
    rw [Int64.ofInt_mul, Int64.ofInt_toInt, Int64.ofInt_toInt]
  | @lt x y =>
    show some (Literal.bool (x.toInt < y.toInt)) = _
    simp only [Int64.lt_iff_toInt_lt]
  | _ => rfl

theorem exists_computes (h : op.value? ls = some m) : ∃ m', Computes op ls m' := by
  unfold value? at h
  split at h
  · exact ⟨_, .add⟩
  · exact ⟨_, .sub⟩
  · exact ⟨_, .mul⟩
  · exact ⟨_, .lt⟩
  · exact ⟨_, .eq⟩
  · exact ⟨_, .and⟩
  · exact ⟨_, .or⟩
  · exact ⟨_, .not⟩
  · exact ⟨_, .ite⟩
  · cases h

theorem value?_eq_some_iff : op.value? ls = some m ↔ Computes op ls m := by
  constructor
  · intro h
    obtain ⟨m', hm'⟩ := exists_computes h
    rw [value?_of_computes hm'] at h
    cases h
    exact hm'
  · exact value?_of_computes

theorem fold_lits (hop : op ≠ ite) (h : Computes op ls m) :
    fold op (ls.map Term.lit) = some (.lit m) := by
  cases h with
  | @and b c => cases b <;> cases c <;> rfl
  | @or b c => cases b <;> cases c <;> rfl
  | ite => exact absurd rfl hop
  | _ => rfl

theorem exists_pair_of_prims {q : Prim} (h : ls.map Literal.prim = [p, q]) :
    ∃ k l, ls = [k, l] ∧ k.prim = p ∧ l.prim = q := by
  obtain ⟨k, rest, rfl, hk, hrest⟩ := List.map_eq_cons_iff.1 h
  obtain ⟨l, rest, rfl, hl, hrest⟩ := List.map_eq_cons_iff.1 hrest
  rw [List.map_eq_nil_iff.1 hrest]
  exact ⟨k, l, rfl, hk, hl⟩

theorem exists_ints (h : ls.map Literal.prim = [.int, .int]) : ∃ x y, ls = [.int x, .int y] := by
  obtain ⟨k, l, rfl, hk, hl⟩ := exists_pair_of_prims h
  obtain ⟨x, rfl⟩ := Literal.exists_int hk
  obtain ⟨y, rfl⟩ := Literal.exists_int hl
  exact ⟨x, y, rfl⟩

theorem exists_bools (h : ls.map Literal.prim = [.bool, .bool]) :
    ∃ b c, ls = [.bool b, .bool c] := by
  obtain ⟨k, l, rfl, hk, hl⟩ := exists_pair_of_prims h
  obtain ⟨b, rfl⟩ := Literal.exists_bool hk
  obtain ⟨c, rfl⟩ := Literal.exists_bool hl
  exact ⟨b, c, rfl⟩

theorem exists_value? (h : op.sort? (ls.map Literal.prim) = some p) :
    ∃ l, op.value? ls = some l ∧ l.prim = p := by
  generalize hprims : ls.map Literal.prim = prims at h
  unfold sort? at h
  split at h
  case h_1 | h_2 | h_3 | h_4 =>
    obtain ⟨x, y, rfl⟩ := exists_ints hprims
    cases h
    exact ⟨_, rfl, rfl⟩
  case h_5 =>
    obtain ⟨k, l, rfl, -, -⟩ := exists_pair_of_prims hprims
    split at h <;> cases h
    exact ⟨_, rfl, rfl⟩
  case h_6 | h_7 =>
    obtain ⟨b, c, rfl⟩ := exists_bools hprims
    cases h
    exact ⟨_, rfl, rfl⟩
  case h_8 =>
    obtain ⟨l, rest, rfl, hl, hrest⟩ := List.map_eq_cons_iff.1 hprims
    obtain ⟨b, rfl⟩ := Literal.exists_bool hl
    rw [List.map_eq_nil_iff.1 hrest]
    cases h
    exact ⟨_, rfl, rfl⟩
  case h_9 =>
    obtain ⟨c, rest, rfl, hc, hrest⟩ := List.map_eq_cons_iff.1 hprims
    obtain ⟨c, rfl⟩ := Literal.exists_bool hc
    obtain ⟨k, l, rfl, hk, hl⟩ := exists_pair_of_prims hrest
    split at h <;> cases h
    refine ⟨_, rfl, ?_⟩
    cases c
    · exact hl.trans (Eq.symm ‹_›)
    · exact hk
  case h_10 => cases h

end Operator

namespace Skeleton

variable {a b u : Skeleton} {args : List Skeleton}

mutual

def value? (ρ : Name → Option Literal) : Skeleton → Option Literal
  | var (.free x) => ρ x
  | node (.lit l) _ => some l
  | node (.prim op) args => (values? ρ args).bind op.value?
  | _ => none

def values? (ρ : Name → Option Literal) : List Skeleton → Option (List Literal)
  | [] => some []
  | t :: ts => (value? ρ t).bind fun l => (values? ρ ts).map (l :: ·)

end

theorem value?_skeleton (t : Term) : (t.skeleton []).value? ρ = t.value? ρ := by
  have each {ts : List Term} (ih : ∀ t ∈ ts, (t.skeleton []).value? ρ = t.value? ρ) :
      values? ρ (ts.map (Term.skeleton [])) = Term.values? ρ ts := by
    induction ts with
    | nil => rfl
    | cons t ts ihs =>
      obtain ⟨ht, hts⟩ := List.forall_mem_cons.1 ih
      rw [List.map_cons, values?, Term.values?, ht, ihs hts]
  induction t with
  | var x => rfl
  | lit l => rfl
  | prim op args ih => rw [Term.skeleton_prim, prim, value?, Term.value?, each ih]
  | _ => rfl

theorem value?_pair : (prim op [a, b]).value? ρ = some m ↔
    ∃ k l, a.value? ρ = some k ∧ b.value? ρ = some l ∧ Operator.Computes op [k, l] m := by
  simp [prim, value?, values?, Option.bind_eq_some_iff, ← Operator.value?_eq_some_iff]

theorem Folds.value? (h : Folds op args u) (hm : (prim op args).value? ρ = some m) :
    u.value? ρ = some m := by
  cases h with
  | not => exact hm
  -- both operands are literals
  | add | sub | mul | lt | eq =>
    obtain ⟨_, _, hx, hy, hc⟩ := value?_pair.1 hm
    cases hx
    cases hy
    cases hc
    rfl
  | addSwap _ =>
    obtain ⟨_, _, hx, hy, hc⟩ := value?_pair.1 hm
    cases hc
    rw [Int64.add_comm]
    exact value?_pair.2 ⟨_, _, hy, hx, .add⟩
  | addZero =>
    obtain ⟨_, _, hx, hy, hc⟩ := value?_pair.1 hm
    cases hy
    cases hc
    rwa [Int64.add_zero]
  | addMerge =>
    obtain ⟨_, _, hsum, hy, hc⟩ := value?_pair.1 hm
    obtain ⟨_, _, ht, hx, hc'⟩ := value?_pair.1 hsum
    cases hx
    cases hy
    cases hc'
    cases hc
    rw [Int64.add_assoc]
    exact value?_pair.2 ⟨_, _, ht, rfl, .add⟩
  | subLiteral _ =>
    obtain ⟨_, _, hx, hy, hc⟩ := value?_pair.1 hm
    cases hy
    cases hc
    rw [Int64.sub_eq_add_neg]
    exact value?_pair.2 ⟨_, _, hx, rfl, .add⟩
  | subSelf =>
    obtain ⟨_, _, hx, hy, hc⟩ := value?_pair.1 hm
    cases hx.symm.trans hy
    cases hc
    rw [Int64.sub_self]
    rfl
  | eqSelf =>
    obtain ⟨_, _, hk, hl, hc⟩ := value?_pair.1 hm
    cases hk.symm.trans hl
    cases hc
    rw [decide_eq_true rfl]
    rfl
  | eqSwap _ =>
    obtain ⟨_, _, hk, hl, hc⟩ := value?_pair.1 hm
    cases hc
    rw [decide_comm]
    exact value?_pair.2 ⟨_, _, hl, hk, .eq⟩
  -- an offset moves across the comparison, also past the largest integer
  | eqShift =>
    obtain ⟨_, _, hsum, hy, hc⟩ := value?_pair.1 hm
    obtain ⟨_, _, ht, hx, hc'⟩ := value?_pair.1 hsum
    cases hx
    cases hy
    cases hc'
    cases hc
    rw [← decide_shift]
    exact value?_pair.2 ⟨_, _, ht, rfl, .eq⟩
  | falseAnd | trueOr =>
    obtain ⟨_, _, hb, _, hc⟩ := value?_pair.1 hm
    cases hb
    cases hc
    rfl
  | andFalse =>
    obtain ⟨_, _, _, hb, hc⟩ := value?_pair.1 hm
    cases hb
    cases hc
    rw [Bool.and_false]
    rfl
  | orTrue =>
    obtain ⟨_, _, _, hb, hc⟩ := value?_pair.1 hm
    cases hb
    cases hc
    rw [Bool.or_true]
    rfl
  | trueAnd | falseOr =>
    obtain ⟨_, _, hb, hd, hc⟩ := value?_pair.1 hm
    cases hb
    cases hc
    exact hd
  | andTrue =>
    obtain ⟨_, _, hd, hb, hc⟩ := value?_pair.1 hm
    cases hb
    cases hc
    rwa [Bool.and_true]
  | orFalse =>
    obtain ⟨_, _, hd, hb, hc⟩ := value?_pair.1 hm
    cases hb
    cases hc
    rwa [Bool.or_false]

end Skeleton

theorem Term.value?_prim {args : List Term} :
    (Term.prim op args).value? ρ = some m ↔ ∃ ls, Term.values? ρ args = some ls ∧
    Operator.Computes op ls m := by
  rw [Term.value?, Option.bind_eq_some_iff]
  exact exists_congr fun ls => and_congr_right' Operator.value?_eq_some_iff

theorem Term.values?_cons {t : Term} {ts : List Term} : Term.values? ρ (t :: ts) = some ls ↔
    ∃ l rest, t.value? ρ = some l ∧ Term.values? ρ ts = some rest ∧ l :: rest = ls := by
  simp only [Term.values?, Option.bind_eq_some_iff, Option.map_eq_some_iff, exists_and_left]

theorem Term.exists_value? {t : Term} (ht : t.sort? Γ = some p)
    (hρ : ∀ x ∈ t.free, ∃ l, ρ x = some l ∧ l.prim = Γ x) :
    ∃ l, t.value? ρ = some l ∧ l.prim = p := by
  induction t generalizing p with
  | var x =>
    cases ht
    exact hρ x (List.mem_singleton_self x)
  | lit l => exact ⟨l, rfl, Option.some.inj ht⟩
  | prim op args ih =>
    have each {ts : List Term} {ps : List Prim} (hts : ∀ t ∈ ts, t ∈ args)
        (hps : Term.sorts? Γ ts = some ps) :
        ∃ ls, Term.values? ρ ts = some ls ∧ ls.map Literal.prim = ps := by
      induction ts generalizing ps with
      | nil => exact ⟨[], rfl, Option.some.inj hps⟩
      | cons t ts ihs =>
        rw [Term.sorts?, Option.bind_eq_some_iff] at hps
        obtain ⟨q, hq, hps⟩ := hps
        obtain ⟨qs, hqs, rfl⟩ := Option.map_eq_some_iff.1 hps
        obtain ⟨hmem, hmems⟩ := List.forall_mem_cons.1 hts
        obtain ⟨l, hl, hprim⟩ := ih t hmem hq fun x hx => hρ x (mem_freeAll.2 ⟨t, hmem, hx⟩)
        obtain ⟨ls, hls, hprims⟩ := ihs hmems hqs
        refine ⟨l :: ls, values?_cons.2 ⟨l, ls, hl, hls, rfl⟩, ?_⟩
        rw [List.map_cons, hprim, hprims]
    rw [Term.sort?, Option.bind_eq_some_iff] at ht
    obtain ⟨ps, hps, hp⟩ := ht
    obtain ⟨ls, hls, rfl⟩ := each (fun _ => id) hps
    obtain ⟨l, hl, hprim⟩ := Operator.exists_value? hp
    refine ⟨l, ?_, hprim⟩
    rw [Term.value?, hls]
    exact hl
  | _ => cases ht

namespace Rules

variable {rules : Rules} {t u : Term} {ts us : List Term}

theorem Contracts.value? (h : rules.Contracts t u) (hm : t.value? ρ = some m) :
    u.value? ρ = some m := by
  cases h with
  | @branch c a b =>
    obtain ⟨ls, hls, hchoice⟩ := Term.value?_prim.1 hm
    cases hchoice
    obtain ⟨_, rest, hc, hrest, heq⟩ := Term.values?_cons.1 hls
    obtain ⟨_, last, hk, hlast, rfl⟩ := Term.values?_cons.1 hrest
    obtain ⟨_, _, hl, _, rfl⟩ := Term.values?_cons.1 hlast
    cases hc
    cases heq
    cases c
    · exact hl
    · exact hk
  | fold hfold =>
    rw [← Skeleton.value?_skeleton] at hm ⊢
    rw [Term.skeleton_prim] at hm
    exact (Skeleton.folds_of_fold hfold).value? hm
  | _ => cases hm

mutual

theorem Reduces.value? :
    ∀ {t u : Term} {m : Literal}, rules.Reduces t u → t.value? ρ = some m → u.value? ρ = some m
  | _, _, _, .here h, hm => h.value? hm
  | _, _, _, .prim h, hm => by
    obtain ⟨ls, hls, hc⟩ := Term.value?_prim.1 hm
    exact Term.value?_prim.2 ⟨ls, h.values? hls, hc⟩

theorem ReducesOne.values? : ∀ {ts us : List Term} {ls : List Literal}, rules.ReducesOne ts us →
    Term.values? ρ ts = some ls →
    Term.values? ρ us = some ls
  | _, _, _, .head h, hls => by
    obtain ⟨l, rest, hl, hrest, heq⟩ := Term.values?_cons.1 hls
    exact Term.values?_cons.2 ⟨l, rest, h.value? hl, hrest, heq⟩
  | _, _, _, .tail h, hls => by
    obtain ⟨l, rest, hl, hrest, heq⟩ := Term.values?_cons.1 hls
    exact Term.values?_cons.2 ⟨l, rest, hl, h.values? hrest, heq⟩

end

theorem Reaches.value? (h : rules.Reaches t u) (hm : t.value? ρ = some m) :
    u.value? ρ = some m := by
  induction h with
  | refl => exact hm
  | tail _ h ih => exact h.value? ih

theorem Stuck.eq_lit (h : rules.Stuck t) (hm : t.value? (fun _ => none) = some m) : t = .lit m := by
  induction h generalizing m with
  | lit => exact congrArg Term.lit (Option.some.inj hm)
  | ite _ hbranch ih =>
    obtain ⟨ls, hls, hc⟩ := Term.value?_prim.1 hm
    cases hc
    obtain ⟨_, _, hc, -, heq⟩ := Term.values?_cons.1 hls
    cases heq
    rw [ih hc] at hbranch
    cases hbranch
  | @prim op args hbranching _ hfold ih =>
    have lits {ts : List Term} {ls : List Literal} (hts : ∀ t ∈ ts, t ∈ args)
        (hls : Term.values? (fun _ => none) ts = some ls) :
        ts = ls.map Term.lit := by
      induction ts generalizing ls with
      | nil => cases hls; rfl
      | cons t ts ihs =>
        obtain ⟨hmem, hmems⟩ := List.forall_mem_cons.1 hts
        obtain ⟨l, rest, hl, hrest, rfl⟩ := Term.values?_cons.1 hls
        rw [List.map_cons, ih t hmem hl, ← ihs hmems hrest]
    obtain ⟨ls, hls, hc⟩ := Term.value?_prim.1 hm
    cases lits (fun _ => id) hls
    by_cases hop : op = .ite
    · subst hop
      cases hc
      exact absurd ⟨rfl, _, _, _, rfl⟩ hbranching
    · rw [Operator.fold_lits hop hc] at hfold
      cases hfold
  | _ => cases hm

end Rules

namespace Evaluator

variable {r : Evaluator} {t u : Term}

/-- Normal forms of well-sorted primitive terms have the value of the term under every assignment
to its variables. A closed term goes to the literal of its value. -/
theorem value_of_normalize (ht : t.sort? Γ = some p) (hu : (r.normalize t).1 = .ok u) :
    (∀ ρ, (∀ x ∈ t.free, ∃ l, ρ x = some l ∧ l.prim = Γ x) → ∃ l, l.prim = p ∧ t.value? ρ = some l ∧
      u.value? ρ = some l) ∧
    (t.free = [] → ∃ l, u = .lit l ∧ ∀ ρ, t.value? ρ = some l) := by
  have hreaches := (normalizes_of_normalize hu).reaches
  refine ⟨fun ρ hρ => ?_, fun hclosed => ?_⟩
  · obtain ⟨l, hl, hprim⟩ := Term.exists_value? ht hρ
    exact ⟨l, hprim, hl, hreaches.value? hl⟩
  · have hvalue (ρ : Name → Option Literal) : ∃ l, t.value? ρ = some l ∧ l.prim = p :=
      Term.exists_value? ht fun x hx => absurd (hclosed ▸ hx) List.not_mem_nil
    obtain ⟨l, hl, -⟩ := hvalue fun _ => none
    obtain ⟨k, hk⟩ := fst_ask_eq_ok_iff.1 hu
    rw [Rules.normalize_eq_bind, Option.bind_eq_some_iff] at hk
    obtain ⟨⟨w, n⟩, hw, hk⟩ := hk
    cases (Rules.stuck_of_whnf hw).eq_lit ((Rules.runs_of_whnf hw).reaches.value? hl)
    cases hk
    refine ⟨l, rfl, fun ρ => ?_⟩
    obtain ⟨l', hl', -⟩ := hvalue ρ
    cases hreaches.value? hl'
    exact hl'

def pastMaximum : Term := .prim .add [.prim .add [.var "x", .int Int64.maxValue], .int 1]

def belowMinimum : Term := .prim .lt [.prim .sub [.int Int64.minValue, .int 1], .int 0]

theorem wrapped_values :
    ((start .empty 10).normalize pastMaximum).1 = .ok (.prim .add [.var "x", .int Int64.minValue]) ∧
    (Term.prim .add [.var "x", .int Int64.minValue]).value? (fun _ => some (.int (-1))) =
      some (.int Int64.maxValue) ∧
    ((start .empty 10).normalize belowMinimum).1 = .ok (.bool false) ∧
    belowMinimum.value? (fun _ => none) = some (.bool false) := by
  have hopen : ((start .empty 10).normalize pastMaximum).1 =
      .ok (.prim .add [.var "x", .int Int64.minValue]) := by cbv
  have hclosed : ((start .empty 10).normalize belowMinimum).1 = .ok (.bool false) := by cbv
  refine ⟨hopen, ?_, hclosed, ?_⟩
  · have hsort : pastMaximum.sort? (fun _ => .int) = some .int := rfl
    obtain ⟨l, -, hl, hl'⟩ :=
      (value_of_normalize hsort hopen).1 (fun _ => some (.int (-1))) fun _ _ => ⟨_, rfl, rfl⟩
    cases hl
    rw [hl']
    decide
  · have hsort : belowMinimum.sort? (fun _ => .int) = some .bool := rfl
    obtain ⟨l, hl, hvalue⟩ := (value_of_normalize hsort hclosed).2 rfl
    cases hl
    exact hvalue _

end Evaluator

end ClosedTypes
