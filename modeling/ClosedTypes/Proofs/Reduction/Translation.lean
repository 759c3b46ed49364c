import ClosedTypes.Proofs.Reduction.Agreement
import ClosedTypes.Proofs.Reduction.Confluence
/-!
A term reduces just as its skeleton does, provided that it gives every operation all its arguments:
what the rules of equations and implementations put in then has no names that a binder around it
could catch.
-/

namespace ClosedTypes

variable {t u a b s f : Term} {ts us args : List Term} {xs : List Name} {x : Name} {op : Operator}

namespace Term

theorem eq_lit_of_skeleton {l : Literal} (h : t.skeleton xs = .node (.lit l) []) : t = .lit l := by
  cases t with
  | lit k =>
    cases h
    rfl
  | _ => simp [Skeleton.app, Skeleton.prim] at h

theorem exists_of_skeleton_lam {b : Skeleton} (h : t.skeleton xs = .lam b) :
    ∃ x dom b', t = .lam x dom b' ∧ b'.skeleton (x :: xs) = b := by
  cases t with
  | lam x dom b' => exact ⟨x, dom, b', rfl, Skeleton.lam.inj h⟩
  | _ => simp [Skeleton.app, Skeleton.prim] at h

theorem exists_of_skeleton_prim {parts : List Skeleton} (h : t.skeleton xs = .prim op parts) :
    ∃ args, t = .prim op args ∧ args.map (skeleton xs) = parts := by
  cases t with
  | prim op' args =>
    rw [skeleton_prim] at h
    cases h
    exact ⟨args, rfl, rfl⟩
  | _ => simp [Skeleton.app, Skeleton.prim] at h

theorem exists_of_skeleton_ctor {c : Name} {parts : List Skeleton}
    (h : t.skeleton xs = .node (.ctor c) parts) :
    ∃ args, t = .ctor c args ∧ args.map (skeleton xs) = parts := by
  cases t with
  | ctor c' args =>
    rw [skeleton_ctor] at h
    cases h
    exact ⟨args, rfl, rfl⟩
  | _ => simp [Skeleton.app, Skeleton.prim] at h

theorem exists_of_skeleton_tuple {parts : List Skeleton} (h : t.skeleton xs = .node .tuple parts) :
    ∃ args, t = .tuple args ∧ args.map (skeleton xs) = parts := by
  cases t with
  | tuple args =>
    rw [skeleton_tuple] at h
    cases h
    exact ⟨args, rfl, rfl⟩
  | _ => simp [Skeleton.app, Skeleton.prim] at h

theorem int?_lit (n : Int64) : (lit (.int n)).int? = some n := rfl

theorem bool?_lit (c : Bool) : (lit (.bool c)).bool? = some c := rfl

theorem int?_eq_some_iff {n : Int64} : t.int? = some n ↔ t = .int n := by
  unfold int?
  split
  · simp [int]
  · rename_i h
    exact iff_of_false nofun fun e => h n e

theorem bool?_eq_some_iff {c : Bool} : t.bool? = some c ↔ t = .bool c := by
  unfold bool?
  split
  · simp [bool]
  · rename_i h
    exact iff_of_false nofun fun e => h c e

theorem literal?_eq_some_iff {l : Literal} : t.literal? = some l ↔ t = .lit l := by
  unfold literal?
  split
  · simp
  · rename_i h
    exact iff_of_false nofun fun e => h l e

theorem addend?_eq_some_iff {n : Int64} : t.addend? = some (u, n) ↔ t = .prim .add [u, .int n] := by
  refine ⟨eq_add_of_addend?, ?_⟩
  rintro rfl
  rfl

end Term

namespace Skeleton

theorem folds_of_foldAdd (h : foldAdd a b = some u) :
    Folds .add [a.skeleton xs, b.skeleton xs] (u.skeleton xs) := by
  unfold foldAdd at h
  split at h
  · rename_i hx hy
    cases h
    rw [Term.int?_eq_some_iff] at hx hy
    subst hx hy
    exact .add
  · rename_i hx hy
    cases h
    rw [Term.int?_eq_some_iff] at hx
    subst hx
    refine .addSwap fun n hn => ?_
    rw [Term.eq_lit_of_skeleton hn] at hy
    cases hy
  · rename_i hx hy
    rw [Term.int?_eq_some_iff] at hy
    subst hy
    split at h
    · rename_i hzero
      cases h
      subst hzero
      exact .addZero
    · obtain ⟨⟨t, k⟩, ht, rfl⟩ := Option.map_eq_some_iff.1 h
      rw [Term.addend?_eq_some_iff] at ht
      subst ht
      exact .addMerge
  · cases h

theorem folds_of_foldSub (h : foldSub a b = some u) :
    Folds .sub [a.skeleton xs, b.skeleton xs] (u.skeleton xs) := by
  unfold foldSub at h
  split at h
  · rename_i hx hy
    cases h
    rw [Term.int?_eq_some_iff] at hx hy
    subst hx hy
    exact .sub
  · rename_i hx hy
    cases h
    rw [Term.int?_eq_some_iff] at hy
    subst hy
    refine .subLiteral fun n hn => ?_
    rw [Term.eq_lit_of_skeleton hn] at hx
    cases hx
  · split at h
    · rename_i halpha
      cases h
      rw [Term.skeleton_inj.2 halpha]
      exact .subSelf
    · cases h

theorem folds_of_foldEq (h : foldEq a b = some u) :
    Folds .eq [a.skeleton xs, b.skeleton xs] (u.skeleton xs) := by
  unfold foldEq at h
  split at h
  · rename_i hx hy
    cases h
    rw [Term.literal?_eq_some_iff] at hx hy
    subst hx hy
    exact .eq
  · rename_i hnone
    split at h
    · rename_i halpha
      cases h
      rw [Term.skeleton_inj.2 halpha]
      exact .eqSelf
    · split at h
      · rename_i hlit
        cases h
        obtain ⟨l, hl⟩ := Option.isSome_iff_exists.1 hlit
        refine (Term.literal?_eq_some_iff.1 hl) ▸ .eqSwap fun k hk => ?_
        exact hnone l k hl (Term.literal?_eq_some_iff.2 (Term.eq_lit_of_skeleton hk))
      · split at h
        · rename_i hadd hy
          cases h
          rw [Term.addend?_eq_some_iff] at hadd
          rw [Term.int?_eq_some_iff] at hy
          subst hadd hy
          exact .eqShift
        · cases h

theorem folds_of_foldAnd (h : foldAnd a b = some u) :
    Folds .and [a.skeleton xs, b.skeleton xs] (u.skeleton xs) := by
  unfold foldAnd at h
  split at h <;> cases h
  · rename_i hx
    rw [Term.bool?_eq_some_iff.1 hx]
    exact .falseAnd
  · rename_i hy _
    rw [Term.bool?_eq_some_iff.1 hy]
    exact .andFalse
  · rename_i hx _
    rw [Term.bool?_eq_some_iff.1 hx]
    exact .trueAnd
  · rename_i hy _ _
    rw [Term.bool?_eq_some_iff.1 hy]
    exact .andTrue

theorem folds_of_foldOr (h : foldOr a b = some u) :
    Folds .or [a.skeleton xs, b.skeleton xs] (u.skeleton xs) := by
  unfold foldOr at h
  split at h <;> cases h
  · rename_i hx
    rw [Term.bool?_eq_some_iff.1 hx]
    exact .trueOr
  · rename_i hy _
    rw [Term.bool?_eq_some_iff.1 hy]
    exact .orTrue
  · rename_i hx _
    rw [Term.bool?_eq_some_iff.1 hx]
    exact .falseOr
  · rename_i hy _ _
    rw [Term.bool?_eq_some_iff.1 hy]
    exact .orFalse

theorem folds_of_fold (h : fold op args = some u) :
    Folds op (args.map (Term.skeleton xs)) (u.skeleton xs) := by
  unfold fold at h
  split at h
  · exact folds_of_foldAdd h
  · exact folds_of_foldSub h
  · simp only [Option.bind_eq_bind, Option.bind_eq_some_iff, Option.pure_def, Option.some.injEq]
      at h
    obtain ⟨x, hx, y, hy, rfl⟩ := h
    rw [Term.int?_eq_some_iff] at hx hy
    subst hx hy
    exact .mul
  · simp only [Option.bind_eq_bind, Option.bind_eq_some_iff, Option.pure_def, Option.some.injEq]
      at h
    obtain ⟨x, hx, y, hy, rfl⟩ := h
    rw [Term.int?_eq_some_iff] at hx hy
    subst hx hy
    exact .lt
  · exact folds_of_foldEq h
  · exact folds_of_foldAnd h
  · exact folds_of_foldOr h
  · simp only [Option.bind_eq_bind, Option.bind_eq_some_iff, Option.pure_def, Option.some.injEq]
      at h
    obtain ⟨c, hc, rfl⟩ := h
    rw [Term.bool?_eq_some_iff] at hc
    subst hc
    exact .not
  · cases h

theorem exists_addend {x : Int64} {w : Skeleton} (h : t.skeleton xs = prim .add [w, int x]) :
    ∃ t', t = .prim .add [t', .int x] := by
  obtain ⟨args, rfl, hargs⟩ := Term.exists_of_skeleton_prim h
  obtain ⟨t', k, rfl, -, hk⟩ := exists_pair hargs
  rw [Term.eq_lit_of_skeleton hk]
  exact ⟨t', rfl⟩

theorem exists_foldAdd {x : Int64} (h : a.skeleton xs = int x ∨ b.skeleton xs = int 0 ∨
    b.skeleton xs = int x ∧ ∃ w y, a.skeleton xs = prim .add [w, int y]) : ∃ u, foldAdd a b =
      some u := by
  unfold foldAdd
  rcases h with ha | hb | ⟨hb, w, y, ha⟩
  · rw [Term.eq_lit_of_skeleton ha, Term.int?_lit]
    cases b.int? <;> exact ⟨_, rfl⟩
  · rw [Term.eq_lit_of_skeleton hb, Term.int?_lit]
    cases a.int? with
    | some x => exact ⟨_, rfl⟩
    | none => exact ⟨_, if_pos rfl⟩
  · obtain ⟨t, rfl⟩ := exists_addend ha
    rw [Term.eq_lit_of_skeleton hb, Term.int?_lit]
    show ∃ u, (if x = 0 then _ else _) = some u
    split <;> exact ⟨_, rfl⟩

theorem exists_foldSub {y : Int64} (h : b.skeleton xs = int y ∨ a.skeleton xs = b.skeleton xs) :
    ∃ u, foldSub a b = some u := by
  unfold foldSub
  rcases h with hb | heq
  · rw [Term.eq_lit_of_skeleton hb, Term.int?_lit]
    cases a.int? <;> exact ⟨_, rfl⟩
  · rw [Term.skeleton_inj] at heq
    rw [heq, if_pos rfl]
    cases a.int? <;> cases b.int? <;> exact ⟨_, rfl⟩

theorem exists_foldEq {l : Literal} {y : Int64}
    (h : a.skeleton xs = node (.lit l) [] ∨ a.skeleton xs = b.skeleton xs ∨
    b.skeleton xs = int y ∧ ∃ w x, a.skeleton xs = prim .add [w, int x]) : ∃ u, foldEq a b =
      some u := by
  unfold foldEq
  split
  · exact ⟨_, rfl⟩
  · split
    · exact ⟨_, rfl⟩
    · rename_i halpha
      split
      · exact ⟨_, rfl⟩
      · rename_i hlit
        rcases h with ha | heq | ⟨hb, w, x, ha⟩
        · rw [Term.eq_lit_of_skeleton ha] at hlit
          exact absurd rfl hlit
        · exact absurd (Term.skeleton_inj.1 heq) halpha
        · obtain ⟨t, rfl⟩ := exists_addend ha
          rw [Term.eq_lit_of_skeleton hb]
          exact ⟨_, rfl⟩

theorem exists_foldAnd {c : Bool} (h : a.skeleton xs = bool c ∨ b.skeleton xs = bool c) :
    ∃ u, foldAnd a b = some u := by
  unfold foldAnd
  rcases h with ha | hb
  · rw [Term.eq_lit_of_skeleton ha, Term.bool?_lit]
    rcases b.bool? with _ | _ | _ <;> cases c <;> exact ⟨_, rfl⟩
  · rw [Term.eq_lit_of_skeleton hb, Term.bool?_lit]
    rcases a.bool? with _ | _ | _ <;> cases c <;> exact ⟨_, rfl⟩

theorem exists_foldOr {c : Bool} (h : a.skeleton xs = bool c ∨ b.skeleton xs = bool c) :
    ∃ u, foldOr a b = some u := by
  unfold foldOr
  rcases h with ha | hb
  · rw [Term.eq_lit_of_skeleton ha, Term.bool?_lit]
    rcases b.bool? with _ | _ | _ <;> cases c <;> exact ⟨_, rfl⟩
  · rw [Term.eq_lit_of_skeleton hb, Term.bool?_lit]
    rcases a.bool? with _ | _ | _ <;> cases c <;> exact ⟨_, rfl⟩

theorem exists_fold {w : Skeleton} (h : Folds op (args.map (Term.skeleton xs)) w) :
    ∃ u, fold op args = some u := by
  generalize hargs : args.map (Term.skeleton xs) = parts at h
  cases h
  case not =>
    obtain ⟨a, rest, rfl, ha, hrest⟩ := List.map_eq_cons_iff.1 hargs
    rw [List.map_eq_nil_iff.1 hrest, Term.eq_lit_of_skeleton ha]
    exact ⟨_, rfl⟩
  all_goals obtain ⟨a, b, rfl, ha, hb⟩ := exists_pair hargs
  case add => exact exists_foldAdd (.inl ha)
  case addSwap => exact exists_foldAdd (.inl ha)
  case addZero => exact exists_foldAdd (x := 0) (.inr (.inl hb))
  case addMerge => exact exists_foldAdd (.inr (.inr ⟨hb, _, _, ha⟩))
  case sub => exact exists_foldSub (.inl hb)
  case subLiteral => exact exists_foldSub (.inl hb)
  case subSelf => exact exists_foldSub (y := 0) (.inr (ha.trans hb.symm))
  case mul =>
    rw [Term.eq_lit_of_skeleton ha, Term.eq_lit_of_skeleton hb]
    exact ⟨_, rfl⟩
  case lt =>
    rw [Term.eq_lit_of_skeleton ha, Term.eq_lit_of_skeleton hb]
    exact ⟨_, rfl⟩
  case eq => exact exists_foldEq (y := 0) (.inl ha)
  case eqSwap => exact exists_foldEq (y := 0) (.inl ha)
  case eqSelf => exact exists_foldEq (l := .int 0) (y := 0) (.inr (.inl (ha.trans hb.symm)))
  case eqShift => exact exists_foldEq (l := .int 0) (.inr (.inr ⟨hb, _, _, ha⟩))
  case falseAnd => exact exists_foldAnd (.inl ha)
  case andFalse => exact exists_foldAnd (.inr hb)
  case trueAnd => exact exists_foldAnd (.inl ha)
  case andTrue => exact exists_foldAnd (.inr hb)
  case trueOr => exact exists_foldOr (.inl ha)
  case orTrue => exact exists_foldOr (.inr hb)
  case falseOr => exact exists_foldOr (.inl ha)
  case orFalse => exact exists_foldOr (.inr hb)

end Skeleton

/-- Rules that fit a language of known uses: equations and implementations do not compete, and an
equation has a binder for each argument of its eliminator and its constructor. -/
structure Rules.Fitting (known : Use → Prop) (rules : Rules) : Prop where
  closed : rules.Closed
  covered : rules.Over known
  apart : ∀ {e c d}, rules.context.equation? e c = some d → rules.implementation? e = none ∧
    rules.implementation? c = none
  arity : ∀ {e c d n k}, rules.context.equation? e c = some d → known (.eliminator e n) →
    known (.constructor c k) →
    d.binders.length = k + n

namespace Rules

variable {known : Use → Prop} {rules : Rules}

theorem Fitting.skeleton_subst_rhs (hrules : rules.Fitting known) {e c : Name} {d : Equation}
    (hd : rules.context.equation? e c = some d) (hlen : d.binders.length = args.length) :
    (d.rhs.subst (.ofList (d.binders.zip args))).skeleton xs =
      (d.rhs.skeleton []).replace (Skeleton.assigning d.binders (args.map (Term.skeleton xs))) := by
  rw [Term.skeleton_subst]
  refine Term.replace_skeleton_congr fun x hx => ?_
  obtain ⟨a, ha⟩ := Skeleton.isSome_find?_zip hlen (hrules.closed.rhs hd x hx)
  show Term.replacing xs _ (.free x) = Skeleton.assigning d.binders _ (.free x)
  rw [Term.replacing, Skeleton.assigning, Skeleton.find?_ofList_zip_map, ha]
  rfl

theorem Fitting.skeleton_applyAll (hrules : rules.Fitting known) {body : Term}
    (hbody : rules.implementation? x = some body) :
    (body.applyAll args).skeleton xs =
      (body.skeleton []).applyAll (args.map (Term.skeleton xs)) := by
  have hclosed : body.skeleton xs = body.skeleton [] := by
    rw [← Skeleton.replace_var (t := body.skeleton xs),
      Term.skeleton_of_closed (hrules.closed.body hbody)]
  rw [← hclosed]
  generalize body = f
  induction args generalizing f with
  | nil => rfl
  | cons a args ih => exact ih (.app f a)

theorem Contracts.skeleton (h : rules.Contracts t u) (hrules : rules.Fitting known)
    (ht : t.Over known) (xs : List Name) :
    Skeleton.Contracts rules (t.skeleton xs) (u.skeleton xs) := by
  cases h with
  | beta =>
    rw [Term.skeleton_app, Term.skeleton_lam, Term.skeleton_instantiate]
    exact .beta
  | erasure => exact .erasure
  | projection hi =>
    rw [Term.skeleton_proj, Term.skeleton_tuple]
    exact .projection (by rw [List.getElem?_map, hi, Option.map_some])
  | @branch c t e =>
    have hbranch : (if c then t else e).skeleton xs = if c then t.skeleton xs else
        e.skeleton xs := by cases c <;> rfl
    rw [hbranch]
    exact .branch
  | @equation e c fields args d hd =>
    -- with fewer arguments than binders, a binder's own name would be left in the reduct for others
    -- to catch
    rw [Term.over_elim, Term.over_ctor] at ht
    have hlen : d.binders.length = (fields ++ args).length := by
      rw [hrules.arity hd ht.1 ht.2.1.1, List.length_append]
    rw [hrules.skeleton_subst_rhs hd hlen, Term.skeleton_elim, Term.skeleton_ctor, List.map_append]
    exact .equation (hrules.apart hd).1 (hrules.apart hd).2 hd (by simpa using hlen)
  | fold hfold =>
    rw [Term.skeleton_prim]
    exact .fold (Skeleton.folds_of_fold hfold)
  | constructor hbody =>
    rw [hrules.skeleton_applyAll hbody, Term.skeleton_ctor]
    exact .constructor hbody
  | eliminator hbody =>
    rw [hrules.skeleton_applyAll hbody, Term.skeleton_elim]
    exact .eliminator hbody

theorem exists_contracts {w : Skeleton} (h : Skeleton.Contracts rules (t.skeleton xs) w) :
    ∃ u, rules.Contracts t u := by
  cases t with
  | var x =>
    rw [Term.skeleton_var] at h
    cases h
  | lit l => cases h
  | lam x dom b => cases h
  | tuple elems =>
    rw [Term.skeleton_tuple] at h
    cases h
  | ann t ty => exact ⟨_, .erasure⟩
  | app f a =>
    rw [Term.skeleton_app] at h
    generalize hf : f.skeleton xs = g at h
    cases h
    obtain ⟨x, dom, b, rfl, -⟩ := Term.exists_of_skeleton_lam hf
    exact ⟨_, .beta⟩
  | proj t i =>
    rw [Term.skeleton_proj] at h
    generalize ht : t.skeleton xs = g at h
    cases h with
    | projection hi =>
      obtain ⟨elems, rfl, rfl⟩ := Term.exists_of_skeleton_tuple ht
      obtain ⟨w, hw, -⟩ := Option.map_eq_some_iff.1 (List.getElem?_map ▸ hi)
      exact ⟨_, .projection hw⟩
  | ctor c args =>
    rw [Term.skeleton_ctor] at h
    cases h with
    | constructor hbody => exact ⟨_, .constructor hbody⟩
  | elim e s args =>
    rw [Term.skeleton_elim] at h
    generalize hs : s.skeleton xs = g, args.map (Term.skeleton xs) = us at h
    cases h with
    | equation _ _ hd _ =>
      obtain ⟨fields, rfl, -⟩ := Term.exists_of_skeleton_ctor hs
      exact ⟨_, .equation hd⟩
    | eliminator hbody => exact ⟨_, .eliminator hbody⟩
  | prim op args =>
    rw [Term.skeleton_prim] at h
    generalize hargs : args.map (Term.skeleton xs) = parts at h
    cases h with
    | branch =>
      obtain ⟨c, rest, rfl, hc, hrest⟩ := List.map_eq_cons_iff.1 hargs
      obtain ⟨t, e, rfl, -, -⟩ := Skeleton.exists_pair hrest
      rw [Term.eq_lit_of_skeleton hc]
      exact ⟨_, .branch⟩
    | fold hfold =>
      obtain ⟨u, hu⟩ := Skeleton.exists_fold (hargs ▸ hfold)
      exact ⟨u, .fold hu⟩

mutual

theorem Reduces.skeleton (hrules : rules.Fitting known) :
    ∀ {t u : Term}, rules.Reduces t u → t.Over known →
    ∀ xs, Skeleton.Reduces rules (t.skeleton xs) (u.skeleton xs)
  | _, _, .here h, ht, xs => .here (h.skeleton hrules ht xs)
  | _, _, .fn h, ht, xs => .part (.head (h.skeleton hrules (Term.over_app.1 ht).1 xs))
  | _, _, .arg h, ht, xs => .part (.tail (.head (h.skeleton hrules (Term.over_app.1 ht).2 xs)))
  | _, _, .body h, ht, xs => .body (h.skeleton hrules (Term.over_lam.1 ht) _)
  | _, _, .ascribed h, ht, xs => .part (.head (h.skeleton hrules (Term.over_ann.1 ht) xs))
  | _, _, .fields h, ht, xs => by
    rw [Term.skeleton_ctor, Term.skeleton_ctor]
    exact .part (h.skeleton hrules (Term.over_ctor.1 ht).2 xs)
  | _, _, .scrutinee h, ht, xs => by
    rw [Term.skeleton_elim, Term.skeleton_elim]
    exact .part (.head (h.skeleton hrules (Term.over_elim.1 ht).2.1 xs))
  | _, _, .operands h, ht, xs => by
    rw [Term.skeleton_elim, Term.skeleton_elim]
    exact .part (.tail (h.skeleton hrules (Term.over_elim.1 ht).2.2 xs))
  | _, _, .prim h, ht, xs => by
    rw [Term.skeleton_prim, Term.skeleton_prim]
    exact .part (h.skeleton hrules (Term.over_prim.1 ht) xs)
  | _, _, .tuple h, ht, xs => by
    rw [Term.skeleton_tuple, Term.skeleton_tuple]
    exact .part (h.skeleton hrules (Term.over_tuple.1 ht) xs)
  | _, _, .proj h, ht, xs => .part (.head (h.skeleton hrules (Term.over_proj.1 ht) xs))

theorem ReducesOne.skeleton (hrules : rules.Fitting known) :
    ∀ {ts us : List Term}, rules.ReducesOne ts us → (∀ t ∈ ts, t.Over known) →
    ∀ xs, One (Skeleton.Reduces rules) (ts.map (Term.skeleton xs)) (us.map (Term.skeleton xs))
  | _, _, .head h, hts, xs => .head (h.skeleton hrules (List.forall_mem_cons.1 hts).1 xs)
  | _, _, .tail h, hts, xs => .tail (h.skeleton hrules (List.forall_mem_cons.1 hts).2 xs)

end

theorem exists_reduces_of_contracts (hrules : rules.Fitting known) {w : Skeleton}
    (h : Skeleton.Contracts rules (t.skeleton xs) w)
    (ht : t.Over known) : ∃ u, rules.Reduces t u ∧ u.skeleton xs = w := by
  obtain ⟨u, hu⟩ := exists_contracts h
  exact ⟨u, .here hu, (hu.skeleton hrules ht xs).unique h⟩

theorem exists_reducesOne {ws : List Skeleton}
    (h : One (Skeleton.Reduces rules) (ts.map (Term.skeleton xs)) ws)
    (ih : ∀ t ∈ ts, ∀ {xs : List Name} {w : Skeleton}, Skeleton.Reduces rules (t.skeleton xs) w →
      t.Over known →
      ∃ u, rules.Reduces t u ∧ u.skeleton xs = w)
    (hts : ∀ t ∈ ts, t.Over known) :
    ∃ us, rules.ReducesOne ts us ∧ us.map (Term.skeleton xs) = ws := by
  induction ts generalizing ws with
  | nil => cases h
  | cons t ts ihs =>
    obtain ⟨ht, hts⟩ := List.forall_mem_cons.1 hts
    obtain ⟨iht, ihts⟩ := List.forall_mem_cons.1 ih
    rw [List.map_cons] at h
    cases h with
    | head h =>
      obtain ⟨u, hu, rfl⟩ := iht h ht
      exact ⟨u :: ts, .head hu, rfl⟩
    | tail h =>
      obtain ⟨us, hus, rfl⟩ := ihs h ihts hts
      exact ⟨t :: us, .tail hus, rfl⟩

theorem exists_reduces (hrules : rules.Fitting known) {w : Skeleton}
    (h : Skeleton.Reduces rules (t.skeleton xs) w) (ht : t.Over known) :
    ∃ u, rules.Reduces t u ∧ u.skeleton xs = w := by
  induction t generalizing w xs with
  | var x =>
    rw [Term.skeleton_var] at h
    exact absurd h Skeleton.not_reduces_var
  | lit l => exact absurd h Skeleton.not_reduces_lit
  | lam x dom b ih =>
    obtain ⟨c, hc, rfl⟩ := Skeleton.exists_of_reduces_lam h
    obtain ⟨u, hu, rfl⟩ := ih hc ht
    exact ⟨.lam x dom u, .body hu, rfl⟩
  | app f a ihf iha =>
    rw [Term.over_app] at ht
    cases h with
    | here h => exact exists_reduces_of_contracts hrules h (Term.over_app.2 ht)
    | part h =>
      cases h with
      | head h =>
        obtain ⟨g, hg, rfl⟩ := ihf h ht.1
        exact ⟨.app g a, .fn hg, rfl⟩
      | tail h =>
        cases h with
        | head h =>
          obtain ⟨b, hb, rfl⟩ := iha h ht.2
          exact ⟨.app f b, .arg hb, rfl⟩
        | tail h => cases h
  | ann t ty ih =>
    cases h with
    | here h => exact exists_reduces_of_contracts hrules h ht
    | part h =>
      cases h with
      | head h =>
        obtain ⟨u, hu, rfl⟩ := ih h ht
        exact ⟨.ann u ty, .ascribed hu, rfl⟩
      | tail h => cases h
  | proj t i ih =>
    cases h with
    | here h => exact exists_reduces_of_contracts hrules h ht
    | part h =>
      cases h with
      | head h =>
        obtain ⟨u, hu, rfl⟩ := ih h ht
        exact ⟨.proj u i, .proj hu, rfl⟩
      | tail h => cases h
  | ctor c args ih =>
    rw [Term.skeleton_ctor] at h
    cases h with
    | here h => exact exists_reduces_of_contracts hrules (Term.skeleton_ctor ▸ h) ht
    | part h =>
      obtain ⟨us, hus, rfl⟩ := exists_reducesOne h ih (Term.over_ctor.1 ht).2
      exact ⟨.ctor c us, .fields hus, Term.skeleton_ctor⟩
  | elim e s args ihs ih =>
    rw [Term.skeleton_elim] at h
    cases h with
    | here h => exact exists_reduces_of_contracts hrules (Term.skeleton_elim ▸ h) ht
    | part h =>
      rw [Term.over_elim] at ht
      cases h with
      | head h =>
        obtain ⟨u, hu, rfl⟩ := ihs h ht.2.1
        exact ⟨.elim e u args, .scrutinee hu, Term.skeleton_elim⟩
      | tail h =>
        obtain ⟨us, hus, rfl⟩ := exists_reducesOne h ih ht.2.2
        exact ⟨.elim e s us, .operands hus, Term.skeleton_elim⟩
  | prim op args ih =>
    rw [Term.skeleton_prim] at h
    cases h with
    | here h => exact exists_reduces_of_contracts hrules (Term.skeleton_prim ▸ h) ht
    | part h =>
      obtain ⟨us, hus, rfl⟩ := exists_reducesOne h ih (Term.over_prim.1 ht)
      exact ⟨.prim op us, .prim hus, Term.skeleton_prim⟩
  | tuple elems ih =>
    rw [Term.skeleton_tuple] at h
    cases h with
    | here h => exact exists_reduces_of_contracts hrules (Term.skeleton_tuple ▸ h) ht
    | part h =>
      obtain ⟨us, hus, rfl⟩ := exists_reducesOne h ih (Term.over_tuple.1 ht)
      exact ⟨.tuple us, .tuple hus, Term.skeleton_tuple⟩

end Rules

end ClosedTypes
