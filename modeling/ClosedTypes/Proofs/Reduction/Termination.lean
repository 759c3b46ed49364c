import ClosedTypes.Proofs.Reduction.Budget
/-!
Evaluation of terms whose reduction ends. Every step that it takes is paid for by a reduction of the
term or of a part of it, and the parts of a term terminate with it, so that some budget is enough.
-/

namespace ClosedTypes

variable {α β : Type} {question : Nat → Option (α × Nat)} {a : α} {c d : Nat}

/-- Every budget of at least `c` gives the answer `a` and is `c` smaller afterwards. -/
def Costs (question : Nat → Option (α × Nat)) (a : α) (c : Nat) : Prop :=
  ∀ n, c ≤ n → question n = some (a, n - c)

theorem Costs.map (h : Costs question a c) (f : α → β) :
    Costs (fun n => (question n).map fun r => (f r.1, r.2)) (f a) c := by
  intro n hn
  simp [h n hn]

theorem Costs.bind {g : α → Nat → Option (β × Nat)} {b : β} (h : Costs question a c)
    (hg : Costs (g a) b d) :
    Costs (fun n => (question n).bind fun r => g r.1 r.2) b (c + d) := by
  intro n hn
  simp [h n (by omega), hg (n - c) (by omega), Nat.sub_sub]

theorem Costs.congr {question' : Nat → Option (α × Nat)} (h : Costs question a c)
    (heq : ∀ n, question' n = question n) :
    Costs question' a c := fun n hn => (heq n).trans (h n hn)

theorem Term.Frame.sizeOf_lt (frame : Frame) (t : Term) : sizeOf t < sizeOf (frame.fill t) := by
  have among (before after : List Term) : sizeOf t < sizeOf (before ++ t :: after) :=
    List.sizeOf_lt_of_mem (by simp)
  cases frame with
  | fn a => simp [fill]; omega
  | arg f => simp only [fill, app.sizeOf_spec]; omega
  | body x dom => simp only [fill, lam.sizeOf_spec]; omega
  | ascribed ty => simp [fill]; omega
  | field x before after => have := among before after; simp only [fill, ctor.sizeOf_spec]; omega
  | scrutinee e args => simp [fill]; omega
  | rest e s before after => have := among before after; simp only [fill, elim.sizeOf_spec]; omega
  | operand op before after => have := among before after; simp only [fill, prim.sizeOf_spec]; omega
  | component before after => have := among before after; simp only [fill, tuple.sizeOf_spec]; omega
  | projected i => simp [fill]; omega

namespace Rules

variable {rules : Rules} {n k : Nat} {t u v w s : Term} {ts us : List Term}

theorem Reduces.frame (h : rules.Reduces t u) (frame : Term.Frame) :
    rules.Reduces (frame.fill t) (frame.fill u) := by
  cases frame with
  | fn a => exact .fn h
  | arg f => exact .arg h
  | body x dom => exact .body h
  | ascribed ty => exact .ascribed h
  | field c before after => exact .fields (.of_split before after h)
  | scrutinee e args => exact .scrutinee h
  | rest e s before after => exact .operands (.of_split before after h)
  | operand op before after => exact .prim (.of_split before after h)
  | component before after => exact .tuple (.of_split before after h)
  | projected i => exact .proj h

theorem Reduces.fill (h : rules.Reduces t u) (frames : List Term.Frame) :
    rules.Reduces (.fill frames t) (.fill frames u) := by
  induction frames with
  | nil => exact h
  | cons frame frames ih => exact ih.frame frame

theorem exists_fill_frame (frame : Term.Frame)
    (h : ∃ frames s v, rules.Contracts s v ∧ t = .fill frames s ∧ u = .fill frames v) :
    ∃ frames s v, rules.Contracts s v ∧ frame.fill t = .fill frames s ∧
      frame.fill u = .fill frames v := by
  obtain ⟨frames, s, v, h, rfl, rfl⟩ := h
  exact ⟨frame :: frames, s, v, h, rfl, rfl⟩

mutual

theorem Reduces.exists_fill : ∀ {t u : Term}, rules.Reduces t u →
    ∃ frames s v, rules.Contracts s v ∧ t = .fill frames s ∧ u = .fill frames v
  | _, _, .here h => ⟨[], _, _, h, rfl, rfl⟩
  | _, _, .fn h => exists_fill_frame (.fn _) h.exists_fill
  | _, _, .arg h => exists_fill_frame (.arg _) h.exists_fill
  | _, _, .body h => exists_fill_frame (.body _ _) h.exists_fill
  | _, _, .ascribed h => exists_fill_frame (.ascribed _) h.exists_fill
  | _, _, .scrutinee h => exists_fill_frame (.scrutinee _ _) h.exists_fill
  | _, _, .proj h => exists_fill_frame (.projected _) h.exists_fill
  | _, _, .fields h => by
    obtain ⟨before, after, t, u, rfl, rfl, hpart⟩ := h.exists_fill
    exact exists_fill_frame (.field _ before after) hpart
  | _, _, .operands h => by
    obtain ⟨before, after, t, u, rfl, rfl, hpart⟩ := h.exists_fill
    exact exists_fill_frame (.rest _ _ before after) hpart
  | _, _, .prim h => by
    obtain ⟨before, after, t, u, rfl, rfl, hpart⟩ := h.exists_fill
    exact exists_fill_frame (.operand _ before after) hpart
  | _, _, .tuple h => by
    obtain ⟨before, after, t, u, rfl, rfl, hpart⟩ := h.exists_fill
    exact exists_fill_frame (.component before after) hpart

theorem ReducesOne.exists_fill : ∀ {ts us : List Term}, rules.ReducesOne ts us →
    ∃ before after t u, ts = before ++ t :: after ∧ us = before ++ u :: after ∧
      ∃ frames s v, rules.Contracts s v ∧ t = .fill frames s ∧ u = .fill frames v
  | _, _, .head h => ⟨[], _, _, _, rfl, rfl, h.exists_fill⟩
  | t :: _, _, .tail h => by
    obtain ⟨before, after, a, b, rfl, rfl, hpart⟩ := h.exists_fill
    exact ⟨t :: before, after, a, b, rfl, rfl, hpart⟩

end

variable {rules' : Rules}

theorem Contracts.mono (h : rules.Contracts t u)
    (hequations : ∀ e c d, rules.context.equation? e c = some d →
      rules'.context.equation? e c = some d)
    (himplementations : ∀ op body, rules.implementation? op = some body →
      rules'.implementation? op = some body) : rules'.Contracts t u := by
  cases h with
  | beta => exact .beta
  | erasure => exact .erasure
  | projection hi => exact .projection hi
  | branch => exact .branch
  | equation hd => exact .equation (hequations _ _ _ hd)
  | fold hfold => exact .fold hfold
  | constructor hbody => exact .constructor (himplementations _ _ hbody)
  | eliminator hbody => exact .eliminator (himplementations _ _ hbody)

theorem Reduces.of_contracts (h : rules'.Reduces t u)
    (hrules : ∀ t u, rules'.Contracts t u → rules.Contracts t u) : rules.Reduces t u := by
  obtain ⟨frames, s, v, hcontracts, rfl, rfl⟩ := h.exists_fill
  exact Reduces.fill (.here (hrules s v hcontracts)) frames

theorem Terminates.of_contracts (h : rules.Terminates t)
    (hrules : ∀ t u, rules'.Contracts t u → rules.Contracts t u) : rules'.Terminates t :=
  Subrelation.accessible (fun hstep => Reduces.of_contracts hstep hrules) h

theorem Terminates.reaches (h : rules.Terminates t) (hu : rules.Reaches t u) :
    rules.Terminates u := by
  induction hu with
  | refl => exact h
  | tail _ hstep ih => exact ih.inv hstep

/-- `u` is a reduct or a part of `t`. -/
inductive Below (rules : Rules) : Term → Term → Prop where
  | reduct {t u : Term} : rules.Reduces t u → Below rules u t
  | part {u : Term} (frame : Term.Frame) : Below rules u (frame.fill u)

theorem Terminates.acc_below (h : rules.Terminates t) :
    ∀ frames s, Term.fill frames s = t → Acc rules.Below s := by
  induction h with
  | intro t _ ih =>
    intro frames s hs
    induction hsize : sizeOf s using Nat.strong_induction_on generalizing frames s with
    | _ n ihs =>
      refine .intro _ fun u hu => ?_
      cases hu with
      | reduct hu => exact ih _ (hs ▸ hu.fill frames) frames u rfl
      | part frame =>
        have hfill : Term.fill (frames ++ [frame]) u = t := by
          rw [← hs, Term.fill, List.foldr_append]
          rfl
        exact ihs _ (hsize ▸ frame.sizeOf_lt u) (frames ++ [frame]) u hfill rfl

open Relation (TransGen ReflTransGen)

theorem transGen_of_reaches (h : rules.Reaches t u) (hne : u ≠ t) : TransGen rules.Reduces t u := by
  rcases Relation.reflTransGen_iff_eq_or_transGen.1 h with heq | h
  · exact absurd heq hne
  · exact h

theorem transGen_of_or {g : Term → Term} {o : Option Term} {r : Term × Nat}
    (hg : ∀ t u, rules.Reduces t u → rules.Reduces (g t) (g u))
    (hr : (rules.whnf n t).1 = some r) (ho : ∀ v, o = some v → rules.Contracts (g r.1) v)
    (hv : o.or (moved n r.2 (g r.1)) = some v) : TransGen rules.Reduces (g t) v := by
  have hreaches : rules.Reaches t r.1 := (runs_of_whnf hr).reaches
  rcases Option.or_eq_some_iff.1 hv with hv | ⟨-, hv⟩
  · exact .tail' (hreaches.lift g hg) (.here (ho v hv))
  · rw [moved_whnf hr] at hv
    split at hv
    · cases hv
    · rename_i hne
      cases hv
      exact (transGen_of_reaches hreaches hne).lift g hg

theorem whnfEach_of_stuck (h : ∀ t ∈ ts, rules.Stuck t) :
    (rules.whnfEach n ts).1 = some (ts, n) := by
  induction ts with
  | nil => exact whnfEach_nil
  | cons t ts ih =>
    obtain ⟨ht, hts⟩ := List.forall_mem_cons.1 h
    simp [whnfEach_cons, whnf_of_stuck ht, ih hts]

theorem transGen_of_operands {op : Operator} {r : List Term × Nat}
    (hr : (rules.whnfEach n ts).1 = some r)
    (hv : (fold op r.1).or (moved n r.2 (.prim op r.1)) = some v) :
    TransGen rules.Reduces (.prim op ts) v := by
  have hreaches : rules.Reaches (.prim op ts) (.prim op r.1) :=
    (Runs.operands [] (runs_of_whnfEach hr)).reaches
  rcases Option.or_eq_some_iff.1 hv with hv | ⟨-, hv⟩
  · exact .tail' hreaches (.here (.fold hv))
  · unfold moved at hv
    split at hv
    · cases hv
    · rename_i hne
      cases hv
      refine transGen_of_reaches hreaches fun heq => hne ?_
      -- operands that stay as they are were stuck, and that costs nothing
      have hsame : r.1 = ts := (Term.prim.inj heq).2
      have hstuck := whnfEach_of_stuck (n := n) (stuck_of_whnfEach hr)
      rw [hsame, hr] at hstuck
      exact congrArg Prod.snd (Option.some.inj hstuck)

theorem transGen_of_step (h : (rules.step n t).1 = some (some u, k)) :
    TransGen rules.Reduces t u := by
  cases t with
  | var x =>
    rw [step_var] at h
    cases h
  | lit l =>
    rw [step_lit] at h
    cases h
  | lam x dom b =>
    rw [step_lam] at h
    cases h
  | tuple elems =>
    rw [step_tuple] at h
    cases h
  | ann t ty =>
    rw [step_ann] at h
    cases h
    exact .single (.here .erasure)
  | ctor x args =>
    rw [step_ctor, Option.some.injEq, Prod.mk.injEq, Option.map_eq_some_iff] at h
    obtain ⟨⟨body, hbody, rfl⟩, -⟩ := h
    exact .single (.here (.constructor hbody))
  | app f a =>
    rw [step_app, Option.map_eq_some_iff] at h
    obtain ⟨r, hr, h⟩ := h
    exact transGen_of_or (g := (.app · a)) (fun _ _ => .fn) hr (fun _ => contracts_of_beta?)
      (congrArg Prod.fst h)
  | elim x s args =>
    cases himpl : rules.implementation? x with
    | some body =>
      rw [step_elim_of_implemented himpl] at h
      cases h
      exact .single (.here (.eliminator himpl))
    | none =>
      rw [step_elim himpl, Option.map_eq_some_iff] at h
      obtain ⟨r, hr, h⟩ := h
      exact transGen_of_or (g := (.elim x · args)) (fun _ _ => .scrutinee) hr
        (fun _ => contracts_of_contract?) (congrArg Prod.fst h)
  | proj t i =>
    rw [step_proj, Option.map_eq_some_iff] at h
    obtain ⟨r, hr, h⟩ := h
    exact transGen_of_or (g := (.proj · i)) (fun _ _ => .proj) hr (fun _ => contracts_of_component?)
      (congrArg Prod.fst h)
  | prim op args =>
    by_cases hb : IsBranching op args
    · obtain ⟨rfl, c, t, e, rfl⟩ := hb
      rw [step_ite, Option.map_eq_some_iff] at h
      obtain ⟨r, hr, h⟩ := h
      exact transGen_of_or (g := fun c => .prim .ite [c, t, e]) (fun _ _ hc => .prim (.head hc)) hr
        (fun _ => contracts_of_branch?) (congrArg Prod.fst h)
    · rw [step_prim hb, Option.map_eq_some_iff] at h
      obtain ⟨r, hr, h⟩ := h
      exact transGen_of_operands hr (congrArg Prod.fst h)

theorem costs_whnfEach (h : ∀ t ∈ ts, ∃ w c, Costs (fun n => (rules.whnf n t).1) w c) :
    ∃ ws c, Costs (fun n => (rules.whnfEach n ts).1) ws c := by
  induction ts with
  | nil => exact ⟨[], 0, fun n _ => whnfEach_nil⟩
  | cons t ts ih =>
    obtain ⟨⟨w, c, ht⟩, hts⟩ := List.forall_mem_cons.1 h
    obtain ⟨ws, d, hts⟩ := ih hts
    refine ⟨w :: ws, c + d, ?_⟩
    exact (ht.bind (g := fun w n => (rules.whnfEach n ts).1.map fun rs => (w :: rs.1, rs.2))
      (hts.map (w :: ·))).congr
      fun n => whnfEach_cons

theorem costs_normalizeEach (h : ∀ t ∈ ts, ∃ u c, Costs (fun n => (rules.normalize n t).1) u c) :
    ∃ us c, Costs (fun n => (rules.normalizeEach n ts).1) us c := by
  induction ts with
  | nil => exact ⟨[], 0, fun n _ => normalizeEach_nil⟩
  | cons t ts ih =>
    obtain ⟨⟨u, c, ht⟩, hts⟩ := List.forall_mem_cons.1 h
    obtain ⟨us, d, hts⟩ := ih hts
    refine ⟨u :: us, c + d, ?_⟩
    exact (ht.bind (g := fun u n => (rules.normalizeEach n ts).1.map fun rs => (u :: rs.1, rs.2))
      (hts.map (u :: ·))).congr
      fun n => normalizeEach_cons

theorem moved_sub {c : Nat} (h : c ≤ n) : moved n (n - c) u = if c = 0 then none else some u := by
  unfold moved
  by_cases hc : c = 0
  · rw [if_pos hc, if_pos (by omega)]
  · rw [if_neg hc, if_neg (by omega)]

theorem costs_of_part {β : Type} {question : Nat → Option (β × Nat)} {w : β} {c : Nat}
    (h : Costs question w c)
    (o : β → Option Term) (g : β → Term) :
    ∃ s, Costs (fun n => (question n).map fun r => ((o r.1).or (moved n r.2 (g r.1)), r.2))
      s c := by
  refine ⟨(o w).or (if c = 0 then none else some (g w)), fun n hn => ?_⟩
  simp only [h n hn, Option.map_some, moved_sub hn]

theorem costs_step (h : ∀ (frame : Term.Frame) u, frame.fill u = t →
    ∃ w c, Costs (fun n => (rules.whnf n u).1) w c) :
    ∃ s c, Costs (fun n => (rules.step n t).1) s c := by
  cases t with
  | var x => exact ⟨_, 0, fun n _ => step_var⟩
  | lit l => exact ⟨_, 0, fun n _ => step_lit⟩
  | lam x dom b => exact ⟨_, 0, fun n _ => step_lam⟩
  | tuple elems => exact ⟨_, 0, fun n _ => step_tuple⟩
  | ann t ty => exact ⟨_, 0, fun n _ => step_ann⟩
  | ctor x args => exact ⟨_, 0, fun n _ => step_ctor⟩
  | app f a =>
    obtain ⟨w, c, hf⟩ := h (.fn a) f rfl
    obtain ⟨s, hs⟩ := costs_of_part hf (·.beta? a) (.app · a)
    exact ⟨s, c, hs.congr fun n => step_app⟩
  | elim x s args =>
    cases himpl : rules.implementation? x with
    | some body => exact ⟨_, 0, fun n _ => step_elim_of_implemented himpl⟩
    | none =>
      obtain ⟨w, c, hw⟩ := h (.scrutinee x args) s rfl
      obtain ⟨s, hs⟩ := costs_of_part hw (rules.contract? x · args) (.elim x · args)
      exact ⟨s, c, hs.congr fun n => step_elim himpl⟩
  | proj t i =>
    obtain ⟨w, c, ht⟩ := h (.projected i) t rfl
    obtain ⟨s, hs⟩ := costs_of_part ht (·.component? i) (.proj · i)
    exact ⟨s, c, hs.congr fun n => step_proj⟩
  | prim op args =>
    by_cases hb : IsBranching op args
    · obtain ⟨rfl, a, t, e, rfl⟩ := hb
      obtain ⟨w, c, ha⟩ := h (.operand .ite [] [t, e]) a rfl
      obtain ⟨s, hs⟩ := costs_of_part ha (·.branch? t e) (fun a => .prim .ite [a, t, e])
      exact ⟨s, c, hs.congr fun n => step_ite⟩
    · have heach : ∃ ws c, Costs (fun n => (rules.whnfEach n args).1) ws c :=
        costs_whnfEach fun a ha => by
        obtain ⟨before, after, rfl⟩ := List.append_of_mem ha
        exact h (.operand op before after) a rfl
      obtain ⟨ws, c, hargs⟩ := heach
      obtain ⟨s, hs⟩ := costs_of_part hargs (fold op) (.prim op)
      exact ⟨s, c, hs.congr fun n => step_prim hb⟩

/-- On its own budget a term answers to evaluation. -/
structure Answering (rules : Rules) (t : Term) : Prop where
  whnf : ∃ w c, Costs (fun n => (rules.whnf n t).1) w c
  normalize : ∃ u c, Costs (fun n => (rules.normalize n t).1) u c

section

variable (hparts : ∀ (frame : Term.Frame) u, frame.fill u = t → rules.Answering u)
  (hreducts : ∀ u, TransGen rules.Reduces t u → rules.Answering u)

include hparts hreducts

theorem costs_whnf : ∃ w c, Costs (fun n => (rules.whnf n t).1) w c := by
  obtain ⟨s, c, hs⟩ := costs_step fun frame u hu => (hparts frame u hu).whnf
  cases s with
  | none => exact ⟨t, c, fun n hn => whnf_eq_some_iff.2 (.inl ⟨hs n hn, rfl⟩)⟩
  | some u =>
    obtain ⟨w, d, hw⟩ := (hreducts u (transGen_of_step (hs c (Nat.le_refl c)))).whnf
    refine ⟨w, c + 1 + d, fun n hn => whnf_eq_some_iff.2 (.inr ⟨u, n - c - 1, ?_, ?_⟩)⟩
    · rw [show n - c - 1 + 1 = n - c by omega]
      exact hs n (by omega)
    · rw [show n - (c + 1 + d) = n - c - 1 - d by omega]
      exact hw _ (by omega)

omit hreducts in
theorem costs_each (ts : List Term) (frame : List Term → List Term → Term.Frame)
    (hfill : ∀ before u after, ts = before ++ u :: after → (frame before after).fill u = t) :
    ∃ us c, Costs (fun n => (rules.normalizeEach n ts).1) us c :=
  costs_normalizeEach fun u hu => by
    obtain ⟨before, after, hts⟩ := List.append_of_mem hu
    exact (hparts (frame before after) u (hfill before u after hts)).normalize

theorem costs_rebuild (ht : rules.Stuck t) : ∃ u c, Costs (fun n => rules.rebuild n t) u c := by
  cases t with
  | var x => exact ⟨_, 0, fun n _ => rfl⟩
  | lit l => exact ⟨_, 0, fun n _ => rfl⟩
  | ann t ty => cases ht
  | lam x dom b =>
    obtain ⟨u, c, hb⟩ := (hparts (.body x dom) b rfl).normalize
    exact ⟨_, c, hb.map (Term.lam x dom)⟩
  | proj t i =>
    obtain ⟨u, c, ht⟩ := (hparts (.projected i) t rfl).normalize
    exact ⟨_, c, ht.map (Term.proj · i)⟩
  | app f a =>
    obtain ⟨u, c, hf⟩ := (hparts (.fn a) f rfl).normalize
    obtain ⟨v, d, ha⟩ := (hparts (.arg f) a rfl).normalize
    refine ⟨.app u v, c + d, ?_⟩
    exact hf.bind (g := fun u n => (rules.normalize n a).1.map fun q => (Term.app u q.1, q.2))
      (ha.map (Term.app u))
  | ctor x args =>
    obtain ⟨us, c, hargs⟩ := costs_each hparts args (.field x) fun _ _ _ h => by rw [h]; rfl
    exact ⟨_, c, hargs.map (Term.ctor x)⟩
  | tuple elems =>
    obtain ⟨us, c, helems⟩ := costs_each hparts elems .component fun _ _ _ h => by rw [h]; rfl
    exact ⟨_, c, helems.map Term.tuple⟩
  | elim x s args =>
    obtain ⟨u, c, hs⟩ := (hparts (.scrutinee x args) s rfl).normalize
    obtain ⟨us, d, hargs⟩ := costs_each hparts args (.rest x s) fun _ _ _ h => by rw [h]; rfl
    refine ⟨.elim x u us, c + d, ?_⟩
    exact hs.bind (g := fun u n => (rules.normalizeEach n args).1.map fun q =>
      (Term.elim x u q.1, q.2)) (hargs.map (Term.elim x u))
  | prim op args =>
    obtain ⟨us, c, hargs⟩ := costs_each hparts args (.operand op) fun _ _ _ h => by rw [h]; rfl
    cases hfold : fold op us with
    | none => exact ⟨.prim op us, c, fun n hn => by simp [rebuild, hargs n hn, hfold]⟩
    | some v =>
      obtain ⟨hlen, hus⟩ := normalizes_of_normalizeEach (hargs c (Nat.le_refl c))
      have hreaches :=
        (reachesEach hlen fun p hp => (hus p hp).reaches).lift (Term.prim op) fun _ _ =>
          Reduces.prim
      obtain ⟨u, d, hv⟩ := (hreducts v (.tail' hreaches (.here (.fold hfold)))).normalize
      refine ⟨u, c + 1 + d, fun n hn => ?_⟩
      obtain ⟨m, hm⟩ : ∃ m, n - c = m + 1 := ⟨n - c - 1, by omega⟩
      have hanswer := hv m (by omega)
      simp only [rebuild, hargs n (by omega), Option.bind_some, hfold, hm, hanswer]
      rw [show m - d = n - (c + 1 + d) by omega]

theorem Answering.of_below : rules.Answering t where
  whnf := costs_whnf hparts hreducts
  normalize := by
    obtain ⟨w, c, hw⟩ := costs_whnf hparts hreducts
    have hstuck := stuck_of_whnf (hw c (Nat.le_refl c))
    by_cases heq : w = t
    · subst heq
      obtain ⟨u, d, hu⟩ := costs_rebuild hparts hreducts hstuck
      exact ⟨u, d, hu.congr fun n => normalize_of_stuck hstuck⟩
    · have hbelow := transGen_of_reaches (runs_of_whnf (hw c (Nat.le_refl c))).reaches heq
      obtain ⟨u, d, hu⟩ := (hreducts w hbelow).normalize
      have hrebuild : Costs (fun n => rules.rebuild n w) u d :=
        hu.congr fun n => (normalize_of_stuck hstuck).symm
      exact ⟨u, c + d, (hw.bind (g := fun w n => rules.rebuild n w) hrebuild).congr fun n =>
        normalize_eq_bind⟩

end

theorem Terminates.answering (h : rules.Terminates t) : rules.Answering t := by
  have hbelow : Acc (TransGen rules.Below) t := (h.acc_below [] t rfl).transGen
  clear h
  induction hbelow with
  | intro t _ ih =>
    refine .of_below (fun frame u hu => ih u (.single (hu ▸ .part frame))) fun u hu => ih u ?_
    exact TransGen.mono (fun _ _ h => .reduct h) _ _ (Relation.transGen_swap.2 hu)

end Rules

namespace Evaluator

structure Settles (rules : Rules) (run : Evaluator → Except Error α × Evaluator) (a : α) :
    Prop where
  enough : ∃ n, ∀ r : Evaluator, r.rules = rules → n ≤ r.remaining → (run r).1 = .ok a
  only : ∀ (r : Evaluator) b, r.rules = rules → (run r).1 = .ok b → b = a

variable {rules : Rules} {question : Rules → Nat → Option (α × Nat)} {n k : Nat} {t : Term}

theorem Settles.ask (h : Metered (question rules)) (ha : question rules n = some (a, k)) :
    Settles rules (fun r => r.ask question) a where
  enough := by
    refine ⟨n, fun r hr hle => ?_⟩
    subst hr
    exact fst_ask_eq_ok_iff.2 ⟨_, h.answer_of_le ha (by omega)⟩
  only r b hr hb := by
    subst hr
    obtain ⟨m, hm⟩ := fst_ask_eq_ok_iff.1 hb
    -- both answers are those of the larger budget
    have hb' := h.answer_of_le (m := max n r.remaining) hm (by omega)
    have ha' := h.answer_of_le (m := max n r.remaining) ha (by omega)
    rw [ha', Option.some.injEq, Prod.mk.injEq] at hb'
    exact hb'.1.symm

theorem exists_settles (h : rules.Terminates t) : ∃ u, Settles rules (·.normalize t) u := by
  obtain ⟨u, c, hu⟩ := h.answering.normalize
  exact ⟨u, .ask Rules.metered_normalize (hu c (Nat.le_refl c))⟩

end Evaluator

end ClosedTypes
