import ClosedTypes.Proofs.Block.Validators
import ClosedTypes.Proofs.Term.Free
import ClosedTypes.Proofs.Typing.State
import ClosedTypes.Typing.Declarative
/-!
The checker is sound: what it says of a term holds by the typing rules, at every substitution that
agrees with what it has found out in the end. And it says the same in every extension of the
context.
-/

namespace ClosedTypes

structure Context.Shaped (ctx : Context) : Prop where
  constructor : ∀ {x d}, ctx.constructor x = .ok d → ∃ params, d.Shaped ctx params
  eliminator : ∀ {x d}, ctx.eliminator x = .ok d → ∃ params, d.Shaped ctx params

def Locals.fill (σ : UInt32 → Ty) (locals : Locals) : Locals :=
  locals.map fun p => (p.1, p.2.fill σ)

theorem Locals.type?_fill (σ : UInt32 → Ty) (locals : Locals) (x : Name) :
    (locals.fill σ).type? x = (locals.type? x).map (Ty.fill σ) := by
  unfold fill type?
  rw [List.find?_map]
  simp [Function.comp_def]

namespace Checker

variable {α : Type} {ctx ctx' : Context} {c c' c'' : Checker} {a : α} {σ : UInt32 → Ty} {t : Term}
  {ts : List Term} {ty : Ty}
  {mode : Mode}

/-- The run keeps the checker valid, goes the same way in every extension of the context, and
establishes `Q`. -/
structure Establishes (ctx : Context) (m : Context → Check α) (c : Checker) (a : α) (c' : Checker)
    (Q : (UInt32 → Ty) → Prop) :
    Prop where
  grows : c.Grows c'
  valid : c'.Valid ctx
  stable : ∀ {ctx'}, ctx.KnownBy ctx' → Answers (m ctx') c a c'
  holds : c'.solutions.size ≤ UInt32.size → ∀ σ, c'.Realizes σ → Q σ

theorem Establishes.later {m : Context → Check α} {Q : (UInt32 → Ty) → Prop}
    (h : Establishes ctx m c a c' Q)
    (hg : c'.Grows c'') (hs : c''.solutions.size ≤ UInt32.size) (hσ : c''.Realizes σ) : Q σ :=
  h.holds (Nat.le_trans hg.size hs) σ (hσ.of_grows hg)

/-- The checker judges `t` soundly, from every valid state and in both modes. -/
def Sound (ctx : Context) (t : Term) : Prop :=
  ∀ {c mode ty c'}, c.Valid ctx → mode.Within ctx c.solutions.size →
    Answers (judge ctx t mode) c ty c' →
    ty.Within ctx c'.solutions.size ∧
      Establishes ctx (judge · t mode) c ty c' fun σ =>
        HasType ctx (Locals.fill σ c.locals) t (ty.fill σ) ∧ mode.Meets σ ty

variable {op : Operator}

theorem Sound.inspect (ht : Sound ctx t) (hv : c.Valid ctx)
    (h : Answers (inspect ctx op (judge ctx t .infer)) c ty c') :
    ty.Within ctx c'.solutions.size ∧
      Establishes ctx (fun ctx => inspect ctx op (judge ctx t .infer)) c ty c' fun σ =>
        HasType ctx (Locals.fill σ c.locals) t (ty.fill σ) := by
  obtain ⟨u, hu, rfl, hp⟩ := answers_inspect.1 h
  obtain ⟨hw, hj⟩ := ht hv Mode.within_infer hu
  have hz := hj.valid.zonk hw
  refine ⟨hz, hj.grows, hj.valid, fun hc => answers_inspect.2 ⟨u, hj.stable hc, rfl, ?_⟩,
    fun hs σ hσ => ?_⟩
  · rw [Barrier.permitPrimitive_eq_ok_iff] at hp ⊢
    rw [Barrier.guarded?_eq_of_formed hz.formed hc, hp]
  · rw [hσ.fill_zonk]
    exact (hj.holds hs σ hσ).1

theorem Sound.checkOperand (ht : Sound ctx t) (hv : c.Valid ctx)
    (h : Answers (checkOperand ctx op t (judge ctx t .infer)) c () c') :
    Establishes ctx (fun ctx => checkOperand ctx op t (judge ctx t .infer)) c () c' fun σ =>
      HasType ctx (Locals.fill σ c.locals) t (.prim (operandType op)) := by
  obtain ⟨found, c₁, hi, hu⟩ := answers_checkOperand.1 h
  obtain ⟨hw, hj⟩ := ht.inspect hv hi
  obtain ⟨hg, hv', -, heq⟩ := hj.valid.unify hw (Ty.within_prim _) hu
  refine ⟨hj.grows.trans hg, hv', fun hc => answers_checkOperand.2 ⟨found, c₁, hj.stable hc, hu⟩,
    fun hs σ hσ => ?_⟩
  have htype := hj.later hg hs hσ
  rwa [heq rfl σ hσ] at htype

theorem Sound.checkEquality {u : Term} (ht : Sound ctx t) (hu : Sound ctx u) (hv : c.Valid ctx)
    (h : Answers (checkEquality ctx t u (judge ctx t .infer) (judge ctx u .infer)) c () c') :
    Establishes ctx (fun ctx => checkEquality ctx t u (judge ctx t .infer) (judge ctx u .infer)) c
      () c' fun σ =>
      HasType ctx (Locals.fill σ c.locals) (.prim .eq [t, u]) (.prim .bool) := by
  obtain ⟨l, c₁, r, c₂, c₃, hl, hr, heq, hcase⟩ := answers_checkEquality.1 h
  obtain ⟨hlw, hjl⟩ := ht.inspect hv hl
  obtain ⟨hrw, hjr⟩ := hu.inspect hjl.valid hr
  obtain ⟨hg, hv', -, hlr⟩ := hjr.valid.unify (hlw.mono hjr.grows.size) hrw heq
  have hg' : c₃.Grows c' := by
    rcases hcase with ⟨p, -, rfl⟩ | ⟨i, -, rfl⟩
    · exact .refl c₃
    · exact ⟨rfl, Nat.le_refl _, fun _ _ h => h, fun _ h => List.mem_append_left _ h⟩
  have hvalid : c'.Valid ctx := by
    rcases hcase with ⟨p, -, rfl⟩ | ⟨i, -, rfl⟩
    · exact hv'
    · exact ⟨hv'.acyclic, hv'.solutions, hv'.locals⟩
  -- whoever realizes the checker at the end knows that an operand type that was put off is
  -- primitive too
  have hprim {σ : UInt32 → Ty} (hσ : c'.Realizes σ) : ∃ p, l.fill σ = .prim p := by
    rw [← (hσ.of_grows hg').fill_zonk l]
    rcases hcase with ⟨p, hz, -⟩ | ⟨i, hz, rfl⟩
    · exact ⟨p, by rw [hz]; rfl⟩
    · rw [hz]
      exact hσ.equalities _ (List.mem_append_right _ List.mem_cons_self)
  refine ⟨((hjl.grows.trans hjr.grows).trans hg).trans hg', hvalid,
    fun hc => answers_checkEquality.2 ⟨l, c₁, r, c₂, c₃, hjl.stable hc, hjr.stable hc, heq, hcase⟩,
      fun hs σ hσ => ?_⟩
  obtain ⟨p, hp⟩ := hprim hσ
  have htl := hjl.later ((hjr.grows.trans hg).trans hg') hs hσ
  have htr := hjr.later (hg.trans hg') hs hσ
  rw [hp] at htl
  rw [hjl.grows.locals, ← hlr rfl σ (hσ.of_grows hg'), hp] at htr
  exact .eq htl htr

theorem establishes_inferAll {types : List Ty} (hts : ∀ t ∈ ts, Sound ctx t) (hv : c.Valid ctx)
    (h : Answers (inferAll ctx ts) c types c') :
    (∀ t ∈ types, t.Within ctx c'.solutions.size) ∧
      Establishes ctx (inferAll · ts) c types c' fun σ =>
        HasTypes ctx (Locals.fill σ c.locals) ts (types.map (Ty.fill σ)) := by
  induction ts generalizing c types with
  | nil =>
    obtain ⟨rfl, rfl⟩ := answers_inferAll_nil.1 h
    exact ⟨nofun, .refl c, hv, fun _ => answers_inferAll_nil.2 ⟨rfl, rfl⟩, fun _ _ _ => .nil⟩
  | cons t ts ih =>
    obtain ⟨ht, hts⟩ := List.forall_mem_cons.1 hts
    obtain ⟨u, c₁, us, hu, hus, rfl⟩ := answers_inferAll_cons.1 h
    obtain ⟨hw, hj⟩ := ht hv Mode.within_infer hu
    obtain ⟨hws, hjs⟩ := ih hts hj.valid hus
    refine ⟨List.forall_mem_cons.2 ⟨hw.mono hjs.grows.size, hws⟩,
      hj.grows.trans hjs.grows, hjs.valid, fun hc =>
        answers_inferAll_cons.2 ⟨u, c₁, us, hj.stable hc, hjs.stable hc, rfl⟩, fun hs σ hσ => ?_⟩
    have htail := hjs.holds hs σ hσ
    rw [hj.grows.locals] at htail
    exact .cons (hj.later hjs.grows hs hσ).1 htail

theorem establishes_checkAll {ds : List Ty} (hts : ∀ t ∈ ts, Sound ctx t)
    (hlen : ds.length = ts.length) (hv : c.Valid ctx)
    (hds : ∀ d ∈ ds, d.Within ctx c.solutions.size) (h : Answers (checkAll ctx ts ds) c () c') :
    Establishes ctx (checkAll · ts ds) c () c' fun σ =>
      HasTypes ctx (Locals.fill σ c.locals) ts (ds.map (Ty.fill σ)) := by
  induction ts generalizing c ds with
  | nil =>
    cases List.length_eq_zero_iff.1 hlen
    obtain ⟨-, rfl⟩ := answers_pure.1 h
    exact ⟨.refl c, hv, fun _ => answers_pure.2 ⟨rfl, rfl⟩, fun _ _ _ => .nil⟩
  | cons t ts ih =>
    cases ds with
    | nil => cases hlen
    | cons d ds =>
      obtain ⟨ht, hts⟩ := List.forall_mem_cons.1 hts
      obtain ⟨hd, hds⟩ := List.forall_mem_cons.1 hds
      obtain ⟨u, c₁, hu, hus⟩ := answers_checkAll_cons.1 h
      obtain ⟨-, hj⟩ := ht hv (show Mode.Within ctx _ (.check d) from hd) hu
      have hjs :=
        ih hts (Nat.succ.inj hlen) hj.valid (fun d hd => (hds d hd).mono hj.grows.size) hus
      refine ⟨hj.grows.trans hjs.grows, hjs.valid, fun hc =>
        answers_checkAll_cons.2 ⟨u, c₁, hj.stable hc, hjs.stable hc⟩,
        fun hs σ hσ => ?_⟩
      obtain ⟨htype, hmeets⟩ := hj.later hjs.grows hs hσ
      have htail := hjs.holds hs σ hσ
      rw [hj.grows.locals] at htail
      exact .cons ((show _ = d.fill σ from hmeets) ▸ htype) htail

theorem establishes_checkOperands (hts : ∀ t ∈ ts, Sound ctx t) (hv : c.Valid ctx)
    (h : Answers (checkOperands ctx op ts) c () c') :
    Establishes ctx (checkOperands · op ts) c () c' fun σ =>
      HasTypes ctx (Locals.fill σ c.locals) ts (.replicate ts.length (.prim (operandType op))) := by
  induction ts generalizing c with
  | nil =>
    obtain ⟨-, rfl⟩ := answers_pure.1 h
    exact ⟨.refl c, hv, fun _ => answers_pure.2 ⟨rfl, rfl⟩, fun _ _ _ => .nil⟩
  | cons t ts ih =>
    obtain ⟨ht, hts⟩ := List.forall_mem_cons.1 hts
    obtain ⟨c₁, hu, hus⟩ := answers_checkOperands_cons.1 h
    have hj := ht.checkOperand hv hu
    have hjs := ih hts hj.valid hus
    refine ⟨hj.grows.trans hjs.grows, hjs.valid, fun hc =>
      answers_checkOperands_cons.2 ⟨c₁, hj.stable hc, hjs.stable hc⟩,
      fun hs σ hσ => ?_⟩
    have htail := hjs.holds hs σ hσ
    rw [hj.grows.locals] at htail
    exact .cons (hj.later hjs.grows hs hσ) htail

def EndsIn (fields : Nat) (motive dom : Ty) : Prop := dom = .arrows (leadingDoms fields dom) motive

theorem establishes_judgeBranches {e : Name} {motive : Ty} {i : Nat} {ds : List Ty} {cs : List Name}
    (hts : ∀ t ∈ ts, Sound ctx t)
    (hlen : ds.length = ts.length) (hlen' : cs.length = ts.length) (hv : c.Valid ctx)
    (hds : ∀ d ∈ ds, d.Within ctx c.solutions.size) (hmotive : motive.Within ctx c.solutions.size)
    (hends : ∀ p ∈ ds.zip cs, ∀ decl, ctx.constructor p.2 = .ok decl →
      EndsIn decl.fields.length motive p.1)
    (h : Answers (judgeBranches ctx e motive i ts ds cs) c () c') :
    Establishes ctx (judgeBranches · e motive i ts ds cs) c () c' fun σ =>
      HasTypes ctx (Locals.fill σ c.locals) ts (ds.map (Ty.fill σ)) := by
  induction ts generalizing c ds cs i with
  | nil =>
    cases List.length_eq_zero_iff.1 hlen
    cases List.length_eq_zero_iff.1 hlen'
    obtain ⟨-, rfl⟩ := answers_pure.1 h
    exact ⟨.refl c, hv, fun _ => answers_pure.2 ⟨rfl, rfl⟩, fun _ _ _ => .nil⟩
  | cons t ts ih =>
    cases ds with
    | nil => cases hlen
    | cons d ds =>
      cases cs with
      | nil => cases hlen'
      | cons x cs =>
        obtain ⟨ht, hts⟩ := List.forall_mem_cons.1 hts
        obtain ⟨hd, hds⟩ := List.forall_mem_cons.1 hds
        rw [List.zip_cons_cons] at hends
        obtain ⟨hend, hends⟩ := List.forall_mem_cons.1 hends
        obtain ⟨decl, c₄, hdecl, hb, hus⟩ := answers_judgeBranches_cons.1 h
        obtain ⟨u, c₁, result, c₂, c₃, hu, hf, hunify, hunify'⟩ := answers_judgeBranch.1 hb
        have hdom : d = .arrows (leadingDoms decl.fields.length d) motive := hend decl hdecl
        obtain ⟨hw, hj⟩ := ht hv Mode.within_infer hu
        obtain ⟨hg₂, hv₂, -, -, hrw⟩ := hj.valid.fresh hf
        have hleading : ∀ b ∈ leadingDoms decl.fields.length d, b.Within ctx c₂.solutions.size :=
          fun b hb =>
          (hd.telescope.1 b (List.mem_of_mem_take hb)).mono (hj.grows.trans hg₂).size
        obtain ⟨hg₃, hv₃, -, heq⟩ :=
          hv₂.unify (hw.mono hg₂.size) (Ty.within_arrows.2 ⟨hleading, hrw⟩) hunify
        obtain ⟨hg₄, hv₄, -, heq'⟩ :=
          hv₃.unify (hrw.mono hg₃.size) (hmotive.mono ((hj.grows.trans hg₂).trans hg₃).size) hunify'
        have hg := ((hj.grows.trans hg₂).trans hg₃).trans hg₄
        have hjs :=
          ih hts (Nat.succ.inj hlen) (Nat.succ.inj hlen') hv₄ (fun d hd => (hds d hd).mono hg.size)
          (hmotive.mono hg.size) hends hus
        refine ⟨hg.trans hjs.grows, hjs.valid, fun hc =>
          answers_judgeBranches_cons.2 ⟨decl, c₄, hc.constructor hdecl,
          answers_judgeBranch.2 ⟨u, c₁, result, c₂, c₃, hj.stable hc, hf, hunify, hunify'⟩,
            hjs.stable hc⟩, fun hs σ hσ => ?_⟩
        have htype := (hj.later (((hg₂.trans hg₃).trans hg₄).trans hjs.grows) hs hσ).1
        have htail := hjs.holds hs σ hσ
        rw [hg.locals] at htail
        have hσ₄ := hσ.of_grows hjs.grows
        -- the branch was unified with the domain up to the motive, and what it returns with the
        -- motive afterwards
        have hfound : u.fill σ = d.fill σ := by
          rw [heq rfl σ (hσ₄.of_grows hg₄), Ty.fill, Ty.bind_arrows, ← Ty.fill, heq' rfl σ hσ₄]
          conv => rhs; rw [hdom]
          exact (Ty.bind_arrows _ _).symm
        exact .cons (hfound ▸ htype) htail

theorem establishes_settle {c₁ : Checker} {found : Ty} (hm : mode.Within ctx c.solutions.size)
    (hg : c.Grows c₁)
    (hv : c₁.Valid ctx) (hw : found.Within ctx c₁.solutions.size)
    (h : Answers (settle t found mode) c₁ ty c')
    (stable : ∀ {ctx'}, ctx.KnownBy ctx' → Answers (judge ctx' t mode) c ty c')
    (holds : ∀ c₂ σ, c₁.Grows c₂ → c₂.solutions.size ≤ UInt32.size → c₂.Realizes σ →
      HasType ctx (Locals.fill σ c.locals) t (found.fill σ)) :
    ty.Within ctx c'.solutions.size ∧
      Establishes ctx (judge · t mode) c ty c' fun σ =>
        HasType ctx (Locals.fill σ c.locals) t (ty.fill σ) ∧ mode.Meets σ ty := by
  obtain ⟨rfl, hg', hv', hw', hmeets⟩ := hv.settle hw (hm.mono hg.size) h
  exact ⟨hw', hg.trans hg', hv', stable, fun hs σ hσ => ⟨holds c' σ hg' hs hσ, hmeets σ hσ⟩⟩

theorem fill_of_checkWritten {u : Ty} (hu : checkWritten ctx u = .ok ()) : u.fill σ = u :=
  Ty.bind_eq_self (fun _ _ => rfl) fun i hi => by simp [(checkWritten_eq_ok_iff.1 hu).2 i] at hi

theorem sound_var (x : Name) : Sound ctx (.var x) := by
  intro c mode ty c' hv hm h
  obtain ⟨t, ht, hs⟩ := answers_judge_var.1 h
  have hmem : ∃ p ∈ c.locals, p.2 = t := by
    obtain ⟨p, hp, rfl⟩ := Option.map_eq_some_iff.1 ht
    exact ⟨p, List.mem_of_find?_eq_some hp, rfl⟩
  obtain ⟨p, hp, rfl⟩ := hmem
  refine establishes_settle hm (.refl c) hv (hv.locals p hp) hs (fun _ => h) fun c₂ σ _ _ _ =>
    .var ?_
  rw [Locals.type?_fill, show Locals.type? c.locals x = some p.2 from ht]
  rfl

theorem sound_lit (l : Literal) : Sound ctx (.lit l) := by
  intro c mode ty c' hv hm h
  exact establishes_settle hm (.refl c) hv (Ty.within_prim _) (answers_judge_lit.1 h)
    (fun _ => answers_judge_lit.2 (answers_judge_lit.1 h)) fun _ _ _ _ _ => .lit

theorem sound_app {f a : Term} (hf : Sound ctx f) (ha : Sound ctx a) : Sound ctx (.app f a) := by
  intro c mode ty c' hv hm h
  obtain ⟨t, c₁, d, co, c₂, d', c₃, hjf, hft, hja, hs⟩ := answers_judge_app.1 h
  obtain ⟨htw, hf⟩ := hf hv Mode.within_infer hjf
  obtain ⟨hg₂, hv₂, hdw, hcw, harrow⟩ := hf.valid.functionType htw hft
  obtain ⟨-, ha⟩ := ha hv₂ (show Mode.Within ctx _ (.check d) from hdw) hja
  have hg : c.Grows c₃ := (hf.grows.trans hg₂).trans ha.grows
  refine establishes_settle hm hg ha.valid (hcw.mono ha.grows.size) hs
    (fun hc => answers_judge_app.2 ⟨t, c₁, d, co, c₂, d', c₃, hf.stable hc, hft, ha.stable hc, hs⟩)
      fun c₄ σ hg₄ hs₄ hσ => ?_
  have hsize : c₂.solutions.size ≤ UInt32.size := Nat.le_trans (ha.grows.trans hg₄).size hs₄
  have htf := (hf.later (hg₂.trans (ha.grows.trans hg₄)) hs₄ hσ).1
  rw [harrow hsize σ (hσ.of_grows (ha.grows.trans hg₄))] at htf
  obtain ⟨hta, hmeets⟩ := ha.later hg₄ hs₄ hσ
  rw [show d'.fill σ = d.fill σ from hmeets, hg₂.locals, hf.grows.locals] at hta
  exact .app htf hta

theorem sound_ann {u : Ty} (ht : Sound ctx t) : Sound ctx (.ann t u) := by
  intro c mode ty c' hv hm h
  obtain ⟨hu, d, c₁, hj, hs⟩ := answers_judge_ann.1 h
  obtain ⟨-, ht⟩ := ht hv (show Mode.Within ctx _ (.check u) from Ty.within_of_checkWritten hu) hj
  refine establishes_settle hm ht.grows ht.valid (Ty.within_of_checkWritten hu) hs
    (fun hc => answers_judge_ann.2 ⟨checkWritten_mono hu hc, d, c₁, ht.stable hc, hs⟩)
      fun c₂ σ hg hs₂ hσ => ?_
  obtain ⟨htype, hmeets⟩ := ht.later hg hs₂ hσ
  rw [show d.fill σ = u.fill σ from hmeets, fill_of_checkWritten hu] at htype
  rw [fill_of_checkWritten hu]
  exact .ann hu htype

theorem sound_tuple (hts : ∀ t ∈ ts, Sound ctx t) : Sound ctx (.tuple ts) := by
  intro c mode ty c' hv hm h
  obtain ⟨found, c₁, hj, hs⟩ := answers_judge_tuple.1 h
  obtain ⟨hw, hts⟩ := establishes_inferAll hts hv hj
  refine establishes_settle hm hts.grows hts.valid (Ty.within_tuple.2 hw) hs
    (fun hc => answers_judge_tuple.2 ⟨found, c₁, hts.stable hc, hs⟩) fun c₂ σ hg hs₂ hσ => ?_
  rw [Ty.fill, Ty.bind_tuple]
  exact .tuple (hts.later hg hs₂ hσ)

theorem sound_proj {i : UInt64} (ht : Sound ctx t) : Sound ctx (.proj t i) := by
  intro c mode ty c' hv hm h
  obtain ⟨found, c₁, elems, elem, hj, hz, -, he, hs⟩ := answers_judge_proj.1 h
  obtain ⟨hw, ht⟩ := ht hv Mode.within_infer hj
  have hzw := hz ▸ ht.valid.zonk hw
  have hmem : elem ∈ elems := List.mem_of_getElem? he
  refine establishes_settle hm ht.grows ht.valid (Ty.within_tuple.1 hzw elem hmem) hs
    (fun hc => answers_judge_proj.2 ⟨found, c₁, elems, elem, ht.stable hc, hz,
      Barrier.permitProjection_eq_ok_iff.2 rfl, he, hs⟩)
    fun c₂ σ hg hs₂ hσ => ?_
  have htype := (ht.later hg hs₂ hσ).1
  rw [← (hσ.of_grows hg).fill_zonk found, hz, Ty.fill, Ty.bind_tuple] at htype
  exact .proj htype (by rw [List.getElem?_map, he]; rfl)

theorem sound_prim {op : Operator} (hts : ∀ t ∈ ts, Sound ctx t) : Sound ctx (.prim op ts) := by
  intro c mode ty c' hv hm h
  obtain ⟨hlen, hcase⟩ := answers_judge_prim.1 h
  rcases hcase with ⟨a, b, c₁, rfl, rfl, heq, hs⟩ | ⟨i, t, e, c₁, found, c₂, found', c₃,
    rfl, rfl, hi, ht, he, hs⟩ |
    ⟨c₁, hne, hni, hops, hs⟩
  · have ha : Sound ctx a := hts a (by simp)
    have hab := ha.checkEquality (hts b (by simp)) hv heq
    exact establishes_settle hm hab.grows hab.valid (Ty.within_prim _) hs
      (fun hc => answers_judge_prim.2 ⟨hlen, .inl ⟨a, b, c₁, rfl, rfl, hab.stable hc, hs⟩⟩)
      fun c₂ σ hg hs₂ hσ => hab.later hg hs₂ hσ
  · have hsi : Sound ctx i := hts i (by simp)
    have hji := hsi.checkOperand hv hi
    obtain ⟨hw, hjt⟩ := hts t (by simp) hji.valid Mode.within_infer ht
    obtain ⟨-, hje⟩ := hts e (by simp) hjt.valid (show Mode.Within ctx _ (.check found) from hw) he
    refine establishes_settle hm ((hji.grows.trans hjt.grows).trans hje.grows) hje.valid
      (hw.mono hje.grows.size) hs
      (fun hc =>
        answers_judge_prim.2
          ⟨hlen, .inr (.inl ⟨i, t, e, c₁, found, c₂, found', c₃, rfl, rfl, hji.stable hc,
        hjt.stable hc, hje.stable hc, hs⟩)⟩) fun c₄ σ hg hs₄ hσ => ?_
    have hi := hji.later ((hjt.grows.trans hje.grows).trans hg) hs₄ hσ
    have ht := (hjt.later (hje.grows.trans hg) hs₄ hσ).1
    obtain ⟨he, hmeets⟩ := hje.later hg hs₄ hσ
    rw [hji.grows.locals] at ht
    rw [hjt.grows.locals, hji.grows.locals, show found'.fill σ = found.fill σ from hmeets] at he
    exact .ite hi ht he
  · have hjs := establishes_checkOperands hts hv hops
    refine establishes_settle hm hjs.grows hjs.valid (Ty.within_prim _) hs
      (fun hc => answers_judge_prim.2 ⟨hlen, .inr (.inr ⟨c₁, hne, hni, hjs.stable hc, hs⟩)⟩)
        fun c₂ σ hg hs₂ hσ => ?_
    have htypes := hjs.later hg hs₂ hσ
    rw [hlen] at htypes
    exact .prim hne hni htypes

theorem Accepts.establishes {dom : Option Ty} {d : Ty} (hv : c.Valid ctx)
    (hd : d.Within ctx c.solutions.size) (h : Accepts ctx dom d c c') :
    c.Grows c' ∧ c'.Valid ctx ∧ (∀ {ctx'}, ctx.KnownBy ctx' → Accepts ctx' dom d c c') ∧
      ∀ σ, c'.Realizes σ → ∀ {locals x b co}, HasType ctx ((x, d.fill σ) :: locals) b co →
        HasType ctx locals (.lam x dom b) (.arrow (d.fill σ) co) := by
  cases dom with
  | none =>
    obtain rfl : c = c' := h
    exact ⟨.refl c, hv, fun _ => rfl, fun _ _ _ _ _ _ hb => .lam hb⟩
  | some written =>
    obtain ⟨hw, hu⟩ := h
    obtain ⟨hg, hv', -, heq⟩ := hv.unify (Ty.within_of_checkWritten hw) hd hu
    refine ⟨hg, hv', fun hc => ⟨checkWritten_mono hw hc, hu⟩, fun σ hσ _ _ _ _ hb => ?_⟩
    have hfill : d.fill σ = written := (heq rfl σ hσ).symm.trans (fill_of_checkWritten hw)
    rw [hfill] at hb ⊢
    exact .annotatedLam hw hb

theorem Supplies.establishes {dom : Option Ty} {d : Ty} (hv : c.Valid ctx)
    (h : Supplies ctx dom d c c') :
    c.Grows c' ∧ c'.Valid ctx ∧ d.Within ctx c'.solutions.size ∧
    (∀ {ctx'}, ctx.KnownBy ctx' → Supplies ctx' dom d c c') ∧
      ∀ σ {locals x b co}, HasType ctx ((x, d.fill σ) :: locals) b co →
        HasType ctx locals (.lam x dom b) (.arrow (d.fill σ) co) := by
  cases dom with
  | none =>
    obtain ⟨hg, hv', -, -, hw⟩ := hv.fresh h
    exact ⟨hg, hv', hw, fun _ => h, fun _ _ _ _ _ hb => .lam hb⟩
  | some written =>
    obtain ⟨hw, rfl, rfl⟩ := h
    refine ⟨.refl c, hv, Ty.within_of_checkWritten hw, fun hc =>
      ⟨checkWritten_mono hw hc, rfl, rfl⟩, fun σ _ _ _ _ hb => ?_⟩
    rw [fill_of_checkWritten hw] at hb ⊢
    exact .annotatedLam hw hb

theorem sound_lam {x : Name} {dom : Option Ty} (ht : Sound ctx t) : Sound ctx (.lam x dom t) := by
  intro c mode ty c' hv hm h
  by_cases harrow : ∃ expected d co, mode = .check expected ∧
    c.solutions.resolve expected = .arrow d co
  · obtain ⟨expected, d, co, rfl, hr⟩ := harrow
    obtain ⟨c₁, co', hacc, hbody, rfl⟩ := (answers_judge_lam_check hr).1 h
    obtain ⟨c₂, hbody', rfl⟩ := answers_withLocal.1 hbody
    have hw : (Ty.arrow d co).Within ctx c.solutions.size := hr ▸ hv.solutions.resolve hm
    obtain ⟨hdw, hcw⟩ := Ty.within_arrow.1 hw
    obtain ⟨hg, hv₁, hstable, hlam⟩ := hacc.establishes hv hdw
    obtain ⟨hw', ht⟩ :=
      ht (hv₁.push x (hdw.mono hg.size)) (show Mode.Within ctx _ (.check co) from hcw.mono hg.size)
        hbody'
    have hpop := ht.grows.pop
    refine ⟨Ty.within_arrow.2 ⟨hdw.mono (hg.trans hpop).size, hw'⟩, hg.trans hpop,
        ht.valid.pop, fun hc =>
      (answers_judge_lam_check hr).2
        ⟨c₁, co', hstable hc, answers_withLocal.2 ⟨c₂, ht.stable hc, rfl⟩, rfl⟩,
      fun hs σ hσ => ?_⟩
    obtain ⟨htype, hmeets⟩ := ht.holds hs σ hσ.unpop
    refine ⟨hlam σ (hσ.of_grows hpop) (hg.locals ▸ htype), ?_⟩
    change (Ty.arrow d co').fill σ = expected.fill σ
    rw [← (hσ.of_grows (hg.trans hpop)).satisfies.fill_resolve expected, hr]
    exact congrArg (Ty.arrow (d.fill σ)) hmeets
  · have hne (expected d co : Ty) (he : mode = .check expected) : c.solutions.resolve expected ≠
        .arrow d co :=
      fun hr => harrow ⟨expected, d, co, he, hr⟩
    obtain ⟨d, c₁, co, c₂, hsup, hbody, hs⟩ := (answers_judge_lam_infer hne).1 h
    obtain ⟨c₃, hbody', rfl⟩ := answers_withLocal.1 hbody
    obtain ⟨hg, hv₁, hdw, hstable, hlam⟩ := hsup.establishes hv
    obtain ⟨hw', ht⟩ := ht (hv₁.push x hdw) Mode.within_infer hbody'
    have hpop := ht.grows.pop
    refine establishes_settle hm (hg.trans hpop) ht.valid.pop
      (Ty.within_arrow.2 ⟨hdw.mono hpop.size, hw'⟩) hs
      (fun hc => (answers_judge_lam_infer hne).2
        ⟨d, c₁, co, _, hstable hc, answers_withLocal.2 ⟨c₃, ht.stable hc, rfl⟩, hs⟩)
      fun c₄ σ hg₄ hs₄ hσ => ?_
    have htype := (ht.holds (Nat.le_trans hg₄.size hs₄) σ (hσ.of_grows hg₄).unpop).1
    exact hlam σ (hg.locals ▸ htype)

theorem fill_subst {u : Ty} {m : Index Name Ty} (h : u.Within ctx 0) :
    (u.subst m).fill σ = u.subst (m.mapValues (Ty.fill σ)) := by
  rw [Ty.subst_eq_bind, Ty.subst_eq_bind, Ty.fill, Ty.bind_bind]
  refine Ty.bind_congr (fun x _ => ?_) fun i hi => absurd (h.bounded i hi) (Nat.not_lt_zero _)
  rw [Index.find?_mapValues]
  cases m.find? x <;> rfl

theorem map_fill_subst {us : List Ty} {m : Index Name Ty} (h : ∀ u ∈ us, u.Within ctx 0) :
    (us.map (·.subst m)).map (Ty.fill σ) = us.map (·.subst (m.mapValues (Ty.fill σ))) := by
  rw [List.map_map]
  exact List.map_congr_left fun u hu => fill_subst (h u hu)

theorem sound_ctor {x : Name} (hctx : ctx.Shaped) (hts : ∀ t ∈ ts, Sound ctx t) :
    Sound ctx (.ctor x ts) := by
  intro c mode ty c' hv hm h
  obtain ⟨decl, signature, c₁, c₂, hdecl, hcopy, hlen, hargs, hs⟩ := answers_judge_ctor.1 h
  obtain ⟨params, hshape⟩ := hctx.constructor hdecl
  obtain ⟨hg, hv₁, hw, m, rfl, hm'⟩ := hv.freshCopy hshape.written hcopy
  have hts := establishes_checkAll hts hlen hv₁ hw.telescope.1 hargs
  refine establishes_settle hm (hg.trans hts.grows) hts.valid
    (hw.telescope.2.mono hts.grows.size) hs
    (fun hc => answers_judge_ctor.2 ⟨decl, _, c₁, c₂, hc.constructor hdecl, hcopy, hlen,
      hts.stable hc, hs⟩)
    fun c₃ σ hg₃ hs₃ hσ => ?_
  have htypes := hts.later hg₃ hs₃ hσ
  have hwritten : (∀ d ∈ decl.fields, d.Within ctx 0) ∧ decl.signature.result.Within ctx 0 :=
    (Ty.within_of_checkWritten hshape.written).telescope
  have hdoms : (decl.signature.subst m).doms = decl.fields.map (·.subst m) :=
    congrArg Prod.fst (hm'.telescope _)
  have hresult : (decl.signature.subst m).result = decl.signature.result.subst m :=
    congrArg Prod.snd (hm'.telescope _)
  rw [hdoms, map_fill_subst hwritten.1, hg.locals] at htypes
  rw [hresult, fill_subst hwritten.2]
  exact .ctor _ hdecl htypes

theorem endsIn_branchType {decl : Constructor} {params : List Name} {motive : Name}
    {m : Index Name Ty} (hm : OntoMetavars m) :
    EndsIn decl.fields.length ((Ty.var motive).subst m)
      ((Validation.branchType decl params motive).subst m) := by
  have hflat := hm.doms_var motive
  unfold EndsIn leadingDoms Validation.branchType
  simp only [Ty.subst_eq_bind, Ty.bind_arrows] at hflat ⊢
  rw [Ty.doms, Ty.telescope_arrows hflat, List.take_of_length_le (by simp)]

theorem establishes_elimArgs {decl : Eliminator} {params : List Name} {m : Index Name Ty} {x : Name}
    (hshape : decl.Shaped ctx params) (hm : OntoMetavars m) (hts : ∀ t ∈ ts, Sound ctx t)
    (hv : c.Valid ctx)
    (hlen : decl.rest.length = ts.length)
    (hrest : ∀ d ∈ decl.rest, (d.subst m).Within ctx c.solutions.size)
    (hresult : (decl.result.subst m).Within ctx c.solutions.size)
    (h : Answers (if decl.isCaseAnalysis then
        judgeBranches ctx x (decl.result.subst m) 0 ts (decl.rest.map (·.subst m))
          (ctx.constructors decl.owner)
      else checkAll ctx ts (decl.rest.map (·.subst m))) c () c') :
    Establishes ctx (fun ctx' => if decl.isCaseAnalysis then
        judgeBranches ctx' x (decl.result.subst m) 0 ts (decl.rest.map (·.subst m))
          (ctx.constructors decl.owner)
      else checkAll ctx' ts (decl.rest.map (·.subst m))) c () c' fun σ =>
        HasTypes ctx (Locals.fill σ c.locals) ts ((decl.rest.map (·.subst m)).map (Ty.fill σ)) := by
  have hrest' : ∀ d ∈ decl.rest.map (·.subst m), d.Within ctx c.solutions.size :=
    List.forall_mem_map.2 hrest
  have hlen' : (decl.rest.map (·.subst m)).length = ts.length := (List.length_map _).trans hlen
  cases hmotive : decl.motive with
  | none =>
    have hcase : decl.isCaseAnalysis = false := by simp [Eliminator.isCaseAnalysis, hmotive]
    simp only [hcase, Bool.false_eq_true, if_false] at h ⊢
    exact establishes_checkAll hts hlen' hv hrest' h
  | some motive =>
    have hcase : decl.isCaseAnalysis = true := by simp [Eliminator.isCaseAnalysis, hmotive]
    simp only [hcase, if_true] at h ⊢
    obtain ⟨hres, -, hcount, hbranches⟩ := hshape.case motive hmotive
    refine establishes_judgeBranches hts hlen' (hcount.symm.trans hlen) hv hrest' hresult ?_ h
    intro p hp cdecl hcdecl
    rw [List.zip_map_left, List.mem_map] at hp
    obtain ⟨q, hq, rfl⟩ := hp
    obtain ⟨cdecl', hcdecl', hbranch⟩ := hbranches q hq
    cases hcdecl.symm.trans hcdecl'
    rw [hres, Prod.map_fst, hbranch]
    exact endsIn_branchType hm

theorem sound_elim {x : Name} {s : Term} (hctx : ctx.Shaped) (hs : Sound ctx s)
    (hts : ∀ t ∈ ts, Sound ctx t) :
    Sound ctx (.elim x s ts) := by
  intro c mode ty c' hv hm h
  obtain ⟨decl, t, c₁, signature, c₂, scrutinee, rest, c₃, c₄, hdecl, hj, hp, hcopy, hdoms,
      hu, hlen, hargs, hsettle⟩ :=
    answers_judge_elim.1 h
  obtain ⟨params, hshape⟩ := hctx.eliminator hdecl
  obtain ⟨htw, hs⟩ := hs hv Mode.within_infer hj
  have hz := hs.valid.zonk htw
  obtain ⟨hg₂, hv₂, hw, m, rfl, hm'⟩ := hs.valid.freshCopy hshape.written hcopy
  have hresult : (decl.signature.subst m).result = decl.result.subst m :=
    congrArg Prod.snd (hm'.telescope _)
  have hsplit : decl.signature.doms.map (·.subst m) = scrutinee :: rest :=
    (congrArg Prod.fst (hm'.telescope decl.signature)).symm.trans hdoms
  obtain ⟨scrutinee₀, rest₀, hdoms₀, rfl, rfl⟩ := List.map_eq_cons_iff.1 hsplit
  have hrest₀ : decl.rest = rest₀ := congrArg List.tail hdoms₀
  have hscrutinee₀ : decl.scrutinee? = some scrutinee₀ := congrArg List.head? hdoms₀
  have hparts := hw.telescope
  rw [hdoms, hresult, List.forall_mem_cons, List.forall_mem_map, ← hrest₀] at hparts
  obtain ⟨⟨hscrutinee, hrest⟩, hresultw⟩ := hparts
  obtain ⟨hg₃, hv₃, -, heq⟩ := hv₂.unify (hz.mono hg₂.size) hscrutinee hu
  rw [← hrest₀] at hargs hlen
  rw [hresult] at hargs hsettle
  rw [List.length_map] at hlen
  have hts := establishes_elimArgs hshape hm' hts hv₃ hlen (fun d hd => (hrest d hd).mono hg₃.size)
    (hresultw.mono hg₃.size) hargs
  have hg : c₁.Grows c₄ := (hg₂.trans hg₃).trans hts.grows
  refine establishes_settle hm (hs.grows.trans hg) hts.valid
    (hresultw.mono (hg₃.trans hts.grows).size) hsettle (fun hc => ?_)
    fun c₅ σ hg₅ hs₅ hσ => ?_
  · refine answers_judge_elim.2 ⟨decl, t, c₁, _, c₂, _, _, c₃, c₄, hc.eliminator hdecl,
      hs.stable hc, ?_, hcopy, hdoms, hu, by
        rw [List.length_map, ← hrest₀, hlen], ?_, by rw [hresult]; exact hsettle⟩
    · rw [Barrier.permitElimination_eq_ok_iff] at hp ⊢
      rw [Barrier.guarded?_eq_of_formed hz.formed hc]
      exact hp
    · obtain ⟨d, hd, -⟩ := hshape.arity
      rw [hresult, ← hrest₀, hc.constructors hd]
      exact hts.stable hc
  · have hwritten : (∀ d ∈ decl.signature.doms, d.Within ctx 0) ∧ decl.result.Within ctx 0 :=
      (Ty.within_of_checkWritten hshape.written).telescope
    rw [hdoms₀, List.forall_mem_cons, ← hrest₀] at hwritten
    have htype := (hs.later (hg.trans hg₅) hs₅ hσ).1
    have htypes := hts.later hg₅ hs₅ hσ
    have hfound : t.fill σ = scrutinee₀.subst (m.mapValues (Ty.fill σ)) := by
      rw [← fill_subst hwritten.1.1, ← heq rfl σ (hσ.of_grows (hts.grows.trans hg₅)),
        (hσ.of_grows (hg.trans hg₅)).fill_zonk]
    rw [hfound] at htype
    rw [map_fill_subst hwritten.1.2, (hg₂.trans hg₃).locals, hs.grows.locals] at htypes
    rw [fill_subst hwritten.2]
    exact .elim _ hdecl hscrutinee₀ htype htypes

/-- The checker is sound on all terms. -/
theorem sound (hctx : ctx.Shaped) (t : Term) : Sound ctx t := by
  induction t with
  | var x => exact sound_var x
  | app f a ihf iha => exact sound_app ihf iha
  | lam x dom b ih => exact sound_lam ih
  | ann t u ih => exact sound_ann ih
  | ctor x ts ih => exact sound_ctor hctx ih
  | elim x s ts ihs ih => exact sound_elim hctx ihs ih
  | lit l => exact sound_lit l
  | prim op ts ih => exact sound_prim ih
  | tuple ts ih => exact sound_tuple ih
  | proj t i ih => exact sound_proj ih

end Checker

end ClosedTypes
