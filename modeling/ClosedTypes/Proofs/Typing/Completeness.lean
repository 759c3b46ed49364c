import ClosedTypes.Proofs.Term.Subterms
import ClosedTypes.Proofs.Typing.Inference
import ClosedTypes.Proofs.Typing.Realization
/-!
The checker is complete on terms without projections: what has a type by the rules is judged, at a
type that has this one as an instance.
-/

namespace ClosedTypes.Checker

variable {ctx : Context} {c c' : Checker} {σ σ' : UInt32 → Ty} {t type : Ty} {mode : Mode}
  {s : Term} {ts : List Term}

/-- The checker judges `s`, from every state that is ready and in both modes, at each type that
`s` has. -/
def Complete (ctx : Context) (s : Term) : Prop :=
  ∀ ⦃σ c mode type⦄, Ready ctx σ c → mode.Within ctx c.solutions.size → mode.Expects σ type →
    HasType ctx (Locals.fill σ c.locals) s type →
      Completes ctx σ c (judge ctx s mode) (Delivers ctx type)

theorem Complete.infer (hs : Complete ctx s) (h : Ready ctx σ c)
    (htype : HasType ctx (Locals.fill σ c.locals) s type) :
    Completes ctx σ c (judge ctx s .infer) (Delivers ctx type) := hs h trivial trivial htype

theorem Complete.check (hs : Complete ctx s) (h : Ready ctx σ c) (ht : Delivers ctx type t c σ)
    (htype : HasType ctx (Locals.fill σ c.locals) s type) :
    Completes ctx σ c (judge ctx s (.check t)) (Delivers ctx type) :=
  hs h ht.1 ht.2 htype

theorem Continues.locals (h : Continues c σ c' σ') (hv : c.Valid ctx) :
    Locals.fill σ' c'.locals = Locals.fill σ c.locals := by
  rw [h.grows.locals]
  exact List.map_congr_left fun p hp => congrArg (Prod.mk p.1) (h.fill (hv.locals p hp))

theorem Continues.hasType (hc : Continues c σ c' σ') (h : Ready ctx σ c)
    (htype : HasType ctx (Locals.fill σ c.locals) s type) :
    HasType ctx (Locals.fill σ' c'.locals) s type := by
  rwa [hc.locals h.valid]

theorem Continues.hasTypes {types : List Ty} (hc : Continues c σ c' σ') (h : Ready ctx σ c)
    (htypes : HasTypes ctx (Locals.fill σ c.locals) ts types) :
    HasTypes ctx (Locals.fill σ' c'.locals) ts types := by
  rwa [hc.locals h.valid]

section

variable {op : Operator} {p : Prim}

theorem Completes.inspect {operand : Check Ty}
    (h : Completes ctx σ c operand (Delivers ctx (.prim p))) :
    Completes ctx σ c (inspect ctx op operand) (Delivers ctx (.prim p)) := by
  refine h.bind fun t c' σ' _ h' ht => .look (answers_zonk.2 ⟨rfl, rfl⟩) ?_
  have hz : (c'.solutions.zonk t).fill σ' = .prim p := (h'.realizes.fill_zonk t).trans ht.2
  have hpermit : Barrier.permitPrimitive ctx op (c'.solutions.zonk t) = .ok () := by
    rcases prim_or_metavar_of_fill hz with h | ⟨i, h⟩ <;> rw [h] <;> rfl
  exact .look (answers_lift.2 ⟨hpermit, rfl⟩) (h'.pure ⟨h'.valid.zonk ht.1, hz⟩)

theorem Completes.checkOperand {operand : Check Ty}
    (h : Completes ctx σ c operand (Delivers ctx (.prim (operandType op)))) :
    Completes ctx σ c (checkOperand ctx op s operand) fun _ _ _ => True :=
  h.inspect.bind fun _ _ _ _ h' ht => h'.unify_bind ht.1 (Ty.within_prim _) ht.2 fun _ _ h'' =>
    h''.pure trivial

theorem Ready.checkEquality {a b : Term} (h : Ready ctx σ c) (ha : Complete ctx a)
    (hb : Complete ctx b)
    (hta : HasType ctx (Locals.fill σ c.locals) a (.prim p))
    (htb : HasType ctx (Locals.fill σ c.locals) b (.prim p)) :
    Completes ctx σ c (checkEquality ctx a b (judge ctx a .infer) (judge ctx b .infer)) fun _ _ _ =>
      True := by
  have := makes_compared (r := .growth) a
  refine (ha.infer h hta).inspect.bind fun l c₁ σ₁ hc₁ h₁ hl => ?_
  refine (hb.infer h₁ (hc₁.hasType h htb)).inspect.bind fun r c₂ σ₂ hc₂ h₂ hr => ?_
  have hl := hl.later hc₂
  refine h₂.unify_bind hl.1 hr.1 (hl.2.trans hr.2.symm) fun c₃ hc₃ h₃ =>
    .look (answers_zonk.2 ⟨rfl, rfl⟩) ?_
  have hl := hl.later hc₃
  have hz : (c₃.solutions.zonk l).fill σ₂ = .prim p := (h₃.realizes.fill_zonk l).trans hl.2
  have hw := h₃.valid.zonk hl.1
  rcases prim_or_metavar_of_fill hz with hprim | ⟨i, hi⟩
  · rw [hprim]
    exact h₃.pure trivial
  · rw [hi] at hz hw ⊢
    exact fun _ => ⟨(), _, σ₂, answers_modify.2 rfl, ⟨Progress.growth.defer _ _, fun _ _ => rfl⟩,
      h₃.defer hw hz, trivial⟩

theorem Ready.checkOperands (h : Ready ctx σ c) (hts : ∀ s ∈ ts, Complete ctx s)
    (htypes : ∀ s ∈ ts, HasType ctx (Locals.fill σ c.locals) s (.prim (operandType op))) :
    Completes ctx σ c (checkOperands ctx op ts) fun _ _ _ => True := by
  induction ts generalizing c σ with
  | nil =>
    rw [Checker.checkOperands]
    exact h.pure trivial
  | cons s ts ih =>
    obtain ⟨hs, hts⟩ := List.forall_mem_cons.1 hts
    obtain ⟨htype, htypes⟩ := List.forall_mem_cons.1 htypes
    rw [Checker.checkOperands]
    exact (hs.infer h htype).checkOperand.bind fun _ c₁ σ₁ hc₁ h₁ _ =>
      ih h₁ hts fun s hs => hc₁.hasType h (htypes s hs)

end

theorem Ready.inferAll {types : List Ty} (h : Ready ctx σ c) (hts : ∀ s ∈ ts, Complete ctx s)
    (htypes : HasTypes ctx (Locals.fill σ c.locals) ts types) :
    Completes ctx σ c (inferAll ctx ts) fun found c' σ' =>
      (∀ t ∈ found, t.Within ctx c'.solutions.size) ∧ found.map (Ty.fill σ') = types := by
  induction ts generalizing c σ types with
  | nil =>
    cases htypes
    rw [Checker.inferAll]
    exact h.pure ⟨nofun, rfl⟩
  | cons s ts ih =>
    obtain ⟨hs, hts⟩ := List.forall_mem_cons.1 hts
    cases htypes with
    | cons htype htypes =>
      rw [Checker.inferAll]
      refine (hs.infer h htype).bind fun t c₁ σ₁ hc₁ h₁ ht =>
        (ih h₁ hts (hc₁.hasTypes h htypes)).bind fun found c₂ σ₂ hc₂ h₂ ⟨hw, hfound⟩ => ?_
      have ht := ht.later hc₂
      exact h₂.pure ⟨List.forall_mem_cons.2 ⟨ht.1, hw⟩, congrArg₂ List.cons ht.2 hfound⟩

theorem Ready.checkAll {ds : List Ty} (h : Ready ctx σ c) (hts : ∀ s ∈ ts, Complete ctx s)
    (hds : ∀ d ∈ ds, d.Within ctx c.solutions.size)
    (htypes : HasTypes ctx (Locals.fill σ c.locals) ts (ds.map (Ty.fill σ))) :
    Completes ctx σ c (checkAll ctx ts ds) fun _ _ _ => True := by
  induction ts generalizing c σ ds with
  | nil => exact h.pure trivial
  | cons s ts ih =>
    obtain ⟨hs, hts⟩ := List.forall_mem_cons.1 hts
    cases ds with
    | nil => cases htypes
    | cons d ds =>
      obtain ⟨hd, hds⟩ := List.forall_mem_cons.1 hds
      cases htypes with
      | cons htype htypes =>
        rw [Checker.checkAll]
        refine (hs.check h ⟨hd, rfl⟩ htype).bind fun _ c₁ σ₁ hc₁ h₁ _ => ?_
        refine ih h₁ hts (fun d hd => hc₁.within (hds d hd)) ?_
        rw [hc₁.map_fill hds]
        exact hc₁.hasTypes h htypes

theorem Ready.judgeBranch {e : Name} {i fields : Nat} {dom motive : Ty} (h : Ready ctx σ c)
    (hs : Complete ctx s)
    (hdom : dom.Within ctx c.solutions.size) (hmotive : motive.Within ctx c.solutions.size)
    (hends : EndsIn fields motive dom)
    (htype : HasType ctx (Locals.fill σ c.locals) s (dom.fill σ)) :
    Completes ctx σ c (judgeBranch e i s dom fields motive (judge ctx s .infer)) fun _ _ _ =>
      True := by
  refine (hs.infer h htype).bind fun found c₁ σ₁ hc₁ h₁ hf => ?_
  refine (h₁.fresh (motive.fill σ)).bind fun result c₂ σ₂ hc₂ h₂ hr => ?_
  have hc := hc₁.trans hc₂
  have hf := hf.later hc₂
  have hleading : ∀ d ∈ leadingDoms fields dom, d.Within ctx c.solutions.size := fun d hd =>
    hdom.telescope.1 d (List.mem_of_mem_take hd)
  -- what the branch returns is still open, and stands for the motive
  have hfound : found.fill σ₂ = (Ty.arrows (leadingDoms fields dom) result).fill σ₂ :=
    calc found.fill σ₂ = dom.fill σ := hf.2
      _ = (Ty.arrows (leadingDoms fields dom) motive).fill σ := congrArg (Ty.fill σ) hends
      _ = .arrows ((leadingDoms fields dom).map (Ty.fill σ)) (motive.fill σ) := Ty.bind_arrows _ _
      _ = .arrows ((leadingDoms fields dom).map (Ty.fill σ₂)) (result.fill σ₂) := by
        rw [hc.map_fill hleading, hr.2]
      _ = (Ty.arrows (leadingDoms fields dom) result).fill σ₂ := (Ty.bind_arrows _ _).symm
  refine h₂.unify_bind hf.1 (Ty.within_arrows.2 ⟨fun d hd => hc.within (hleading d hd), hr.1⟩)
    hfound fun c₃ hc₃ h₃ => ?_
  have hmotive' := (hc.trans hc₃).fill hmotive
  refine h₃.unify_bind (hc₃.within hr.1) ((hc.trans hc₃).within hmotive)
    (hr.2.trans hmotive'.symm) fun c₄ _ h₄ => ?_
  exact h₄.pure trivial

theorem Ready.judgeBranches {e : Name} {i : Nat} {motive : Ty} {ds : List Ty} {cs : List Name}
    (h : Ready ctx σ c)
    (hts : ∀ s ∈ ts, Complete ctx s) (hds : ∀ d ∈ ds, d.Within ctx c.solutions.size)
    (hmotive : motive.Within ctx c.solutions.size)
    (hends : ∀ p ∈ ds.zip cs, ∃ decl, ctx.constructor p.2 = .ok decl ∧
      EndsIn decl.fields.length motive p.1)
    (htypes : HasTypes ctx (Locals.fill σ c.locals) ts (ds.map (Ty.fill σ))) :
    Completes ctx σ c (judgeBranches ctx e motive i ts ds cs) fun _ _ _ => True := by
  induction ts generalizing c σ ds cs i with
  | nil => exact h.pure trivial
  | cons s ts ih =>
    obtain ⟨hs, hts⟩ := List.forall_mem_cons.1 hts
    cases ds with
    | nil => cases htypes
    | cons d ds =>
      cases cs with
      | nil => exact h.pure trivial
      | cons x cs =>
        obtain ⟨hd, hds⟩ := List.forall_mem_cons.1 hds
        obtain ⟨⟨decl, hdecl, hend⟩, hends⟩ := List.forall_mem_cons.1 hends
        cases htypes with
        | cons htype htypes =>
          rw [Checker.judgeBranches]
          refine .look (answers_lift.2 ⟨hdecl, rfl⟩) ?_
          refine (h.judgeBranch hs hd hmotive hend htype).bind fun _ c₁ σ₁ hc₁ h₁ _ => ?_
          refine ih h₁ hts (fun d hd => hc₁.within (hds d hd)) (hc₁.within hmotive) hends ?_
          rw [hc₁.map_fill hds]
          exact hc₁.hasTypes h htypes

theorem complete_var (x : Name) : Complete ctx (.var x) := by
  intro σ c mode type h hw hm htype
  cases htype with
  | var hx =>
    rw [Locals.type?_fill] at hx
    obtain ⟨t, ht, rfl⟩ := Option.map_eq_some_iff.1 hx
    obtain ⟨p, hp, rfl⟩ := Option.map_eq_some_iff.1 ht
    rw [judge]
    exact .look (answers_localType?.2 ⟨ht, rfl⟩)
      (h.settle (h.valid.locals p (List.mem_of_find?_eq_some hp)) rfl hw hm)

theorem complete_lit (l : Literal) : Complete ctx (.lit l) := by
  intro σ c mode type h hw hm htype
  cases htype
  rw [judge]
  exact h.settle (Ty.within_prim _) rfl hw hm

theorem complete_app {f a : Term} (hf : Complete ctx f) (ha : Complete ctx a) :
    Complete ctx (.app f a) := by
  intro σ c mode type h hw hm htype
  cases htype with
  | app htf hta =>
    rw [judge]
    refine (hf.infer h htf).bind fun t c₁ σ₁ hc₁ h₁ ht => ?_
    refine (h₁.functionType ht.1 ht.2).bind fun ⟨d, co⟩ c₂ σ₂ hc₂ h₂ ⟨hd, hco⟩ => ?_
    have hc := hc₁.trans hc₂
    refine (ha.check h₂ hd (hc.hasType h hta)).adapt.bind fun _ c₃ σ₃ hc₃ h₃ _ => ?_
    exact (hc.trans hc₃).settle h₃ (hco.later hc₃) hw hm

theorem hasType_lam_inv {x : Name} {dom : Option Ty} {b : Term} {locals : Locals}
    (h : HasType ctx locals (.lam x dom b) type) :
    ∃ d co, type = .arrow d co ∧
    (∀ written, dom = some written → written = d ∧ checkWritten ctx written = .ok ()) ∧
      HasType ctx ((x, d) :: locals) b co := by
  cases h with
  | lam hb => exact ⟨_, _, rfl, nofun, hb⟩
  | annotatedLam hw hb =>
    refine ⟨_, _, rfl, fun written e => ?_, hb⟩
    cases e
    exact ⟨rfl, hw⟩

theorem complete_lam {x : Name} {dom : Option Ty} {b : Term} (hb : Complete ctx b) :
    Complete ctx (.lam x dom b) := by
  intro σ c mode type h hw hm htype
  obtain ⟨d, co, rfl, hdom, htb⟩ := hasType_lam_inv htype
  have body {c₁ : Checker} {σ₁ : UInt32 → Ty} {t : Ty} (mode : Mode) (hc₁ : Continues c σ c₁ σ₁)
      (h₁ : Ready ctx σ₁ c₁)
      (ht : Delivers ctx d t c₁ σ₁) (hw : mode.Within ctx c₁.solutions.size)
        (hm : mode.Expects σ₁ co) :
      Completes ctx σ₁ c₁ (Checker.withLocal x t (judge ctx b mode)) (Delivers ctx co) := by
    refine Completes.withLocal (hb (h₁.push x ht.1) hw hm ?_)
    have hlocals : Locals.fill σ₁ ((x, t) :: c₁.locals) = (x, d) :: Locals.fill σ c.locals :=
      congrArg₂ List.cons (congrArg (Prod.mk x) ht.2) (hc₁.locals h.valid)
    rw [hlocals]
    exact htb
  rw [judge]
  by_cases harrow : ∃ expected d' co', mode = .check expected ∧
    c.solutions.resolve expected = .arrow d' co'
  · obtain ⟨expected, d', co', rfl, hr⟩ := harrow
    have hwa : (Ty.arrow d' co').Within ctx c.solutions.size := hr ▸ h.valid.solutions.resolve hw
    obtain ⟨hwd, hwco⟩ := Ty.within_arrow.1 hwa
    have hfill : (Ty.arrow d' co').fill σ = .arrow d co := by
      rw [← hr, h.realizes.satisfies.fill_resolve]
      exact hm
    obtain ⟨heqd, heqco⟩ := Ty.arrow.inj hfill
    have checked {c₁ : Checker} (hc₁ : Continues c σ c₁ σ) (h₁ : Ready ctx σ c₁) :
        Completes ctx σ c₁
          (do return .arrow d' (← Checker.withLocal x d' (judge ctx b (.check co'))))
          (Delivers ctx (.arrow d co)) := by
      refine (body (.check co') hc₁ h₁ ⟨hc₁.within hwd, heqd⟩ (hc₁.within hwco) heqco).bind
        fun u c₂ σ₂ hc₂ h₂ hu => h₂.pure ?_
      have hc := hc₁.trans hc₂
      exact ⟨Ty.within_arrow.2 ⟨hc.within hwd, hu.1⟩,
        congrArg₂ Ty.arrow ((hc.fill hwd).trans heqd) hu.2⟩
    refine .look ((answers_expectedArrow?_of_arrow hr).2 ⟨rfl, rfl⟩) ?_
    cases dom with
    | none => exact checked (.refl c σ) h
    | some written =>
      obtain ⟨rfl, hwritten⟩ := hdom written rfl
      refine .look (answers_lift.2 ⟨hwritten, rfl⟩) ?_
      have heq : written.fill σ = d'.fill σ := (fill_of_checkWritten hwritten).trans heqd.symm
      exact h.unify_bind (Ty.within_of_checkWritten hwritten) hwd heq fun c₁ hc₁ h₁ =>
        checked hc₁ h₁
  · have inferred {c₁ : Checker} {σ₁ : UInt32 → Ty} {t : Ty} (hc₁ : Continues c σ c₁ σ₁)
        (h₁ : Ready ctx σ₁ c₁)
        (ht : Delivers ctx d t c₁ σ₁) :
        Completes ctx σ₁ c₁ (do
          let co' ← Checker.withLocal x t (judge ctx b .infer)
          Checker.settle (.lam x dom b) (.arrow t co') mode) (Delivers ctx (.arrow d co)) := by
      refine (body .infer hc₁ h₁ ht trivial trivial).bind fun u c₂ σ₂ hc₂ h₂ hu => ?_
      have ht := ht.later hc₂
      exact (hc₁.trans hc₂).settle h₂ ⟨Ty.within_arrow.2 ⟨ht.1, hu.1⟩, congrArg₂ Ty.arrow ht.2 hu.2⟩
        hw hm
    have hne (expected d' co' : Ty) (he : mode = .check expected) : c.solutions.resolve expected ≠
        .arrow d' co' :=
      fun hr => harrow ⟨expected, d', co', he, hr⟩
    refine .look ((answers_expectedArrow?_of_ne hne).2 ⟨rfl, rfl⟩) ?_
    cases dom with
    | none =>
      exact (h.fresh d).bind fun t c₁ σ₁ hc₁ h₁ ht =>
        inferred hc₁ h₁ ht
    | some written =>
      obtain ⟨rfl, hwritten⟩ := hdom written rfl
      refine .look (answers_lift.2 ⟨hwritten, rfl⟩) (.look (answers_pure.2 ⟨rfl, rfl⟩) ?_)
      exact inferred (.refl c σ) h ⟨Ty.within_of_checkWritten hwritten,
        fill_of_checkWritten hwritten⟩

theorem complete_ann {written : Ty} (hs : Complete ctx s) : Complete ctx (.ann s written) := by
  intro σ c mode type h hw hm htype
  cases htype with
  | ann hwritten hts =>
    have ht : Delivers ctx written written c σ :=
      ⟨Ty.within_of_checkWritten hwritten, fill_of_checkWritten hwritten⟩
    rw [judge]
    refine .look (answers_lift.2 ⟨hwritten, rfl⟩)
      ((hs.check h ht hts).bind fun _ c₁ σ₁ hc₁ h₁ _ => ?_)
    exact hc₁.settle h₁ (ht.later hc₁) hw hm

theorem complete_tuple (hts : ∀ s ∈ ts, Complete ctx s) : Complete ctx (.tuple ts) := by
  intro σ c mode type h hw hm htype
  cases htype with
  | tuple htypes =>
    rw [judge]
    refine (h.inferAll hts htypes).bind fun found c₁ σ₁ hc₁ h₁ ⟨hwf, hfound⟩ => ?_
    refine hc₁.settle h₁ ⟨Ty.within_tuple.2 hwf, ?_⟩ hw hm
    rw [Ty.fill, Ty.bind_tuple]
    exact congrArg Ty.tuple hfound

theorem complete_prim {op : Operator} (hts : ∀ s ∈ ts, Complete ctx s) :
    Complete ctx (.prim op ts) := by
  intro σ c mode type h hw hm htype
  cases htype with
  | prim heq hite htypes =>
    have hlen := htypes.length_eq
    rw [List.length_replicate] at hlen
    rw [judge, if_neg (not_not.2 hlen)]
    · exact (h.checkOperands hts htypes.forall_replicate).bind fun _ c₁ σ₁ hc₁ h₁ _ =>
        hc₁.settle h₁ ⟨Ty.within_prim _, rfl⟩ hw hm
    · exact fun _ _ hop _ => heq hop
    · exact fun _ _ _ hop _ => hite hop
  | @eq _ a b p hta htb =>
    rw [judge, if_neg (by simp [Operator.arity])]
    exact (h.checkEquality (hts a (by simp)) (hts b (by simp)) hta htb).bind fun _ c₁ σ₁ hc₁ h₁ _ =>
      hc₁.settle h₁ ⟨Ty.within_prim _, rfl⟩ hw hm
  | @ite _ i t e _ hti htt hte =>
    rw [judge, if_neg (by simp [Operator.arity])]
    have hi : Complete ctx i := hts i (by simp)
    have ht : Complete ctx t := hts t (by simp)
    have he : Complete ctx e := hts e (by simp)
    refine (hi.infer h hti).checkOperand.bind fun _ c₁ σ₁ hc₁ h₁ _ => ?_
    refine (ht.infer h₁ (hc₁.hasType h htt)).bind fun found c₂ σ₂ hc₂ h₂ hf => ?_
    have hc := hc₁.trans hc₂
    refine (he.check h₂ hf (hc.hasType h hte)).bind fun _ c₃ σ₃ hc₃ h₃ _ => ?_
    exact (hc.trans hc₃).settle h₃ (hf.later hc₃) hw hm

theorem complete_ctor {x : Name} (hctx : ctx.Shaped) (hts : ∀ s ∈ ts, Complete ctx s) :
    Complete ctx (.ctor x ts) := by
  intro σ c mode type h hw hm htype
  cases htype with
  | ctor m hdecl htypes =>
    obtain ⟨params, hshape⟩ := hctx.constructor hdecl
    rw [judge]
    refine .look (answers_lift.2 ⟨hdecl, rfl⟩) ?_
    refine (h.freshCopy hshape.written m).bind fun signature c₁ σ₁ hc₁ h₁ hcopy => ?_
    obtain ⟨hdoms, hresult⟩ := hcopy.telescope
    obtain ⟨hwdoms, hwresult⟩ := hcopy.delivers.1.telescope
    have hlen : signature.doms.length = ts.length := by
      rw [htypes.length_eq, ← List.length_map, hdoms]
      rfl
    rw [if_neg (not_not.2 hlen)]
    refine (h₁.checkAll hts hwdoms ?_).bind fun _ c₂ σ₂ hc₂ h₂ _ => ?_
    · rw [hdoms]
      exact hc₁.hasTypes h htypes
    · have ht : Delivers ctx _ signature.result c₁ σ₁ := ⟨hwresult, hresult⟩
      exact (hc₁.trans hc₂).settle h₂ (ht.later hc₂) hw hm

theorem Ready.elimArgs {decl : Eliminator} {params : List Name} {m copy : Index Name Ty}
    {x : Name} (h : Ready ctx σ c)
    (hshape : decl.Shaped ctx params) (honto : OntoMetavars copy) (hts : ∀ s ∈ ts, Complete ctx s)
    (hrest : ∀ d ∈ decl.rest, (d.subst copy).Within ctx c.solutions.size)
    (hresult : (decl.result.subst copy).Within ctx c.solutions.size)
    (hfill : (decl.rest.map (·.subst copy)).map (Ty.fill σ) = decl.rest.map (·.subst m))
    (htypes : HasTypes ctx (Locals.fill σ c.locals) ts (decl.rest.map (·.subst m))) :
    Completes ctx σ c (if decl.isCaseAnalysis then
        Checker.judgeBranches ctx x (decl.result.subst copy) 0 ts (decl.rest.map (·.subst copy))
          (ctx.constructors decl.owner)
      else Checker.checkAll ctx ts (decl.rest.map (·.subst copy))) fun _ _ _ => True := by
  have hrest' : ∀ d ∈ decl.rest.map (·.subst copy), d.Within ctx c.solutions.size :=
    List.forall_mem_map.2 hrest
  rw [← hfill] at htypes
  cases hmotive : decl.motive with
  | none =>
    have hcase : decl.isCaseAnalysis = false := by simp [Eliminator.isCaseAnalysis, hmotive]
    simp only [hcase, Bool.false_eq_true, if_false]
    exact h.checkAll hts hrest' htypes
  | some motive =>
    have hcase : decl.isCaseAnalysis = true := by simp [Eliminator.isCaseAnalysis, hmotive]
    simp only [hcase, if_true]
    obtain ⟨hres, -, -, hbranches⟩ := hshape.case motive hmotive
    refine h.judgeBranches hts hrest' hresult ?_ htypes
    intro p hp
    rw [List.zip_map_left, List.mem_map] at hp
    obtain ⟨q, hq, rfl⟩ := hp
    obtain ⟨cdecl, hcdecl, hbranch⟩ := hbranches q hq
    refine ⟨cdecl, hcdecl, ?_⟩
    rw [hres, Prod.map_fst, hbranch]
    exact endsIn_branchType honto

theorem permitElimination_of_fill {decl : Eliminator} {args : List Ty}
    (h : t.fill σ = .const decl.owner args) :
    Barrier.permitElimination ctx decl t = .ok () := by
  rw [Barrier.permitElimination_eq_ok_iff]
  intro x hx
  cases t with
  | const y us =>
    rw [Ty.fill, Ty.bind_const, Ty.const.injEq] at h
    unfold Barrier.guarded? at hx
    simp only [Ty.head?, Option.bind_eq_bind, Option.bind_some, Option.ite_none_right_eq_some,
      Option.some.injEq] at hx
    exact hx.2.symm.trans h.1
  | _ => cases hx

theorem complete_elim {x : Name} {s : Term} (hctx : ctx.Shaped) (hs : Complete ctx s)
    (hts : ∀ s ∈ ts, Complete ctx s) :
    Complete ctx (.elim x s ts) := by
  intro σ c mode type h hw hm htype
  cases htype with
  | @elim _ _ _ _ decl scrutinee m hdecl hscrutinee htscrutinee htypes =>
    obtain ⟨params, hshape⟩ := hctx.eliminator hdecl
    rw [judge]
    refine .look (answers_lift.2 ⟨hdecl, rfl⟩) ?_
    have := makes_eliminated (r := .growth) ctx x s ts mode
    refine (hs.infer h htscrutinee).bind fun found c₁ σ₁ hc₁ h₁ hfound =>
      .look (answers_zonk.2 ⟨rfl, rfl⟩) ?_
    have hz : (c₁.solutions.zonk found).fill σ₁ = scrutinee.subst m :=
      (h₁.realizes.fill_zonk found).trans hfound.2
    have hzw := h₁.valid.zonk hfound.1
    have hpermit : Barrier.permitElimination ctx decl (c₁.solutions.zonk found) = .ok () := by
      cases hshape.scrutinee.symm.trans hscrutinee
      rw [Ty.subst_eq_bind, Ty.bind_const] at hz
      exact permitElimination_of_fill hz
    refine .look (answers_lift.2 ⟨hpermit, rfl⟩) ?_
    refine (h₁.freshCopy hshape.written m).bind fun signature c₂ σ₂ hc₂ h₂ hcopy => ?_
    obtain ⟨hdoms, hresult⟩ := hcopy.telescope
    obtain ⟨hwdoms, hwresult⟩ := hcopy.delivers.1.telescope
    obtain ⟨copy, honto, rfl⟩ := hcopy.copy
    obtain ⟨rest, hsplit⟩ : ∃ rest, decl.signature.doms = scrutinee :: rest :=
      List.head?_eq_some_iff.1 hscrutinee
    obtain rfl : decl.rest = rest := congrArg List.tail hsplit
    have hcopied : (decl.signature.subst copy).doms = scrutinee.subst copy :: decl.rest.map
        (·.subst copy) := by
      rw [Ty.doms, honto.telescope, hsplit]
      rfl
    have hresult' : (decl.signature.subst copy).result = decl.result.subst copy :=
      congrArg Prod.snd (honto.telescope _)
    rw [hsplit, hcopied, List.map_cons, List.map_cons, List.cons.injEq] at hdoms
    rw [hcopied, List.forall_mem_cons, List.forall_mem_map] at hwdoms
    rw [hresult'] at hresult hwresult
    rw [hcopied, hresult']
    have hc := hc₁.trans hc₂
    have heq : (c₁.solutions.zonk found).fill σ₂ = (scrutinee.subst copy).fill σ₂ := by
      rw [hc₂.fill hzw, hz, hdoms.1]
    have hlen : (decl.rest.map (·.subst copy)).length = ts.length := by
      rw [htypes.length_eq, List.length_map, List.length_map]
    refine h₂.unify_bind (hc₂.within hzw) hwdoms.1 heq fun c₃ hc₃ h₃ => ?_
    rw [if_neg (not_not.2 hlen)]
    have hargs := h₃.elimArgs (x := x) hshape honto hts (fun d hd => hc₃.within (hwdoms.2 d hd))
      (hc₃.within hwresult) hdoms.2
      ((hc.trans hc₃).hasTypes h htypes)
    have ht : Delivers ctx (decl.result.subst m) (decl.result.subst copy) c₂ σ₂ :=
      ⟨hwresult, hresult⟩
    have last {c₄ : Checker} {σ₄ : UInt32 → Ty} (hc₄ : Continues c₃ σ₂ c₄ σ₄)
        (h₄ : Ready ctx σ₄ c₄) :
        Completes ctx σ₄ c₄ (Checker.settle (.elim x s ts) (decl.result.subst copy) mode)
            (Delivers ctx (decl.result.subst m)) :=
      (hc.trans (hc₃.trans hc₄)).settle h₄ (ht.later (hc₃.trans hc₄)) hw hm
    cases hcase : decl.isCaseAnalysis <;> simp only [hcase, Bool.false_eq_true, if_false, if_true]
      at hargs ⊢
    all_goals exact hargs.bind fun _ _ _ hc₄ h₄ _ => last hc₄ h₄

/-- The checker is complete on all terms without projections. -/
theorem complete (hctx : ctx.Shaped) (s : Term) (h : s.hasProjection = false) : Complete ctx s := by
  rw [Term.hasProjection_eq_false_iff] at h
  induction s with
  | var x => exact complete_var x
  | lit l => exact complete_lit l
  | app f a ihf iha =>
    obtain ⟨hf, ha⟩ := List.forall_mem_append.1 (List.forall_mem_cons.1 h).2
    exact complete_app (ihf hf) (iha ha)
  | lam x dom b ih => exact complete_lam (ih (List.forall_mem_cons.1 h).2)
  | ann s written ih => exact complete_ann (ih (List.forall_mem_cons.1 h).2)
  | ctor x ts ih =>
    have hts := Term.forall_mem_subtermsAll.1 (List.forall_mem_cons.1 h).2
    exact complete_ctor hctx fun s hs => ih s hs (hts s hs)
  | elim x s ts ihs ih =>
    obtain ⟨hs, hts⟩ := List.forall_mem_append.1 (List.forall_mem_cons.1 h).2
    have hts := Term.forall_mem_subtermsAll.1 hts
    exact complete_elim hctx (ihs hs) fun s hs => ih s hs (hts s hs)
  | prim op ts ih =>
    have hts := Term.forall_mem_subtermsAll.1 (List.forall_mem_cons.1 h).2
    exact complete_prim fun s hs => ih s hs (hts s hs)
  | tuple ts ih =>
    have hts := Term.forall_mem_subtermsAll.1 (List.forall_mem_cons.1 h).2
    exact complete_tuple fun s hs => ih s hs (hts s hs)
  | proj s i _ => cases (List.forall_mem_cons.1 h).1

theorem ready_initial (ctx : Context) (σ : UInt32 → Ty) : Ready ctx σ initial where
  valid := valid_initial ctx
  realizes := ⟨fun i t hs => by simp [initial, Solutions.solution?, Solutions.empty] at hs, nofun⟩
  deferred := nofun

theorem inferType_of_hasType (hctx : ctx.Shaped) (hproj : s.hasProjection = false)
    (hsize : (infer ctx s).metavars ≤ UInt32.size)
    (htype : HasType ctx [] s type) : ∃ u σ, inferType ctx s = .ok u ∧ u.fill σ = type := by
  have hs : Complete ctx s := complete hctx s hproj
  obtain ⟨t, c', σ', hrun, -, h, ht⟩ := hs.infer (ready_initial ctx .metavar) htype hsize
  refine ⟨_, σ', inferType_eq_ok_iff.2 ⟨t, c', hrun, fun p hp => ?_, rfl⟩,
    (h.realizes.fill_zonk t).trans ht.2⟩
  obtain ⟨q, hq⟩ := h.realizes.equalities p hp
  rw [← h.realizes.fill_zonk] at hq
  rcases prim_or_metavar_of_fill hq with hz | hz
  · exact .inl ⟨q, hz⟩
  · exact .inr hz

end ClosedTypes.Checker
