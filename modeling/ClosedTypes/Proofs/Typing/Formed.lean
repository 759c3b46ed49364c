import ClosedTypes.Proofs.Success
import ClosedTypes.Proofs.Ty.Bind
import ClosedTypes.Typing.Checker
/-!
Formed types apply declared types to as many parameters as they take. A type that may be written is
formed and holds no metavariable; the checker's own types are formed and may hold some.
-/

namespace ClosedTypes

namespace Context

variable {ctx : Context} {x : Name}

theorem lookup_eq_ok_iff {e : Entry} : ctx.lookup x = .ok e ↔ ctx.find? x = some e := by
  unfold lookup
  cases ctx.find? x <;> simp

theorem dataType_eq_ok_iff {d : DataType} :
    ctx.dataType x = .ok d ↔ ctx.find? x = some (.type d) := by
  unfold dataType
  simp only [bind_eq_ok_iff, lookup_eq_ok_iff]
  constructor
  · rintro ⟨e, he, h⟩
    cases e <;> cases h
    exact he
  · exact fun h => ⟨_, h, rfl⟩

theorem constructor_eq_ok_iff {d : Constructor} :
    ctx.constructor x = .ok d ↔ ctx.find? x = some (.constructor d) := by
  unfold constructor
  simp only [bind_eq_ok_iff, lookup_eq_ok_iff]
  constructor
  · rintro ⟨e, he, h⟩
    cases e <;> cases h
    exact he
  · exact fun h => ⟨_, h, rfl⟩

theorem eliminator_eq_ok_iff {d : Eliminator} :
    ctx.eliminator x = .ok d ↔ ctx.find? x = some (.eliminator d) := by
  unfold eliminator
  simp only [bind_eq_ok_iff, lookup_eq_ok_iff]
  constructor
  · rintro ⟨e, he, h⟩
    cases e <;> cases h
    exact he
  · exact fun h => ⟨_, h, rfl⟩

theorem declaresType_eq_true_iff : ctx.declaresType x = true ↔ ∃ d, ctx.dataType x = .ok d := by
  simp only [dataType_eq_ok_iff, declaresType]
  cases hx : ctx.find? x with
  | none => simp
  | some e => cases e <;> simp

end Context

namespace Ty

mutual

def Formed (ctx : Context) : Ty → Prop
  | var _ => True
  | metavar _ => True
  | prim _ => True
  | const c args => (∃ d, ctx.dataType c = .ok d ∧ d.arity.toNat = args.length) ∧ FormedAll ctx args
  | arrow d c => Formed ctx d ∧ Formed ctx c
  | tuple elems => FormedAll ctx elems

def FormedAll (ctx : Context) : List Ty → Prop
  | [] => True
  | t :: ts => Formed ctx t ∧ FormedAll ctx ts

end

variable {ctx : Context}

theorem formedAll_iff {ts : List Ty} : FormedAll ctx ts ↔ ∀ t ∈ ts, t.Formed ctx := by
  induction ts with
  | nil => simp [FormedAll]
  | cons t ts ih => rw [FormedAll, ih, List.forall_mem_cons]

@[simp] theorem formed_var (x : Name) : (var x).Formed ctx := trivial

@[simp] theorem formed_metavar (i : UInt32) : (metavar i).Formed ctx := trivial

@[simp] theorem formed_prim (p : Prim) : (prim p).Formed ctx := trivial

@[simp] theorem formed_arrow {d c : Ty} : (arrow d c).Formed ctx ↔ d.Formed ctx ∧ c.Formed ctx :=
  Iff.rfl

theorem formed_const {c : Name} {args : List Ty} :
    (const c args).Formed ctx ↔
      (∃ d, ctx.dataType c = .ok d ∧ d.arity.toNat = args.length) ∧ ∀ t ∈ args, t.Formed ctx := by
  rw [Formed, formedAll_iff]

@[simp] theorem formed_tuple {elems : List Ty} :
    (tuple elems).Formed ctx ↔ ∀ t ∈ elems, t.Formed ctx := formedAll_iff

theorem Formed.bind {θ : Name → Ty} {σ : UInt32 → Ty} {t : Ty} (h : t.Formed ctx)
    (hv : ∀ x ∈ t.varOccurrences, (θ x).Formed ctx)
    (hm : ∀ i, t.mentionsMetavar i = true → (σ i).Formed ctx) :
    (t.bind θ σ).Formed ctx := by
  induction t with
  | var x => exact hv x List.mem_cons_self
  | metavar i => exact hm i (by simp)
  | prim p => exact h
  | const c args ih =>
    simp only [varOccurrences, varOccurrencesAll_eq, List.mem_flatMap] at hv
    simp only [mentionsMetavar_const, List.any_eq_true] at hm
    rw [formed_const] at h
    rw [bind_const, formed_const, List.length_map, List.forall_mem_map]
    exact ⟨h.1, fun t ht => ih t ht (h.2 t ht) (fun x hx => hv x ⟨t, ht, hx⟩) fun i hi =>
      hm i ⟨t, ht, hi⟩⟩
  | arrow d c ihd ihc =>
    simp only [varOccurrences, List.mem_append] at hv
    simp only [mentionsMetavar_arrow, Bool.or_eq_true] at hm
    rw [bind_arrow]
    exact ⟨ihd h.1 (fun x hx => hv x (.inl hx)) fun i hi => hm i (.inl hi),
      ihc h.2 (fun x hx => hv x (.inr hx)) fun i hi => hm i (.inr hi)⟩
  | tuple elems ih =>
    simp only [varOccurrences, varOccurrencesAll_eq, List.mem_flatMap] at hv
    simp only [mentionsMetavar_tuple, List.any_eq_true] at hm
    rw [formed_tuple] at h
    rw [bind_tuple, formed_tuple, List.forall_mem_map]
    exact fun t ht => ih t ht (h t ht) (fun x hx => hv x ⟨t, ht, hx⟩) fun i hi => hm i ⟨t, ht, hi⟩

end Ty

namespace Checker

variable {ctx : Context}

theorem checkWrittenAll_eq_ok_iff {ts : List Ty} :
    checkWrittenAll ctx ts = .ok () ↔ ∀ t ∈ ts, checkWritten ctx t = .ok () := by
  induction ts with
  | nil => simp [checkWrittenAll]
  | cons t ts ih => simp [checkWrittenAll, ih]

theorem checkWritten_eq_ok_iff {t : Ty} :
    checkWritten ctx t = .ok () ↔ t.Formed ctx ∧ ∀ i, t.mentionsMetavar i = false := by
  have all (ts : List Ty)
      (ih : ∀ t ∈ ts, checkWritten ctx t = .ok () ↔ t.Formed ctx ∧
        ∀ i, t.mentionsMetavar i = false) :
      checkWrittenAll ctx ts = .ok () ↔ (∀ t ∈ ts, t.Formed ctx) ∧
          ∀ i, ts.any (·.mentionsMetavar i) = false := by
    simp only [checkWrittenAll_eq_ok_iff, List.any_eq_false, Bool.not_eq_true]
    constructor
    · exact fun h =>
        ⟨fun t ht => ((ih t ht).1 (h t ht)).1, fun i t ht => ((ih t ht).1 (h t ht)).2 i⟩
    · exact fun h t ht => (ih t ht).2 ⟨h.1 t ht, fun i => h.2 i t ht⟩
  induction t with
  | var x => simp [checkWritten]
  | metavar i => simp [checkWritten]
  | prim p => simp [checkWritten]
  | const c args ih =>
    rw [Ty.formed_const]
    simp only [Ty.mentionsMetavar_const, checkWritten, bind_eq_ok_iff, Context.lookup_eq_ok_iff,
      Context.dataType_eq_ok_iff]
    rw [and_assoc, ← all args ih]
    constructor
    · rintro ⟨e, he, h⟩
      cases e with
      | type d =>
        by_cases ha : d.arity.toNat = args.length
        · simp only [if_pos ha] at h
          exact ⟨⟨d, he, ha⟩, h⟩
        · simp only [if_neg ha] at h
          cases h
      | _ => cases h
    · rintro ⟨⟨d, hd, ha⟩, h⟩
      exact ⟨_, hd, by simpa only [if_pos ha] using h⟩
  | arrow d c ihd ihc =>
    simp only [checkWritten, bind_eq_ok_iff, ihd, ihc, Ty.formed_arrow, Ty.mentionsMetavar_arrow,
      Bool.or_eq_false_iff, exists_const, forall_and]
    exact and_and_and_comm
  | tuple elems ih =>
    simp only [checkWritten, Ty.formed_tuple, Ty.mentionsMetavar_tuple]
    exact all elems ih

theorem checkWritten_parts (h : checkWritten ctx t = .ok ()) :
    (∀ d ∈ t.doms, checkWritten ctx d = .ok ()) ∧ checkWritten ctx t.result = .ok () := by
  induction t with
  | arrow d c _ ihc =>
    simp only [checkWritten, bind_eq_ok_iff, exists_unit] at h
    obtain ⟨hdoms, hresult⟩ := ihc h.2
    exact ⟨List.forall_mem_cons.2 ⟨h.1, hdoms⟩, hresult⟩
  | _ => exact ⟨List.forall_mem_nil _, h⟩

theorem checkWritten_subst {m : Index Name Ty} (h : checkWritten ctx t = .ok ())
    (hm : ∀ x u, m.find? x = some u → checkWritten ctx u = .ok ()) :
    checkWritten ctx (t.subst m) = .ok () := by
  have hvar (x : Name) : checkWritten ctx ((m.find? x).getD (.var x)) = .ok () := by
    cases hx : m.find? x with
    | none => rfl
    | some u => exact hm x u hx
  simp only [checkWritten_eq_ok_iff] at h hvar ⊢
  rw [Ty.subst_eq_bind]
  refine ⟨h.1.bind (fun x _ => (hvar x).1) fun _ _ => trivial, fun i => ?_⟩
  rw [← Bool.not_eq_true, Ty.mentionsMetavar_bind]
  rintro (⟨x, -, hx⟩ | ⟨j, hj, -⟩)
  · rw [(hvar x).2 i] at hx
    cases hx
  · rw [h.2 j] at hj
    cases hj

theorem checkWritten_substConst {c : Name} {backing : Ty} (h : checkWritten ctx t = .ok ())
    (hb : checkWritten ctx backing = .ok ()) :
    checkWritten ctx (t.substConst c backing) = .ok () := by
  have all (ts : List Ty) (ih : ∀ t ∈ ts, checkWritten ctx t = .ok () →
        checkWritten ctx (t.substConst c backing) = .ok ())
      (h : checkWrittenAll ctx ts = .ok ()) :
          checkWrittenAll ctx (ts.map (·.substConst c backing)) = .ok () := by
    rw [checkWrittenAll_eq_ok_iff] at h ⊢
    exact List.forall_mem_map.2 fun t ht => ih t ht (h t ht)
  induction t with
  | const d args ih =>
    by_cases hd : d = c
    · simpa [Ty.substConst, Ty.replace, hd] using hb
    · have hsubst : (Ty.const d args).substConst c backing =
          .const d (args.map (·.substConst c backing)) := by
        simp [Ty.substConst, Ty.replace, hd, Ty.replaceAll_eq_map]
      rw [hsubst]
      simp only [checkWritten, bind_eq_ok_iff, List.length_map] at h ⊢
      obtain ⟨e, he, h⟩ := h
      refine ⟨e, he, ?_⟩
      cases e with
      | type d =>
        by_cases ha : d.arity.toNat = args.length
        · simp only [if_pos ha] at h ⊢
          exact all args ih h
        · simp only [if_neg ha] at h
          cases h
      | _ => cases h
  | arrow d co ihd ihc =>
    simp only [checkWritten, bind_eq_ok_iff, exists_unit] at h
    have hsubst : (Ty.arrow d co).substConst c backing = .arrow (d.substConst c backing)
        (co.substConst c backing) := rfl
    rw [hsubst]
    simp only [checkWritten, bind_eq_ok_iff, exists_unit]
    exact ⟨ihd h.1, ihc h.2⟩
  | tuple elems ih =>
    have hsubst : (Ty.tuple elems).substConst c backing =
        .tuple (elems.map (·.substConst c backing)) := by
      simp [Ty.substConst, Ty.replace, Ty.replaceAll_eq_map]
    rw [hsubst]
    exact all elems ih h
  | _ => exact h

end Checker

mutual

theorem Backing.checkWritten_toTy {ctx : Context} :
    (b : Backing) → Checker.checkWritten ctx b.toTy = .ok ()
  | .int => rfl
  | .bool => rfl
  | .tuple elems => Backing.checkWrittenAll_toTys elems

theorem Backing.checkWrittenAll_toTys {ctx : Context} :
    (bs : List Backing) → Checker.checkWrittenAll ctx (Backing.toTys bs) = .ok ()
  | [] => rfl
  | b :: bs => by
    rw [toTys, Checker.checkWrittenAll, checkWritten_toTy b, bind_eq_ok_iff]
    exact ⟨(), rfl, checkWrittenAll_toTys bs⟩

end

end ClosedTypes
