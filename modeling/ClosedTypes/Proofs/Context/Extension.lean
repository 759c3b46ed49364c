import ClosedTypes.Proofs.Typing.Formed
/-!
Contexts with more declarations. Whatever names one context knows the other knows too, and the types
of the first have the same operations in both.
-/

namespace ClosedTypes

namespace Context

/-- Every declaration of `ctx` stands in `ctx'`, and its types have no further constructors
there. -/
structure KnownBy (ctx ctx' : Context) : Prop where
  find : ∀ {x e}, ctx.find? x = some e → ctx'.find? x = some e
  constructors : ∀ {x d}, ctx.dataType x = .ok d → ctx'.constructors x = ctx.constructors x

structure ExtendedBy (ctx ctx' : Context) : Prop extends ctx.KnownBy ctx' where
  eliminators : ∀ {x d}, ctx.dataType x = .ok d → ctx'.eliminators x = ctx.eliminators x

variable {ctx ctx' ctx'' : Context} {x : Name}

theorem KnownBy.dataType (h : ctx.KnownBy ctx') {d : DataType} (hd : ctx.dataType x = .ok d) :
    ctx'.dataType x = .ok d := dataType_eq_ok_iff.2 (h.find (dataType_eq_ok_iff.1 hd))

theorem KnownBy.constructor (h : ctx.KnownBy ctx') {d : Constructor}
    (hd : ctx.constructor x = .ok d) :
    ctx'.constructor x = .ok d := constructor_eq_ok_iff.2 (h.find (constructor_eq_ok_iff.1 hd))

theorem KnownBy.eliminator (h : ctx.KnownBy ctx') {d : Eliminator} (hd : ctx.eliminator x = .ok d) :
    ctx'.eliminator x = .ok d := eliminator_eq_ok_iff.2 (h.find (eliminator_eq_ok_iff.1 hd))

theorem ExtendedBy.trans (h : ctx.ExtendedBy ctx') (h' : ctx'.ExtendedBy ctx'') :
    ctx.ExtendedBy ctx'' :=
  ⟨⟨fun hx => h'.find (h.find hx), fun hd => (h'.constructors (h.dataType hd)).trans
    (h.constructors hd)⟩, fun hd => (h'.eliminators (h.dataType hd)).trans (h.eliminators hd)⟩

end Context

variable {ctx ctx' : Context} {t : Ty}

theorem Ty.Formed.mono (h : t.Formed ctx) (hc : ctx.KnownBy ctx') : t.Formed ctx' := by
  induction t with
  | const c args ih =>
    rw [formed_const] at h ⊢
    obtain ⟨⟨d, hd, ha⟩, h⟩ := h
    exact ⟨⟨d, hc.dataType hd, ha⟩, fun t ht => ih t ht (h t ht)⟩
  | arrow d c ihd ihc => exact ⟨ihd h.1, ihc h.2⟩
  | tuple elems ih =>
    rw [formed_tuple] at h ⊢
    exact fun t ht => ih t ht (h t ht)
  | _ => exact h

theorem Checker.checkWritten_mono (h : Checker.checkWritten ctx t = .ok ())
    (hc : ctx.KnownBy ctx') :
    Checker.checkWritten ctx' t = .ok () := by
  rw [checkWritten_eq_ok_iff] at h ⊢
  exact ⟨h.1.mono hc, h.2⟩

theorem Barrier.guarded?_eq_of_formed (h : t.Formed ctx) (hc : ctx.KnownBy ctx') :
    guarded? ctx' t = guarded? ctx t := by
  cases t with
  | const c args =>
    obtain ⟨⟨d, hd, -⟩, -⟩ := Ty.formed_const.1 h
    have hdecl : ctx.declaresType c = true := Context.declaresType_eq_true_iff.2 ⟨d, hd⟩
    have hdecl' : ctx'.declaresType c = true :=
      Context.declaresType_eq_true_iff.2 ⟨d, hc.dataType hd⟩
    simp [guarded?, Ty.head?, hdecl, hdecl']
  | _ => rfl

theorem Barrier.permitPrimitive_eq_ok_iff {op : Operator} :
    permitPrimitive ctx op t = .ok () ↔ guarded? ctx t = none := by
  unfold permitPrimitive
  cases guarded? ctx t <;> simp

theorem Barrier.permitProjection_eq_ok_iff {i : UInt64} :
    permitProjection ctx i t = .ok () ↔ guarded? ctx t = none := by
  unfold permitProjection
  cases guarded? ctx t <;> simp

theorem Barrier.permitElimination_eq_ok_iff {e : Eliminator} :
    permitElimination ctx e t = .ok () ↔ ∀ c, guarded? ctx t = some c → c = e.owner := by
  unfold permitElimination
  cases guarded? ctx t <;> simp

end ClosedTypes
