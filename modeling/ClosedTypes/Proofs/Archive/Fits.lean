import ClosedTypes.Archive.Codec
import ClosedTypes.Proofs.Archive.Header
import ClosedTypes.Proofs.Term.Free
import ClosedTypes.Proofs.Ty.Bind
/-!
What the headers can count: names, types, terms, backings and declarations in which every list, and
every name in UTF-8, has a length of 64 bits. Anything whose archived form is that short is of this
kind.
-/

namespace ClosedTypes

@[induction_eliminator]
theorem Backing.induct {P : Backing → Prop} (int : P .int) (bool : P .bool)
    (tuple : ∀ elems, (∀ b ∈ elems, P b) → P (.tuple elems)) (b : Backing) : P b :=
  Backing.rec (motive_1 := P) (motive_2 := fun bs => ∀ b ∈ bs, P b) int bool tuple nofun
    (fun _ _ h hs => List.forall_mem_cons.2 ⟨h, hs⟩) b

namespace Archive

variable {α : Type}

abbrev Counted (xs : List α) : Prop := xs.length < UInt64.size

theorem toNat_lengthOf {xs : List α} (h : Counted xs) : (lengthOf xs).toNat = xs.length := by
  unfold lengthOf
  rw [UInt64.toNat_ofNat']
  exact Nat.mod_eq_of_lt h

abbrev NameFits (x : Name) : Prop := Counted (Utf8.encode x)

inductive TyFits : Ty → Prop
  | var {x : Name} (hx : NameFits x) : TyFits (.var x)
  | metavar {i : UInt32} : TyFits (.metavar i)
  | const {c : Name} {args : List Ty} (hc : NameFits c) (hcount : Counted args)
    (hargs : ∀ t ∈ args, TyFits t) :
    TyFits (.const c args)
  | arrow {d c : Ty} (hd : TyFits d) (hc : TyFits c) : TyFits (.arrow d c)
  | prim {p : Prim} : TyFits (.prim p)
  | tuple {elems : List Ty} (hcount : Counted elems) (helems : ∀ t ∈ elems, TyFits t) :
    TyFits (.tuple elems)

inductive TermFits : Term → Prop
  | var {x : Name} (hx : NameFits x) : TermFits (.var x)
  | app {f a : Term} (hf : TermFits f) (ha : TermFits a) : TermFits (.app f a)
  | lam {x : Name} {dom : Option Ty} {b : Term} (hx : NameFits x) (hdom : ∀ d ∈ dom, TyFits d)
    (hb : TermFits b) :
    TermFits (.lam x dom b)
  | ann {t : Term} {ty : Ty} (ht : TermFits t) (hty : TyFits ty) : TermFits (.ann t ty)
  | ctor {c : Name} {args : List Term} (hc : NameFits c) (hcount : Counted args)
    (hargs : ∀ t ∈ args, TermFits t) :
    TermFits (.ctor c args)
  | elim {e : Name} {s : Term} {args : List Term} (he : NameFits e) (hs : TermFits s)
    (hcount : Counted args)
    (hargs : ∀ t ∈ args, TermFits t) : TermFits (.elim e s args)
  | lit {l : Literal} : TermFits (.lit l)
  | prim {op : Operator} {args : List Term} (hcount : Counted args)
    (hargs : ∀ t ∈ args, TermFits t) : TermFits (.prim op args)
  | tuple {elems : List Term} (hcount : Counted elems) (helems : ∀ t ∈ elems, TermFits t) :
    TermFits (.tuple elems)
  | proj {t : Term} {i : UInt64} (ht : TermFits t) : TermFits (.proj t i)

inductive BackingFits : Backing → Prop
  | int : BackingFits .int
  | bool : BackingFits .bool
  | tuple {elems : List Backing} (hcount : Counted elems) (helems : ∀ b ∈ elems, BackingFits b) :
    BackingFits (.tuple elems)

def EntryFits : Entry → Prop
  | .type d => NameFits d.name
  | .constructor d => NameFits d.name ∧ TyFits d.signature
  | .eliminator d => NameFits d.name ∧ TyFits d.signature
  | .equation d =>
    NameFits d.eliminator ∧ NameFits d.constructor ∧
      (Counted d.binders ∧ ∀ x ∈ d.binders, NameFits x) ∧ TermFits d.rhs
  | .representation d => NameFits d.typeName ∧ BackingFits d.backing
  | .implementation d => NameFits d.op ∧ TermFits d.body

theorem length_append_pos {kind : UInt8} {size : UInt64} {bytes : List UInt8} :
    0 < (tag kind size ++ bytes).length := by
  rw [List.length_append]
  exact Nat.lt_of_lt_of_le (length_tag_pos _ _) (Nat.le_add_right _ _)

theorem length_encodeName_pos {x : Name} : 0 < (encodeName x).length := by
  unfold encodeName
  rw [List.length_append]
  exact Nat.lt_of_lt_of_le length_header_pos (Nat.le_add_right _ _)

theorem encodeTys_eq (ts : List Ty) : encodeTys ts = ts.flatMap encodeTy := by
  induction ts with
  | nil => rfl
  | cons t ts ih => rw [encodeTys, ih, List.flatMap_cons]

theorem length_encodeTy_pos {t : Ty} : 0 < (encodeTy t).length := by
  cases t with
  | prim p => cases p <;> exact length_tag_pos _ _
  | var x => exact length_append_pos
  | metavar i => exact length_tag_pos _ _
  | tuple elems => exact length_append_pos
  | _ =>
    simp only [encodeTy, List.append_assoc]
    exact length_append_pos

theorem encodeTerms_eq (ts : List Term) : encodeTerms ts = ts.flatMap encodeTerm := by
  induction ts with
  | nil => rfl
  | cons t ts ih => rw [encodeTerms, ih, List.flatMap_cons]

theorem length_encodeTerm_pos {t : Term} : 0 < (encodeTerm t).length := by
  cases t with
  | lit l => cases l <;> exact length_tag_pos _ _
  | lam x dom b =>
    cases dom with
    | none =>
      simp only [encodeTerm, List.append_assoc]
      exact length_append_pos
    | some d =>
      simp only [encodeTerm, List.append_assoc]
      exact length_append_pos
  | var x => exact length_append_pos
  | tuple elems => exact length_append_pos
  | proj t i => exact length_append_pos
  | _ =>
    simp only [encodeTerm, List.append_assoc]
    exact length_append_pos

theorem encodeBackings_eq (bs : List Backing) : encodeBackings bs = bs.flatMap encodeBacking := by
  induction bs with
  | nil => rfl
  | cons b bs ih => rw [encodeBackings, ih, List.flatMap_cons]

theorem length_encodeBacking_pos {b : Backing} : 0 < (encodeBacking b).length := by
  cases b with
  | tuple elems => exact length_append_pos
  | _ => exact length_tag_pos _ _

theorem parts_fit (encode : α → List UInt8) {fits : α → Prop} {xs : List α}
    (hpos : ∀ x, 0 < (encode x).length)
    (hlen : (xs.flatMap encode).length < UInt64.size)
    (h : ∀ x ∈ xs, (encode x).length < UInt64.size → fits x) :
    Counted xs ∧ ∀ x ∈ xs, fits x := by
  have hcount : xs.length ≤ (xs.flatMap encode).length := count_le_length_flatMap fun x _ => hpos x
  refine ⟨Nat.lt_of_le_of_lt hcount hlen, fun x hx => h x hx ?_⟩
  exact Nat.lt_of_le_of_lt (length_le_flatMap hx) hlen

theorem nameFits_of_length {x : Name} (h : (encodeName x).length < UInt64.size) : NameFits x := by
  unfold encodeName at h
  rw [List.length_append] at h
  exact Nat.lt_of_le_of_lt (Nat.le_add_left _ _) h

theorem tyFits_of_length {t : Ty} (h : (encodeTy t).length < UInt64.size) : TyFits t := by
  induction t with
  | metavar i => exact .metavar
  | prim p => exact .prim
  | var x =>
    simp only [encodeTy, List.length_append] at h
    exact .var (nameFits_of_length (by omega))
  | const c args ih =>
    simp only [encodeTy, encodeTys_eq, List.length_append] at h
    have hargs := parts_fit encodeTy (fun _ => length_encodeTy_pos) (by omega) ih
    exact .const (nameFits_of_length (by omega)) hargs.1 hargs.2
  | arrow d c ihd ihc =>
    simp only [encodeTy, List.length_append] at h
    exact .arrow (ihd (by omega)) (ihc (by omega))
  | tuple elems ih =>
    simp only [encodeTy, encodeTys_eq, List.length_append] at h
    have helems := parts_fit encodeTy (fun _ => length_encodeTy_pos) (by omega) ih
    exact .tuple helems.1 helems.2

theorem termFits_of_length {t : Term} (h : (encodeTerm t).length < UInt64.size) : TermFits t := by
  induction t with
  | lit l => exact .lit
  | var x =>
    simp only [encodeTerm, List.length_append] at h
    exact .var (nameFits_of_length (by omega))
  | app f a ihf iha =>
    simp only [encodeTerm, List.length_append] at h
    exact .app (ihf (by omega)) (iha (by omega))
  | lam x dom b ih =>
    cases dom with
    | none =>
      simp only [encodeTerm, List.length_append] at h
      exact .lam (nameFits_of_length (by omega)) nofun (ih (by omega))
    | some d =>
      simp only [encodeTerm, List.length_append] at h
      refine .lam (nameFits_of_length (by omega)) (fun d' hd => ?_) (ih (by omega))
      cases hd
      exact tyFits_of_length (by omega)
  | ann t ty ih =>
    simp only [encodeTerm, List.length_append] at h
    exact .ann (ih (by omega)) (tyFits_of_length (by omega))
  | ctor c args ih =>
    simp only [encodeTerm, encodeTerms_eq, List.length_append] at h
    have hargs := parts_fit encodeTerm (fun _ => length_encodeTerm_pos) (by omega) ih
    exact .ctor (nameFits_of_length (by omega)) hargs.1 hargs.2
  | elim e s args ihs ih =>
    simp only [encodeTerm, encodeTerms_eq, List.length_append] at h
    have hargs := parts_fit encodeTerm (fun _ => length_encodeTerm_pos) (by omega) ih
    exact .elim (nameFits_of_length (by omega)) (ihs (by omega)) hargs.1 hargs.2
  | prim op args ih =>
    simp only [encodeTerm, encodeTerms_eq, List.length_append] at h
    have hargs := parts_fit encodeTerm (fun _ => length_encodeTerm_pos) (by omega) ih
    exact .prim hargs.1 hargs.2
  | tuple elems ih =>
    simp only [encodeTerm, encodeTerms_eq, List.length_append] at h
    have helems := parts_fit encodeTerm (fun _ => length_encodeTerm_pos) (by omega) ih
    exact .tuple helems.1 helems.2
  | proj t i ih =>
    simp only [encodeTerm, List.length_append] at h
    exact .proj (ih (by omega))

theorem backingFits_of_length {b : Backing} (h : (encodeBacking b).length < UInt64.size) :
    BackingFits b := by
  induction b with
  | int => exact .int
  | bool => exact .bool
  | tuple elems ih =>
    simp only [encodeBacking, encodeBackings_eq, List.length_append] at h
    have helems := parts_fit encodeBacking (fun _ => length_encodeBacking_pos) (by omega) ih
    exact .tuple helems.1 helems.2

theorem entryFits_of_length {e : Entry} (h : (encodeEntry e).length < UInt64.size) :
    EntryFits e := by
  cases e with
  | type d =>
    simp only [encodeEntry, List.length_append] at h
    exact nameFits_of_length (by omega)
  | constructor d =>
    simp only [encodeEntry, List.length_append] at h
    exact ⟨nameFits_of_length (by omega), tyFits_of_length (by omega)⟩
  | eliminator d =>
    simp only [encodeEntry, List.length_append] at h
    exact ⟨nameFits_of_length (by omega), tyFits_of_length (by omega)⟩
  | equation d =>
    simp only [encodeEntry, List.length_append] at h
    refine ⟨nameFits_of_length (by omega), nameFits_of_length (by omega), ?_,
      termFits_of_length (by omega)⟩
    exact parts_fit encodeName (fun _ => length_encodeName_pos) (by omega) fun _ _ =>
      nameFits_of_length
  | representation d =>
    simp only [encodeEntry, List.length_append] at h
    exact ⟨nameFits_of_length (by omega), backingFits_of_length (by omega)⟩
  | implementation d =>
    simp only [encodeEntry, List.length_append] at h
    exact ⟨nameFits_of_length (by omega), termFits_of_length (by omega)⟩

end Archive

end ClosedTypes
