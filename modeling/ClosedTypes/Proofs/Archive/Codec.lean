import ClosedTypes.Declaration.Draft
import ClosedTypes.Proofs.Archive.Fits
/-!
What is written of names, types, terms, backings and declarations is read back, as long as every
list in it can be counted. A metavariable is written too, but nothing that holds one is ever read.
-/

namespace ClosedTypes

namespace Entry

def Rigid : Entry → Prop
  | .constructor d => ∀ i, d.signature.mentionsMetavar i = false
  | .eliminator d => ∀ i, d.signature.mentionsMetavar i = false
  | .equation d => ∀ ty ∈ d.rhs.annotations, ∀ i, ty.mentionsMetavar i = false
  | .implementation d => ∀ ty ∈ d.body.annotations, ∀ i, ty.mentionsMetavar i = false
  | _ => True

/-- Owner and motive are those that the signature has. -/
def Canonical (e : Entry) : Prop := e.draft.entry = .ok e

theorem canonical_of_entry {draft : Draft} {e : Entry} (h : draft.entry = .ok e) : e.Canonical := by
  cases draft with
  | constructor name signature =>
    obtain ⟨d, hd, rfl⟩ := map_eq_ok_iff.1 h
    have hparts : d.name = name ∧ d.signature = signature := by
      unfold Constructor.ofSignature at hd
      split at hd <;> cases hd
      exact ⟨rfl, rfl⟩
    show Entry.constructor <$> Constructor.ofSignature d.name d.signature = _
    rw [hparts.1, hparts.2]
    exact h
  | eliminator name signature =>
    obtain ⟨d, hd, rfl⟩ := map_eq_ok_iff.1 h
    have hparts : d.name = name ∧ d.signature = signature := by
      unfold Eliminator.ofSignature at hd
      split at hd
      · cases hd
      · split at hd <;> cases hd
        exact ⟨rfl, rfl⟩
    show Entry.eliminator <$> Eliminator.ofSignature d.name d.signature = _
    rw [hparts.1, hparts.2]
    exact h
  | _ =>
    cases h
    rfl

end Entry

namespace Archive

variable {α : Type} {depth : Nat}

theorem reads_readName {x : Name} (hfit : NameFits x) : Reads readName (encodeName x) x := by
  unfold encodeName
  refine reads_readCount.bind fun rest => ?_
  have hlen : (lengthOf (Utf8.encode x)).toNat = (Utf8.encode x).length := toNat_lengthOf hfit
  rw [answers_bind_of_iff fun _ _ => answers_get]
  simp only [hlen, List.length_append, Nat.not_lt.2 (Nat.le_add_right _ _), if_false,
    List.take_left', List.drop_left', answers_bind, answers_set, Utf8.decode_encode, answers_pure]
  exact ⟨(), rest, rfl, trivial, rfl⟩

theorem exists_level {bytes : List UInt8} (hpos : 0 < bytes.length)
    (hdepth : bytes.length ≤ depth) : ∃ d, depth = d + 1 :=
  Nat.exists_eq_add_one.2 (Nat.lt_of_lt_of_le hpos hdepth)

theorem readsIf_parts {item : Nat → Reader α} {encode : α → List UInt8} {holds : α → Prop}
    {xs : List α} (hcount : Counted xs) (hdepth : (xs.flatMap encode).length ≤ depth)
    (h : ∀ x ∈ xs, (encode x).length ≤ depth → ReadsIf (holds x) (item depth) (encode x) x) :
    ReadsIf (∀ x ∈ xs, holds x) (readMany (item depth) (lengthOf xs).toNat)
      (xs.flatMap encode) xs := by
  rw [toNat_lengthOf hcount]
  exact readsIf_readMany fun x hx => h x hx (Nat.le_trans (length_le_flatMap hx) hdepth)

theorem readsIf_readTyWithin {t : Ty} (hfit : TyFits t) (hdepth : (encodeTy t).length ≤ depth) :
    ReadsIf (∀ i, t.mentionsMetavar i = false) (readTyWithin depth) (encodeTy t) t := by
  induction t generalizing depth with
  | metavar i =>
    obtain ⟨d, rfl⟩ := exists_level length_encodeTy_pos hdepth
    refine ⟨fun h => absurd (h i) (by simp), fun _ => ?_⟩
    rw [readTyWithin, ← List.append_nil (encodeTy _)]
    exact (reads_readTag (by decide)).bind_rejects (rejects_throw _)
  | var x =>
    obtain ⟨d, rfl⟩ := exists_level length_encodeTy_pos hdepth
    cases hfit with | var hx
    rw [readTyWithin]
    exact ((reads_readTag (by decide)).bind ((reads_readName hx).last Ty.var)).readsIf fun i =>
      by simp
  | prim p =>
    obtain ⟨d, rfl⟩ := exists_level length_encodeTy_pos hdepth
    rw [readTyWithin, ← List.append_nil (encodeTy _)]
    refine Reads.readsIf ?_ fun i => by simp
    cases p with
    | int => exact (reads_readTag (by decide)).bind (Reads.pure _)
    | bool => exact (reads_readTag (by decide)).bind (Reads.pure _)
  | const c args ih =>
    obtain ⟨d, rfl⟩ := exists_level length_encodeTy_pos hdepth
    cases hfit with | const hc hcount hargs
    have hpos := length_tag_pos 2 (lengthOf args)
    simp only [encodeTy, encodeTys_eq, List.length_append, List.append_assoc] at hdepth ⊢
    rw [readTyWithin]
    have hparts := readsIf_parts hcount (show _ ≤ d by omega) fun t ht => ih t ht (hargs t ht)
    refine ReadsIf.congr
      ((reads_readTag (by decide)).bind_if ((reads_readName hc).bind_if (hparts.last (Ty.const c))))
        ?_
    simp only [Ty.mentionsMetavar_const, List.any_eq_false, Bool.not_eq_true]
    exact ⟨fun h i t ht => h t ht i, fun h t ht i => h i t ht⟩
  | arrow a b iha ihb =>
    obtain ⟨d, rfl⟩ := exists_level length_encodeTy_pos hdepth
    cases hfit with | arrow ha hb
    have hpos := length_tag_pos 3 0
    simp only [encodeTy, List.length_append, List.append_assoc] at hdepth ⊢
    rw [readTyWithin]
    refine ReadsIf.congr ((reads_readTag (by decide)).bind_if
      ((iha ha (by omega)).bind ((ihb hb (by omega)).last (Ty.arrow a)))) ?_
    simp only [Ty.mentionsMetavar_arrow, Bool.or_eq_false_iff, forall_and]
  | tuple elems ih =>
    obtain ⟨d, rfl⟩ := exists_level length_encodeTy_pos hdepth
    cases hfit with | tuple hcount helems
    have hpos := length_tag_pos 5 (lengthOf elems)
    simp only [encodeTy, encodeTys_eq, List.length_append] at hdepth ⊢
    rw [readTyWithin]
    have hparts := readsIf_parts hcount (show _ ≤ d by omega) fun t ht => ih t ht (helems t ht)
    refine ReadsIf.congr ((reads_readTag (by decide)).bind_if (hparts.last Ty.tuple)) ?_
    simp only [Ty.mentionsMetavar_tuple, List.any_eq_false, Bool.not_eq_true]
    exact ⟨fun h i t ht => h t ht i, fun h t ht i => h i t ht⟩

theorem readsIf_readTy {t : Ty} (hfit : TyFits t) :
    ReadsIf (∀ i, t.mentionsMetavar i = false) readTy (encodeTy t) t :=
  readsIf_nested fun _ hdepth => readsIf_readTyWithin hfit hdepth

theorem all_opCode (op : Operator) : Operator.all[(opCode op).toNat]? = some op := by
  cases op <;> decide

theorem forall_annotationsAll {ts : List Term} {rigid : Ty → Prop} :
    (∀ t ∈ ts, ∀ ty ∈ t.annotations, rigid ty) ↔ ∀ ty ∈ Term.annotationsAll ts, rigid ty := by
  simp only [Term.mem_annotationsAll]
  exact ⟨fun h ty ⟨t, ht, hty⟩ => h t ht ty hty, fun h t ht ty hty => h ty ⟨t, ht, hty⟩⟩

theorem reads_lit (l : Literal) :
    Reads (readTermWithin (depth + 1)) (encodeTerm (.lit l)) (.lit l) := by
  rw [readTermWithin, ← List.append_nil (encodeTerm _)]
  cases l with
  | int n =>
    have hread : Reads (pure (.int (ofZigzag (zigzag n)))) [] (Term.lit (.int n)) := by
      rw [ofZigzag_zigzag]
      exact Reads.pure _
    exact (reads_readTag (by decide)).bind hread
  | bool b => cases b <;> exact (reads_readTag (by decide)).bind (Reads.pure _)

theorem readsIf_lam {x : Name} {dom : Option Ty} {b : Term} (hx : NameFits x)
    (hdom : ∀ ty ∈ dom, TyFits ty) (hdepth : (encodeTerm (.lam x dom b)).length ≤ depth + 1)
    (ih : (encodeTerm b).length ≤ depth →
      ReadsIf (∀ ty ∈ b.annotations, ∀ i, ty.mentionsMetavar i = false) (readTermWithin depth)
        (encodeTerm b) b) :
    ReadsIf (∀ ty ∈ (Term.lam x dom b).annotations, ∀ i, ty.mentionsMetavar i = false)
      (readTermWithin (depth + 1)) (encodeTerm (.lam x dom b)) (.lam x dom b) := by
  rw [readTermWithin]
  cases dom with
  | none =>
    have hpos := length_tag_pos 2 0
    simp only [encodeTerm, List.length_append, List.append_assoc] at hdepth ⊢
    exact (reads_readTag (by decide)).bind_if
      ((reads_readName hx).bind_if ((ih (by omega)).last (Term.lam x none)))
  | some dom =>
    have hpos := length_tag_pos 2 1
    simp only [encodeTerm, List.length_append, List.append_assoc] at hdepth ⊢
    refine ReadsIf.congr ((reads_readTag (by decide)).bind_if ((reads_readName hx).bind_if
      ((readsIf_readTy (hdom dom rfl)).bind ((ih (by omega)).last (Term.lam x (some dom)))))) ?_
    simp only [Term.annotations, Option.toList_some, List.singleton_append, List.forall_mem_cons]

theorem readsIf_elim {e : Name} {s : Term} {args : List Term} (he : NameFits e)
    (hcount : Counted args) (hdepth : (encodeTerm (.elim e s args)).length ≤ depth + 1)
    (ihs : (encodeTerm s).length ≤ depth →
      ReadsIf (∀ ty ∈ s.annotations, ∀ i, ty.mentionsMetavar i = false) (readTermWithin depth)
        (encodeTerm s) s)
    (ih : ∀ t ∈ args, (encodeTerm t).length ≤ depth →
      ReadsIf (∀ ty ∈ t.annotations, ∀ i, ty.mentionsMetavar i = false) (readTermWithin depth)
        (encodeTerm t) t) :
    ReadsIf (∀ ty ∈ (Term.elim e s args).annotations, ∀ i, ty.mentionsMetavar i = false)
      (readTermWithin (depth + 1)) (encodeTerm (.elim e s args)) (.elim e s args) := by
  have hpos := length_tag_pos 5 (lengthOf args)
  simp only [encodeTerm, encodeTerms_eq, List.length_append, List.append_assoc] at hdepth ⊢
  rw [readTermWithin]
  have hparts := readsIf_parts hcount (show _ ≤ depth by omega) ih
  refine ReadsIf.congr ((reads_readTag (by decide)).bind_if ((reads_readName he).bind_if
    ((ihs (by omega)).bind (hparts.last (Term.elim e s))))) ?_
  rw [forall_annotationsAll]
  exact List.forall_mem_append.symm

theorem readsIf_readTermWithin {t : Term} (hfit : TermFits t)
    (hdepth : (encodeTerm t).length ≤ depth) :
    ReadsIf (∀ ty ∈ t.annotations, ∀ i, ty.mentionsMetavar i = false) (readTermWithin depth)
      (encodeTerm t) t := by
  induction t generalizing depth with
  | var x =>
    obtain ⟨d, rfl⟩ := exists_level length_encodeTerm_pos hdepth
    cases hfit with | var hx
    rw [readTermWithin]
    exact ((reads_readTag (by decide)).bind ((reads_readName hx).last Term.var)).readsIf fun _ h =>
      absurd h List.not_mem_nil
  | app f a ihf iha =>
    obtain ⟨d, rfl⟩ := exists_level length_encodeTerm_pos hdepth
    cases hfit with | app hf ha
    have hpos := length_tag_pos 1 0
    simp only [encodeTerm, List.length_append, List.append_assoc] at hdepth ⊢
    rw [readTermWithin]
    exact ReadsIf.congr ((reads_readTag (by decide)).bind_if
      ((ihf hf (by omega)).bind ((iha ha (by omega)).last (Term.app f))))
        List.forall_mem_append.symm
  | lam x dom b ih =>
    obtain ⟨d, rfl⟩ := exists_level length_encodeTerm_pos hdepth
    cases hfit with | lam hx hdom hb
    exact readsIf_lam hx hdom hdepth (ih hb)
  | ann t ty ih =>
    obtain ⟨d, rfl⟩ := exists_level length_encodeTerm_pos hdepth
    cases hfit with | ann ht hty
    have hpos := length_tag_pos 3 0
    simp only [encodeTerm, List.length_append, List.append_assoc] at hdepth ⊢
    rw [readTermWithin]
    refine ReadsIf.congr ((reads_readTag (by decide)).bind_if
      ((ih ht (by omega)).bind ((readsIf_readTy hty).last (Term.ann t)))) ?_
    simp only [Term.annotations, List.forall_mem_append, List.forall_mem_singleton]
  | ctor c args ih =>
    obtain ⟨d, rfl⟩ := exists_level length_encodeTerm_pos hdepth
    cases hfit with | ctor hc hcount hargs
    have hpos := length_tag_pos 4 (lengthOf args)
    simp only [encodeTerm, encodeTerms_eq, List.length_append, List.append_assoc] at hdepth ⊢
    rw [readTermWithin]
    have hparts := readsIf_parts hcount (show _ ≤ d by omega) fun t ht => ih t ht (hargs t ht)
    exact ReadsIf.congr
      ((reads_readTag (by decide)).bind_if
        ((reads_readName hc).bind_if (hparts.last (Term.ctor c))))
      forall_annotationsAll
  | elim e s args ihs ih =>
    obtain ⟨d, rfl⟩ := exists_level length_encodeTerm_pos hdepth
    cases hfit with | elim he hs hcount hargs
    exact readsIf_elim he hcount hdepth (ihs hs) fun t ht => ih t ht (hargs t ht)
  | lit l =>
    obtain ⟨d, rfl⟩ := exists_level length_encodeTerm_pos hdepth
    exact (reads_lit l).readsIf fun _ h => absurd h List.not_mem_nil
  | prim op args ih =>
    obtain ⟨d, rfl⟩ := exists_level length_encodeTerm_pos hdepth
    cases hfit with | prim hcount hargs
    have hpos := length_tag_pos 8 (opCode op)
    simp only [encodeTerm, encodeTerms_eq, List.length_append, List.append_assoc] at hdepth ⊢
    rw [readTermWithin]
    have hparts := readsIf_parts hcount (show _ ≤ d by omega) fun t ht => ih t ht (hargs t ht)
    refine ReadsIf.congr (Reads.bind_if (reads_readTag (by decide)) ?_) forall_annotationsAll
    simp only [all_opCode]
    exact reads_readCount.bind_if (hparts.last (Term.prim op))
  | tuple elems ih =>
    obtain ⟨d, rfl⟩ := exists_level length_encodeTerm_pos hdepth
    cases hfit with | tuple hcount helems
    have hpos := length_tag_pos 9 (lengthOf elems)
    simp only [encodeTerm, encodeTerms_eq, List.length_append] at hdepth ⊢
    rw [readTermWithin]
    have hparts := readsIf_parts hcount (show _ ≤ d by omega) fun t ht => ih t ht (helems t ht)
    exact ReadsIf.congr ((reads_readTag (by decide)).bind_if (hparts.last Term.tuple))
      forall_annotationsAll
  | proj t i ih =>
    obtain ⟨d, rfl⟩ := exists_level length_encodeTerm_pos hdepth
    cases hfit with | proj ht
    have hpos := length_tag_pos 10 i
    simp only [encodeTerm, List.length_append] at hdepth ⊢
    rw [readTermWithin]
    exact (reads_readTag (by decide)).bind_if ((ih ht (by omega)).last (Term.proj · i))

theorem readsIf_readTerm {t : Term} (hfit : TermFits t) :
    ReadsIf (∀ ty ∈ t.annotations, ∀ i, ty.mentionsMetavar i = false) readTerm (encodeTerm t) t :=
  readsIf_nested fun _ hdepth => readsIf_readTermWithin hfit hdepth

theorem reads_readBackingWithin {b : Backing} (hfit : BackingFits b)
    (hdepth : (encodeBacking b).length ≤ depth) :
    Reads (readBackingWithin depth) (encodeBacking b) b := by
  induction b generalizing depth with
  | int =>
    obtain ⟨d, rfl⟩ := exists_level length_encodeBacking_pos hdepth
    rw [readBackingWithin, ← List.append_nil (encodeBacking _)]
    exact (reads_readTag (by decide)).bind (Reads.pure _)
  | bool =>
    obtain ⟨d, rfl⟩ := exists_level length_encodeBacking_pos hdepth
    rw [readBackingWithin, ← List.append_nil (encodeBacking _)]
    exact (reads_readTag (by decide)).bind (Reads.pure _)
  | tuple elems ih =>
    obtain ⟨d, rfl⟩ := exists_level length_encodeBacking_pos hdepth
    cases hfit with | tuple hcount helems
    have hpos := length_tag_pos 2 (lengthOf elems)
    simp only [encodeBacking, encodeBackings_eq, List.length_append] at hdepth ⊢
    rw [readBackingWithin]
    refine (reads_readTag (by decide)).bind (Reads.last ?_ Backing.tuple)
    rw [toNat_lengthOf hcount]
    refine reads_readMany fun b hb => ih b hb (helems b hb) ?_
    have hb' : (encodeBacking b).length ≤ (elems.flatMap encodeBacking).length :=
      length_le_flatMap hb
    omega

theorem reads_readBacking {b : Backing} (hfit : BackingFits b) :
    Reads readBacking (encodeBacking b) b :=
  (readsIf_nested fun _ hdepth => (reads_readBackingWithin hfit hdepth).readsIf trivial).reads
    trivial

theorem length_encodeEntry_pos {e : Entry} : 0 < (encodeEntry e).length := by
  cases e with
  | type d => exact length_append_pos
  | _ =>
    simp only [encodeEntry, List.append_assoc]
    exact length_append_pos

theorem reads_binders {binders : List Name} (hcount : Counted binders)
    (hnames : ∀ x ∈ binders, NameFits x) :
    Reads (readMany readName (lengthOf binders).toNat) (binders.flatMap encodeName) binders := by
  rw [toNat_lengthOf hcount]
  exact reads_readMany fun x hx => reads_readName (hnames x hx)

theorem reads_readEntry {e : Entry} (hfit : EntryFits e) (hrigid : e.Rigid)
    (hcanonical : e.Canonical) :
    Reads readEntry (encodeEntry e) e := by
  unfold readEntry
  cases e with
  | type d =>
    exact (reads_readTag (by decide)).bind ((reads_readName hfit).last fun name =>
      Entry.type ⟨name, d.arity⟩)
  | constructor d =>
    have hof : Constructor.ofSignature d.name d.signature = .ok d := by
      obtain ⟨d', hd', h⟩ := map_eq_ok_iff.1 hcanonical
      cases h
      exact hd'
    simp only [encodeEntry, List.append_assoc]
    refine (reads_readTag (by decide)).bind ((reads_readName hfit.1).bind ?_)
    rw [← List.append_nil (encodeTy _)]
    refine ((readsIf_readTy hfit.2).reads hrigid).bind ?_
    simp only [hof]
    exact Reads.pure _
  | eliminator d =>
    have hof : Eliminator.ofSignature d.name d.signature = .ok d := by
      obtain ⟨d', hd', h⟩ := map_eq_ok_iff.1 hcanonical
      cases h
      exact hd'
    simp only [encodeEntry, List.append_assoc]
    refine (reads_readTag (by decide)).bind ((reads_readName hfit.1).bind ?_)
    rw [← List.append_nil (encodeTy _)]
    refine ((readsIf_readTy hfit.2).reads hrigid).bind ?_
    simp only [hof]
    exact Reads.pure _
  | equation d =>
    obtain ⟨he, hc, ⟨hcount, hnames⟩, hrhs⟩ := hfit
    simp only [encodeEntry, List.append_assoc]
    exact (reads_readTag (by decide)).bind
      ((reads_readName he).bind ((reads_readName hc).bind ((reads_binders hcount hnames).bind
      (((readsIf_readTerm hrhs).reads hrigid).last fun rhs =>
        Entry.equation ⟨d.eliminator, d.constructor, d.binders, rhs⟩))))
  | representation d =>
    simp only [encodeEntry, List.append_assoc]
    exact (reads_readTag (by decide)).bind ((reads_readName hfit.1).bind
      ((reads_readBacking hfit.2).last fun backing => Entry.representation ⟨d.typeName, backing⟩))
  | implementation d =>
    simp only [encodeEntry, List.append_assoc]
    exact (reads_readTag (by decide)).bind ((reads_readName hfit.1).bind
      (((readsIf_readTerm hfit.2).reads hrigid).last fun body => Entry.implementation ⟨d.op, body⟩))

theorem rejects_readEntry {e : Entry} (hfit : EntryFits e) (hrigid : ¬e.Rigid) :
    Rejects readEntry (encodeEntry e) := by
  unfold readEntry
  cases e with
  | type d => exact absurd trivial hrigid
  | representation d => exact absurd trivial hrigid
  | constructor d =>
    simp only [encodeEntry, List.append_assoc]
    rw [← List.append_nil (encodeTy _)]
    exact (reads_readTag (by decide)).bind_rejects
      ((reads_readName hfit.1).bind_rejects ((readsIf_readTy hfit.2).rejects hrigid).bind)
  | eliminator d =>
    simp only [encodeEntry, List.append_assoc]
    rw [← List.append_nil (encodeTy _)]
    exact (reads_readTag (by decide)).bind_rejects
      ((reads_readName hfit.1).bind_rejects ((readsIf_readTy hfit.2).rejects hrigid).bind)
  | equation d =>
    obtain ⟨he, hc, ⟨hcount, hnames⟩, hrhs⟩ := hfit
    simp only [encodeEntry, List.append_assoc]
    rw [← List.append_nil (encodeTerm _)]
    exact (reads_readTag (by decide)).bind_rejects
      ((reads_readName he).bind_rejects ((reads_readName hc).bind_rejects
      ((reads_binders hcount hnames).bind_rejects ((readsIf_readTerm hrhs).rejects hrigid).bind)))
  | implementation d =>
    simp only [encodeEntry, List.append_assoc]
    rw [← List.append_nil (encodeTerm _)]
    exact (reads_readTag (by decide)).bind_rejects
      ((reads_readName hfit.1).bind_rejects ((readsIf_readTerm hfit.2).rejects hrigid).bind)

theorem reads_encode :
    (∀ x, NameFits x → Reads readName (encodeName x) x) ∧
    (∀ b, BackingFits b → Reads readBacking (encodeBacking b) b) ∧
    (∀ t, TyFits t → ReadsIf (∀ i, t.mentionsMetavar i = false) readTy (encodeTy t) t) ∧
    (∀ t, TermFits t → ReadsIf (∀ ty ∈ t.annotations, ∀ i, ty.mentionsMetavar i = false) readTerm
      (encodeTerm t) t) ∧
    ∀ e, EntryFits e →
      (e.Rigid → e.Canonical → Reads readEntry (encodeEntry e) e) ∧
      (¬e.Rigid → Rejects readEntry (encodeEntry e)) :=
  ⟨fun _ => reads_readName, fun _ => reads_readBacking, fun _ => readsIf_readTy, fun _ =>
    readsIf_readTerm, fun _ hfit => ⟨reads_readEntry hfit, rejects_readEntry hfit⟩⟩

theorem reads_encode_zero :
    Reads readEntry (encodeEntry (.constructor ⟨"Zero", .const "Nat" [], "Nat"⟩))
      (.constructor ⟨"Zero", .const "Nat" [], "Nat"⟩) ∧
      Rejects readTerm (encodeTerm (.ann (.var "x") (.metavar 0))) := by
  obtain ⟨-, -, -, hterm, hentry⟩ := reads_encode
  have hfit : EntryFits (.constructor ⟨"Zero", .const "Nat" [], "Nat"⟩) :=
    ⟨by decide, .const (by decide) (by decide) nofun⟩
  refine ⟨(hentry _ hfit).1 (fun _ => rfl) rfl, ?_⟩
  refine (hterm _ (.ann (.var (by decide)) .metavar)).rejects fun h => ?_
  exact absurd (h _ (List.mem_singleton.2 rfl) 0) (by decide)

end Archive

end ClosedTypes
