import ClosedTypes.Archive.Bounds
import ClosedTypes.Proofs.Archive.Reads
import Mathlib.Algebra.Ring.Nat
import Mathlib.Logic.Function.Iterate
/-!
Reading is bounded by what there is to read, whatever the counts in the headers say. A value takes
up a byte for each of its nodes, so that a list gives out after as many items as there are bytes,
and a recursion after as many levels.
-/

namespace ClosedTypes.Archive

variable {α β : Type} {r r' : Reader α} {f f' : α → Reader β} {m m' : α → Nat} {n : β → Nat}
  {bytes rest : List UInt8} {a : α}

def Spends (r : Reader α) (m : α → Nat) : Prop :=
  ∀ ⦃bytes a rest⦄, Answers r bytes a rest → rest <:+ bytes ∧ m a + rest.length ≤ bytes.length

theorem Spends.mono (h : Spends r m) (hm : ∀ a, m' a ≤ m a) : Spends r m' := by
  intro bytes a rest ha
  obtain ⟨hsuffix, hspent⟩ := h ha
  exact ⟨hsuffix, Nat.le_trans (Nat.add_le_add_right (hm a) _) hspent⟩

theorem Spends.pure (hm : m a = 0) : Spends (Pure.pure a) m := by
  intro bytes b rest h
  obtain ⟨rfl, rfl⟩ := answers_pure.1 h
  rw [hm, Nat.zero_add]
  exact ⟨List.suffix_rfl, Nat.le_refl _⟩

theorem Spends.throw (e : DecodeError) : Spends (MonadExcept.throw e) m :=
  fun _ _ _ h => absurd h not_answers_throw

theorem Spends.bind (h : Spends r m) (hf : ∀ a, Spends (f a) fun b => n b - m a) :
    Spends (r >>= f) n := by
  intro bytes b rest hb
  obtain ⟨a, mid, ha, hb⟩ := answers_bind.1 hb
  obtain ⟨hmid, hfirst⟩ := h ha
  obtain ⟨hrest, hsecond⟩ := hf a hb
  dsimp only at hsecond
  exact ⟨hrest.trans hmid, by omega⟩

theorem suffix_of_answers_take {width : Nat} {e : DecodeError}
    (h : Answers (if bytes.length < width then throw e >>= fun _ : Unit =>
      set (bytes.drop width) >>= fun _ => r
      else set (bytes.drop width) >>= fun _ => r) bytes a rest) (hr : Spends r fun _ => 0) :
        rest <:+ bytes := by
  split at h
  · simp at h
  · obtain ⟨_, left, hset, h⟩ := answers_bind.1 h
    obtain rfl : bytes.drop width = left := answers_set.1 hset
    exact (hr h).1.trans (List.drop_suffix width bytes)

theorem suffix_of_answers_readHeader {spill head : UInt8} {tail : List UInt8} {a : UInt8 × UInt64}
    (h : Answers (readHeader spill) (head :: tail) a rest) : rest <:+ tail := by
  unfold readHeader at h
  rw [answers_bind_of_iff fun _ _ => answers_get] at h
  obtain ⟨_, left, hset, h⟩ := answers_bind.1 h
  obtain rfl : tail = left := answers_set.1 hset
  dsimp only at h
  generalize head &&& spill <<< 1 - 1 = low, head &&& ~~~(spill <<< 1 - 1) = high at h
  generalize (low &&& ~~~spill).toNat + 1 = width at h
  split at h
  · obtain ⟨-, rfl⟩ := answers_pure.1 h
    exact List.suffix_rfl
  · split at h
    · simp at h
    · exact suffix_of_answers_take h (.pure rfl)

theorem spends_readHeader {spill : UInt8} : Spends (readHeader spill) fun _ => 1 := by
  intro bytes a rest h
  cases bytes with
  | nil => exact absurd h not_answers_throw
  | cons head tail =>
    have hrest := suffix_of_answers_readHeader h
    have hlength := hrest.length_le
    exact ⟨hrest.trans (List.suffix_cons head tail), by grind⟩

theorem spends_readTag : Spends readTag fun _ => 1 :=
  spends_readHeader.bind fun _ => .pure rfl

theorem spends_readCount : Spends readCount fun _ => 1 :=
  spends_readHeader.bind fun _ => .pure rfl

theorem spends_readName : Spends readName fun _ => 1 := by
  unfold readName
  refine spends_readCount.bind fun length => ?_
  intro bytes a rest h
  rw [answers_bind_of_iff fun _ _ => answers_get] at h
  have hrest := suffix_of_answers_take h ?_
  · have hlength := hrest.length_le
    exact ⟨hrest, by grind⟩
  · split
    · exact .pure rfl
    · exact .throw _

theorem Spends.readMany (h : Spends r m) (count : Nat) :
    Spends (Archive.readMany r count) fun xs => (xs.map m).sum := by
  induction count with
  | zero => exact .pure rfl
  | succ count ih =>
    refine h.bind fun x => ih.bind fun xs => .pure ?_
    simp

def Alike (k : Nat) (r r' : Reader α) : Prop :=
  ∀ bytes : List UInt8, bytes.length ≤ k → r.read bytes = r'.read bytes

theorem Alike.refl (k : Nat) (r : Reader α) : Alike k r r := fun _ _ => rfl

theorem Alike.bind {k : Nat} (h : Alike k r r') (hr : Spends r' m)
    (hf : ∀ a, Alike k (f a) (f' a)) :
    Alike k (r >>= f) (r' >>= f') := by
  intro bytes hbytes
  rw [read_bind, read_bind, h bytes hbytes]
  rcases hread : r'.read bytes with ⟨e | a, rest⟩
  · rfl
  · have hlength := (hr hread).1.length_le
    exact hf a rest (by omega)

theorem Alike.behind_tag {k : Nat} {f f' : UInt8 × UInt64 → Reader β}
    (hf : ∀ tag, Alike k (f tag) (f' tag)) :
    Alike (k + 1) (readTag >>= f) (readTag >>= f') := by
  intro bytes hbytes
  rw [read_bind, read_bind]
  rcases hread : readTag.read bytes with ⟨e | a, rest⟩
  · rfl
  · have hspent : 1 + rest.length ≤ bytes.length := (spends_readTag hread).2
    exact hf a rest (by omega)

theorem Alike.readMany {k : Nat} (h : Alike k r r') (hr : Spends r' m) (count : Nat) :
    Alike k (readMany r count) (Archive.readMany r' count) := by
  induction count with
  | zero => exact .refl k _
  | succ _ ih => exact h.bind hr fun x => ih.bind (hr.readMany _) fun xs => .refl k _

theorem Alike.behind {k : Nat} (hr : Spends r m) (hf : ∀ a, Alike k (f a) (f' a)) :
    Alike k (r >>= f) (r >>= f') :=
  (Alike.refl k r).bind hr hf

theorem Alike.last_list {k : Nat} {c : List α → β} (h : Alike k r r') (hr : Spends r' m)
    (count : Nat) :
    Alike k (Archive.readMany r count >>= fun xs => Pure.pure (c xs))
      (Archive.readMany r' count >>= fun xs => Pure.pure (c xs)) :=
  (h.readMany hr count).bind (hr.readMany count) fun _ => .refl k _

structure Guarded (node : Reader α → Reader α) (m : α → Nat) : Prop where
  spends : ∀ {r}, Spends r m → Spends (node r) m
  alike_zero : ∀ r, Alike 0 (node r) (throw .noHeader)
  alike_succ : ∀ {k r r'}, Alike k r r' → Spends r' m → Alike (k + 1) (node r) (node r')

/-- `r` is the recursion through `node`, and comes to its end: whatever stood for the calls
deeper than there are bytes, the same would be read. -/
structure Recursion (node : Reader α → Reader α) (r : Reader α) : Prop where
  unfolds : r = node r
  ends : ∀ (deeper : Reader α) (bytes : List UInt8) (depth : Nat), bytes.length < depth →
    (node^[depth] deeper).read bytes = r.read bytes

variable {node : Reader α → Reader α} {level : Nat → Reader α}

section

variable (h : Guarded node m) (hzero : level 0 = throw .noHeader)
  (hsucc : ∀ depth, level (depth + 1) = node (level depth))

include h hzero hsucc

theorem Guarded.spends_level (depth : Nat) : Spends (level depth) m := by
  induction depth with
  | zero =>
    rw [hzero]
    exact .throw _
  | succ depth ih =>
    rw [hsucc]
    exact h.spends ih

theorem Guarded.spends_nested : Spends (nested level) m := by
  intro bytes a rest ha
  unfold nested at ha
  rw [answers_bind_of_iff fun _ _ => answers_get] at ha
  exact h.spends_level hzero hsucc _ ha

theorem Guarded.alike_level (k more : Nat) : Alike k (level (k + more)) (level k) := by
  induction k with
  | zero =>
    cases more with
    | zero => exact .refl 0 _
    | succ more =>
      rw [Nat.zero_add, hsucc, hzero]
      exact h.alike_zero _
  | succ k ih =>
    rw [Nat.succ_add, hsucc, hsucc]
    exact h.alike_succ ih (h.spends_level hzero hsucc k)

theorem Guarded.alike_nested (k : Nat) : Alike k (level k) (nested level) := by
  intro bytes hbytes
  have hdeep := h.alike_level hzero hsucc bytes.length (k - bytes.length) bytes (Nat.le_refl _)
  rw [Nat.add_sub_cancel' hbytes] at hdeep
  exact hdeep

theorem Guarded.unfolds : nested level = node (nested level) := by
  funext bytes
  have hparts :=
    h.alike_succ (h.alike_nested hzero hsucc bytes.length) (h.spends_nested hzero hsucc)
  have hdeep := h.alike_level hzero hsucc bytes.length 1
  calc (nested level).read bytes
    _ = (level (bytes.length + 1)).read bytes := (hdeep bytes (Nat.le_refl _)).symm
    _ = (node (level bytes.length)).read bytes := by rw [hsucc]
    _ = (node (nested level)).read bytes := hparts bytes (Nat.le_succ _)

theorem Guarded.alike_iterate (deeper : Reader α) (k : Nat) :
    Alike k (node^[k + 1] deeper) (nested level) := by
  induction k with
  | zero =>
    intro bytes hbytes
    rw [h.unfolds hzero hsucc, h.alike_zero _ bytes hbytes]
    exact h.alike_zero _ bytes hbytes
  | succ k ih =>
    rw [Function.iterate_succ_apply', h.unfolds hzero hsucc]
    exact h.alike_succ ih (h.spends_nested hzero hsucc)

theorem Guarded.recursion : Recursion node (nested level) where
  unfolds := h.unfolds hzero hsucc
  ends deeper bytes depth hdepth := by
    obtain ⟨k, rfl⟩ := Nat.exists_eq_succ_of_ne_zero (Nat.ne_zero_of_lt hdepth)
    exact h.alike_iterate hzero hsucc deeper k bytes (Nat.le_of_lt_succ hdepth)

end

theorem nodesAll_tys (ts : List Ty) : Ty.nodesAll ts = (ts.map Ty.nodes).sum := by
  induction ts with
  | nil => rfl
  | cons t ts ih => rw [Ty.nodesAll, ih, List.map_cons, List.sum_cons]

theorem nodesAll_terms (ts : List Term) : Term.nodesAll ts = (ts.map Term.nodes).sum := by
  induction ts with
  | nil => rfl
  | cons t ts ih => rw [Term.nodesAll, ih, List.map_cons, List.sum_cons]

theorem nodesAll_backings (bs : List Backing) :
    Backing.nodesAll bs = (bs.map Backing.nodes).sum := by
  induction bs with
  | nil => rfl
  | cons b bs ih => rw [Backing.nodesAll, ih, List.map_cons, List.sum_cons]

theorem spends_tyNode {parts : Reader Ty} (h : Spends parts Ty.nodes) :
    Spends (tyNode parts) Ty.nodes := by
  unfold tyNode
  refine spends_readTag.bind fun (kind, size) => ?_
  dsimp only
  split
  · exact spends_readName.bind fun x => .pure rfl
  · exact .throw _
  · refine spends_readName.bind fun c => (h.readMany _).bind fun args => .pure ?_
    rw [Ty.nodes, nodesAll_tys]
    omega
  · refine h.bind fun d => h.bind fun c => .pure ?_
    rw [Ty.nodes]
    omega
  · split
    · exact .pure rfl
    · exact .pure rfl
    · exact .throw _
  · refine (h.readMany _).bind fun elems => .pure ?_
    rw [Ty.nodes, nodesAll_tys]
    omega
  · exact .throw _

theorem guarded_tyNode : Guarded tyNode Ty.nodes where
  spends := spends_tyNode
  alike_zero r bytes hbytes := by
    obtain rfl := List.eq_nil_of_length_eq_zero (Nat.le_zero.1 hbytes)
    rfl
  alike_succ h hr := by
    refine .behind_tag fun (kind, size) => ?_
    dsimp only
    split
    · exact .refl _ _
    · exact .refl _ _
    · exact .behind spends_readName fun c => h.last_list hr _
    · exact h.bind hr fun d => h.bind hr fun c => .refl _ _
    · exact .refl _ _
    · exact h.last_list hr _
    · exact .refl _ _

theorem spends_readTy : Spends readTy Ty.nodes := guarded_tyNode.spends_nested rfl readTyWithin_succ

theorem spends_termNode {parts : Reader Term} (h : Spends parts Term.nodes) :
    Spends (termNode parts) Term.nodes := by
  unfold termNode
  refine spends_readTag.bind fun (kind, size) => ?_
  dsimp only
  split
  · exact spends_readName.bind fun x => .pure rfl
  · refine h.bind fun f => h.bind fun a => .pure ?_
    rw [Term.nodes]
    omega
  · refine spends_readName.bind fun x => ?_
    split
    · refine h.bind fun b => .pure ?_
      rw [Term.nodes]
      omega
    · refine spends_readTy.bind fun d => h.bind fun b => .pure ?_
      rw [Term.nodes]
      omega
    · exact .throw _
  · refine h.bind fun t => spends_readTy.bind fun ty => .pure ?_
    rw [Term.nodes]
    omega
  · refine spends_readName.bind fun c => (h.readMany _).bind fun args => .pure ?_
    rw [Term.nodes, nodesAll_terms]
    omega
  · refine spends_readName.bind fun e => h.bind fun s => (h.readMany _).bind fun args => .pure ?_
    rw [Term.nodes, nodesAll_terms]
    omega
  · exact .pure rfl
  · split
    · exact .pure rfl
    · exact .pure rfl
    · exact .throw _
  · split
    · exact .throw _
    · refine spends_readCount.bind fun count => (h.readMany _).bind fun args => .pure ?_
      rw [Term.nodes, nodesAll_terms]
      omega
  · refine (h.readMany _).bind fun elems => .pure ?_
    rw [Term.nodes, nodesAll_terms]
    omega
  · refine h.bind fun t => .pure ?_
    rw [Term.nodes]
    omega
  · exact .throw _

theorem guarded_termNode : Guarded termNode Term.nodes where
  spends := spends_termNode
  alike_zero r bytes hbytes := by
    obtain rfl := List.eq_nil_of_length_eq_zero (Nat.le_zero.1 hbytes)
    rfl
  alike_succ h hr := by
    refine .behind_tag fun (kind, size) => ?_
    dsimp only
    split
    · exact .refl _ _
    · exact h.bind hr fun f => h.bind hr fun a => .refl _ _
    · refine .behind spends_readName fun x => ?_
      split
      · exact h.bind hr fun b => .refl _ _
      · exact .behind spends_readTy fun d => h.bind hr fun b => .refl _ _
      · exact .refl _ _
    · exact h.bind hr fun t => .refl _ _
    · exact .behind spends_readName fun c => h.last_list hr _
    · exact .behind spends_readName fun e => h.bind hr fun s => h.last_list hr _
    · exact .refl _ _
    · exact .refl _ _
    · split
      · exact .refl _ _
      · exact .behind spends_readCount fun count => h.last_list hr _
    · exact h.last_list hr _
    · exact h.bind hr fun t => .refl _ _
    · exact .refl _ _

theorem spends_readTerm : Spends readTerm Term.nodes :=
  guarded_termNode.spends_nested rfl readTermWithin_succ

theorem spends_backingNode {parts : Reader Backing} (h : Spends parts Backing.nodes) :
    Spends (backingNode parts) Backing.nodes := by
  unfold backingNode
  refine spends_readTag.bind fun (kind, size) => ?_
  dsimp only
  split
  · exact .pure rfl
  · exact .pure rfl
  · refine (h.readMany _).bind fun elems => .pure ?_
    rw [Backing.nodes, nodesAll_backings]
    omega
  · exact .throw _

theorem guarded_backingNode : Guarded backingNode Backing.nodes where
  spends := spends_backingNode
  alike_zero r bytes hbytes := by
    obtain rfl := List.eq_nil_of_length_eq_zero (Nat.le_zero.1 hbytes)
    rfl
  alike_succ h hr := by
    refine .behind_tag fun (kind, size) => ?_
    dsimp only
    split
    · exact .refl _ _
    · exact .refl _ _
    · exact h.last_list hr _
    · exact .refl _ _

theorem spends_readBacking : Spends readBacking Backing.nodes :=
  guarded_backingNode.spends_nested rfl readBackingWithin_succ

theorem signature_of_constructor {name : Name} {signature : Ty} {d : Constructor}
    (h : Constructor.ofSignature name signature = .ok d) : d.signature = signature := by
  unfold Constructor.ofSignature at h
  split at h
  · cases h
    rfl
  · cases h

theorem signature_of_eliminator {name : Name} {signature : Ty} {d : Eliminator}
    (h : Eliminator.ofSignature name signature = .ok d) : d.signature = signature := by
  unfold Eliminator.ofSignature at h
  split at h
  · cases h
  · split at h
    · cases h
    · cases h
      rfl

theorem spends_readEntry : Spends readEntry fun d => d.nodes + 2 := by
  unfold readEntry
  refine spends_readTag.bind fun (kind, size) => ?_
  dsimp only
  split
  · exact spends_readName.bind fun name => .pure rfl
  · refine spends_readName.bind fun name => spends_readTy.bind fun signature => ?_
    split
    · rename_i d hd
      refine .pure ?_
      rw [Entry.nodes, signature_of_constructor hd]
      omega
    · exact .throw _
  · refine spends_readName.bind fun name => spends_readTy.bind fun signature => ?_
    split
    · rename_i d hd
      refine .pure ?_
      rw [Entry.nodes, signature_of_eliminator hd]
      omega
    · exact .throw _
  · refine spends_readName.bind fun eliminator => spends_readName.bind fun constructor =>
      (spends_readName.readMany _).bind fun binders => spends_readTerm.bind fun rhs => .pure ?_
    rw [List.map_const', List.sum_replicate_nat, Nat.mul_one]
    dsimp only [Entry.nodes]
    omega
  · refine spends_readName.bind fun typeName => spends_readBacking.bind fun backing => .pure ?_
    dsimp only [Entry.nodes]
    omega
  · refine spends_readName.bind fun op => spends_readTerm.bind fun body => .pure ?_
    dsimp only [Entry.nodes]
    omega
  · exact .throw _

theorem spends_readBlock : Spends readBlock fun _ => 1 := by
  unfold readBlock
  refine spends_readCount.bind fun count => ((spends_readEntry.readMany _).mono fun _ => ?_)
  exact Nat.zero_le _

theorem readManyTally_fst (item : Reader α) (count : Nat) (bytes : List UInt8) :
    (readManyTally item count bytes).1 = (readMany item count).read bytes := by
  induction count generalizing bytes with
  | zero => rfl
  | succ count ih =>
    rw [readManyTally, readMany, read_bind]
    cases item.read bytes with
    | mk answer rest =>
      cases answer with
      | error e => rfl
      | ok x =>
        dsimp only
        rw [ih, read_bind]
        cases (readMany item count).read rest with
        | mk answer rest => cases answer <;> rfl

theorem readManyTally_snd_le {item : Reader α} (h : Spends item fun _ => 1) (count : Nat)
    (bytes : List UInt8) :
    (readManyTally item count bytes).2 ≤ bytes.length + 1 := by
  induction count generalizing bytes with
  | zero => exact Nat.zero_le _
  | succ count ih =>
    rw [readManyTally]
    split
    · exact Nat.le_add_left 1 _
    · rename_i x rest hread
      have hspent : 1 + rest.length ≤ bytes.length := (h hread).2
      have hrest := ih rest
      dsimp only
      omega

theorem replayTally_fst (i count : Nat) (ctx : Context) (bytes : List UInt8) :
    (replayTally i count ctx bytes).1 = replay i count ctx bytes := by
  induction count generalizing i ctx bytes with
  | zero => cases bytes <;> rfl
  | succ count ih =>
    rw [replayTally, replay]
    rcases readBlock.read bytes with ⟨e | entries, rest⟩
    · rfl
    · dsimp only
      cases replayBlock ctx i entries with
      | error e => rfl
      | ok ctx => exact ih (i + 1) ctx rest

theorem replayTally_snd_le (i count : Nat) (ctx : Context) (bytes : List UInt8) :
    (replayTally i count ctx bytes).2 ≤ bytes.length + 1 := by
  induction count generalizing i ctx bytes with
  | zero => cases bytes <;> exact Nat.zero_le _
  | succ count ih =>
    rw [replayTally]
    split
    · exact Nat.le_add_left 1 _
    · rename_i entries rest hread
      have hspent : 1 + rest.length ≤ bytes.length := (spends_readBlock hread).2
      split
      · exact Nat.le_add_left 1 _
      · rename_i ctx' hblock
        have hrest := ih (i + 1) ctx' rest
        dsimp only
        omega

theorem loadTally_fst (bytes : List UInt8) : (loadTally bytes).1 = load bytes := by
  cases bytes with
  | nil => rfl
  | cons v bytes =>
    rw [loadTally, load]
    split
    · rcases readCount.read bytes with ⟨e | count, rest⟩
      · rfl
      · exact replayTally_fst 0 _ _ rest
    · rfl

theorem loadTally_snd_le (bytes : List UInt8) : (loadTally bytes).2 ≤ bytes.length := by
  cases bytes with
  | nil => exact Nat.le_refl 0
  | cons v bytes =>
    rw [loadTally]
    split
    · split
      · exact Nat.zero_le _
      · rename_i count rest hread
        have hspent := (spends_readCount hread).1.length_le
        exact Nat.le_trans (replayTally_snd_le 0 _ _ rest) (Nat.succ_le_succ hspent)
    · exact Nat.zero_le _

/-- On every answer of `r` a proper suffix is left and no more nodes have been read than bytes. A
list of such items is over, or has failed, after one try more than there are bytes, however many
items it should have. -/
structure BoundedBy (r : Reader α) (nodes : α → Nat) : Prop where
  answers : ∀ {bytes a rest}, Answers r bytes a rest → rest <:+ bytes ∧ rest ≠ bytes ∧
    nodes a + rest.length ≤ bytes.length
  lists : ∀ (count : UInt64) (bytes : List UInt8), (readManyTally r count.toNat bytes).1 =
    (readMany r count.toNat).read bytes ∧
    (readManyTally r count.toNat bytes).2 ≤ bytes.length + 1

theorem Spends.boundedBy {nodes : α → Nat} (h : Spends r m) (hpos : ∀ a, 0 < m a)
    (hnodes : ∀ a, nodes a ≤ m a) :
    BoundedBy r nodes where
  answers {bytes a rest} ha := by
    obtain ⟨hsuffix, hspent⟩ := h ha
    have hone := hpos a
    have hle := hnodes a
    refine ⟨hsuffix, ?_, by omega⟩
    rintro rfl
    omega
  lists count bytes := ⟨readManyTally_fst r _ bytes, readManyTally_snd_le (h.mono hpos) _ bytes⟩

/-- Whatever the counts say, reading ends, takes up bytes for all that it answers and tries no
list's items more often than there are bytes for. -/
theorem reading_bounded :
    BoundedBy readName (fun _ => 1) ∧ BoundedBy readTy Ty.nodes ∧ BoundedBy readTerm Term.nodes ∧
      BoundedBy readBacking Backing.nodes ∧ BoundedBy readEntry Entry.nodes ∧
      Recursion tyNode readTy ∧ Recursion termNode readTerm ∧ Recursion backingNode readBacking ∧
      (∀ (i : Nat) (count : UInt64) (ctx : Context) (bytes : List UInt8),
        (replayTally i count.toNat ctx bytes).1 = replay i count.toNat ctx bytes ∧
          (replayTally i count.toNat ctx bytes).2 ≤ bytes.length + 1) ∧
      ∀ bytes : List UInt8, (loadTally bytes).1 = load bytes ∧ (loadTally bytes).2 ≤ bytes.length :=
  ⟨spends_readName.boundedBy (fun _ => Nat.one_pos) fun _ => Nat.le_refl 1,
    spends_readTy.boundedBy Ty.nodes_pos fun _ => Nat.le_refl _,
    spends_readTerm.boundedBy Term.nodes_pos fun _ => Nat.le_refl _,
    spends_readBacking.boundedBy Backing.nodes_pos fun _ => Nat.le_refl _,
    spends_readEntry.boundedBy (fun _ => Nat.succ_pos _) fun _ => Nat.le_add_right _ 2,
    guarded_tyNode.recursion rfl readTyWithin_succ,
    guarded_termNode.recursion rfl readTermWithin_succ,
    guarded_backingNode.recursion rfl readBackingWithin_succ,
    fun i _ ctx bytes => ⟨replayTally_fst i _ ctx bytes, replayTally_snd_le i _ ctx bytes⟩,
    fun bytes => ⟨loadTally_fst bytes, loadTally_snd_le bytes⟩⟩

example : (readManyTally readTy (UInt64.size - 1) [0x40]).2 = 2 := rfl

end ClosedTypes.Archive
