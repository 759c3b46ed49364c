import ClosedTypes.Proofs.Archive.Reads
import ClosedTypes.Proofs.Archive.Utf8
import Mathlib.Algebra.Group.Nat.Defs
/-!
Headers are read back as they were written, by whoever knows where the spill bit stands.
-/

namespace ClosedTypes.Archive

theorem ofLittleEndian_littleEndian (n : Nat) : ofLittleEndian (littleEndian n) = n := by
  induction n using littleEndian.induct with
  | case1 =>
    rw [littleEndian]
    rfl
  | case2 n h ih =>
    rw [littleEndian, dif_neg h]
    show (UInt8.ofNat n).toNat + 256 * ofLittleEndian (littleEndian (n / 256)) = n
    rw [ih, UInt8.toNat_ofNat']
    omega

theorem length_littleEndian_le {n k : Nat} (h : n < 256 ^ k) : (littleEndian n).length ≤ k := by
  induction k generalizing n with
  | zero =>
    rw [littleEndian, dif_pos (by omega)]
    exact Nat.le_refl 0
  | succ k ih =>
    rw [littleEndian]
    split
    · exact Nat.zero_le _
    · have hdiv : n / 256 < 256 ^ k := by
        rw [Nat.pow_succ] at h
        exact Nat.div_lt_of_lt_mul (by omega)
      exact Nat.succ_le_succ (ih hdiv)

theorem length_littleEndian_pos {n : Nat} (h : n ≠ 0) : 0 < (littleEndian n).length := by
  rw [littleEndian, dif_neg h]
  exact Nat.succ_pos _

theorem forall_byte {p : UInt8 → Prop} (h : ∀ n : Fin 256, p ⟨⟨n⟩⟩) (b : UInt8) : p b :=
  h b.toBitVec.toFin

structure Split (spill head high low : UInt8) : Prop where
  high : head &&& ~~~((spill <<< 1) - 1) = high
  low : head &&& ((spill <<< 1) - 1) = low

variable {spill head high low kind : UInt8} {size : UInt64} {bytes rest : List UInt8}

theorem answers_readHeader_inline (rest : List UInt8) (h : Split spill head high low)
    (hspill : low &&& spill = 0) :
    Answers (readHeader spill) (head :: rest) (high, low.toUInt64) rest := by
  unfold readHeader
  rw [answers_bind_of_iff fun _ _ => answers_get]
  simp [h.high, h.low, hspill]

theorem answers_readHeader_spilled (rest : List UInt8) (h : Split spill head high low)
    (hspill : low &&& spill ≠ 0)
    (hwidth : (low &&& ~~~spill).toNat + 1 = bytes.length) (hle : bytes.length ≤ 8) :
    Answers (readHeader spill) (head :: (bytes ++ rest))
      (high, UInt64.ofNat (ofLittleEndian bytes)) rest := by
  have hfit : ¬bytes.length + rest.length < bytes.length := by omega
  unfold readHeader
  rw [answers_bind_of_iff fun _ _ => answers_get]
  simp only [h.high, h.low, hspill, hwidth, answers_bind, answers_set, answers_pure,
    Nat.not_lt.2 hle, List.length_append, hfit, if_false]
  simp

structure SpillBit (spill : UInt8) : Prop where
  pos : 0 < spill.toNat
  inline : ∀ low, low < spill → low &&& spill = 0 ∧ low &&& ((spill <<< 1) - 1) = low
  spilled : ∀ low, low < 8 → (spill ||| low) &&& spill ≠ 0 ∧ (spill ||| low) &&& ~~~spill = low ∧
    (spill ||| low) &&& ((spill <<< 1) - 1) = spill ||| low

theorem spillBit_tag :
    SpillBit 0x08 := ⟨by decide, forall_byte (by decide +kernel), forall_byte (by decide +kernel)⟩

theorem spillBit_count :
    SpillBit 0x80 := ⟨by decide, forall_byte (by decide +kernel), forall_byte (by decide +kernel)⟩

theorem split_or (hhigh : high &&& ((spill <<< 1) - 1) = 0)
    (hlow : low &&& ((spill <<< 1) - 1) = low) :
    Split spill (high ||| low) high low := by
  have bits (i : Nat) (hi : i < 8) : (high.toBitVec[i] && ((spill <<< 1) - 1).toBitVec[i]) = false ∧
      (low.toBitVec[i] && ((spill <<< 1) - 1).toBitVec[i]) = low.toBitVec[i] := by
    rw [← UInt8.toBitVec_inj] at hhigh hlow
    exact ⟨by simpa using congrArg (·[i]) hhigh, by simpa using congrArg (·[i]) hlow⟩
  constructor
  · refine UInt8.toBitVec_inj.1 (BitVec.eq_of_getElem_eq fun i hi => ?_)
    have hbits := bits i hi
    simp only [UInt8.toBitVec_and, UInt8.toBitVec_or, UInt8.toBitVec_not, BitVec.getElem_and,
      BitVec.getElem_or, BitVec.getElem_not]
    revert hbits
    generalize high.toBitVec[i] = h, low.toBitVec[i] = l, ((spill <<< 1) - 1).toBitVec[i] = m
    decide +revert
  · refine UInt8.toBitVec_inj.1 (BitVec.eq_of_getElem_eq fun i hi => ?_)
    have hbits := bits i hi
    simp only [UInt8.toBitVec_and, UInt8.toBitVec_or, BitVec.getElem_and, BitVec.getElem_or]
    revert hbits
    generalize high.toBitVec[i] = h, low.toBitVec[i] = l, ((spill <<< 1) - 1).toBitVec[i] = m
    decide +revert

theorem answers_readHeader (hs : SpillBit spill) (hhigh : high &&& ((spill <<< 1) - 1) = 0) :
    Answers (readHeader spill) (header high spill size ++ rest) (high, size) rest := by
  unfold header
  split
  · rename_i hlt
    have hsize : size.toNat < spill.toNat := by simpa [UInt64.lt_iff_toNat_lt] using hlt
    have hbyte : size.toUInt8.toNat = size.toNat := by
      have := spill.toNat_lt
      rw [UInt64.toNat_toUInt8, Nat.mod_eq_of_lt (by omega)]
    obtain ⟨hinline, hmask⟩ := hs.inline size.toUInt8 (UInt8.lt_iff_toNat_lt.2 (hbyte ▸ hsize))
    have hread := answers_readHeader_inline rest (split_or hhigh hmask) hinline
    rwa [show size.toUInt8.toUInt64 = size from UInt64.toNat_inj.1 hbyte] at hread
  · rename_i hge
    have hsize : spill.toNat ≤ size.toNat := by simpa [UInt64.lt_iff_toNat_lt] using hge
    have hspos := hs.pos
    have hpos : 0 < (littleEndian size.toNat).length := length_littleEndian_pos (by omega)
    have hle : (littleEndian size.toNat).length ≤ 8 := length_littleEndian_le size.toNat_lt
    have hbyte : (UInt8.ofNat ((littleEndian size.toNat).length - 1)).toNat =
        (littleEndian size.toNat).length - 1 :=
      Utf8.toNat_ofNat_of_lt (by omega)
    have hsmall : UInt8.ofNat ((littleEndian size.toNat).length - 1) < 8 := by
      rw [UInt8.lt_iff_toNat_lt, hbyte]
      show _ < 8
      omega
    obtain ⟨hspill, hmargin, hmask⟩ := hs.spilled _ hsmall
    have hread :=
      answers_readHeader_spilled rest (split_or hhigh hmask) hspill
        (by rw [hmargin, hbyte]; omega) hle
    rw [ofLittleEndian_littleEndian, UInt64.ofNat_toNat, ← UInt8.or_assoc] at hread
    exact hread

theorem reads_readTag (hkind : kind < 16) : Reads readTag (tag kind size) (kind, size) := by
  have hhigh : ∀ k : UInt8, (k <<< 4) &&& (((0x08 : UInt8) <<< 1) - 1) = 0 :=
    forall_byte (by decide +kernel)
  have hback : ∀ k : UInt8, k < 16 → (k <<< 4) >>> 4 = k := forall_byte (by decide +kernel)
  intro rest
  refine (answers_readHeader spillBit_tag (hhigh kind)).bind_iff.2 (answers_pure.2 ⟨?_, rfl⟩)
  show ((kind <<< 4) >>> 4, size) = (kind, size)
  rw [hback kind hkind]

theorem reads_readCount : Reads readCount (count size) size := fun _ =>
  (answers_readHeader spillBit_count (by decide)).bind_iff.2 (answers_pure.2 ⟨rfl, rfl⟩)

theorem length_header_pos : 0 < (header high spill size).length := by
  unfold header
  split
  · exact Nat.one_pos
  · exact Nat.succ_pos _

theorem length_tag_pos (kind : UInt8) (size : UInt64) : 0 < (tag kind size).length :=
  length_header_pos

def signs (b : Bool) : BitVec 64 := if b then BitVec.allOnes 64 else 0#64

theorem getElem_signs (b : Bool) {i : Nat} (hi : i < 64) : (signs b)[i] = b := by
  cases b with
  | true => exact BitVec.getElem_allOnes i hi
  | false => exact BitVec.getElem_zero hi

theorem sshiftRight_eq_signs (x : BitVec 64) : x.sshiftRight 63 = signs x.msb := by
  refine BitVec.eq_of_getElem_eq fun i hi => ?_
  rw [BitVec.getElem_sshiftRight, getElem_signs]
  split
  · obtain rfl : i = 0 := by omega
    simp [BitVec.msb_eq_getLsbD_last]
  · rfl

theorem neg_and_one_eq_signs (x : BitVec 64) (b : Bool) :
    -((x <<< 1 ^^^ signs b) &&& 1#64) = signs b := by
  have hone : (x <<< 1 ^^^ signs b) &&& 1#64 = if b then 1#64 else 0#64 := by
    refine BitVec.eq_of_getElem_eq fun i hi => ?_
    rw [BitVec.getElem_and, BitVec.getElem_xor, getElem_signs, apply_ite (·[i]),
      BitVec.getElem_zero, BitVec.getElem_one, BitVec.getElem_shiftLeft]
    cases b <;> cases i <;> simp
  rw [hone]
  cases b <;> rfl

theorem ushiftRight_xor_signs (x : BitVec 64) :
    (x <<< 1 ^^^ signs x.msb) >>> 1 ^^^ signs x.msb = x := by
  refine BitVec.eq_of_getElem_eq fun i hi => ?_
  rw [BitVec.getElem_xor, getElem_signs, BitVec.getElem_ushiftRight]
  by_cases hlast : 1 + i < 64
  · rw [BitVec.getLsbD_eq_getElem hlast, BitVec.getElem_xor, getElem_signs,
      BitVec.getElem_shiftLeft]
    simp
  · obtain rfl : i = 63 := by omega
    simp [BitVec.msb_eq_getLsbD_last]

theorem ofZigzag_zigzag (n : Int64) : ofZigzag (zigzag n) = n := by
  have hbits : (ofZigzag (zigzag n)).toBitVec =
      (n.toBitVec <<< 1 ^^^ n.toBitVec.sshiftRight 63) >>> 1 ^^^
          -((n.toBitVec <<< 1 ^^^ n.toBitVec.sshiftRight 63) &&& 1#64) := by
    simp [ofZigzag, zigzag]
  refine Int64.toBitVec_inj.1 ?_
  rw [hbits, sshiftRight_eq_signs, neg_and_one_eq_signs, ushiftRight_xor_signs]

end ClosedTypes.Archive
