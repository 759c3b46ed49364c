import ClosedTypes.Archive.Utf8
import ClosedTypes.Proofs.Success
/-!
Text comes back from its encoding, whatever the place at which the reader believes to be.
-/

namespace ClosedTypes.Utf8

theorem toNat_ofNat_of_lt {n : Nat} (h : n < 256) : (UInt8.ofNat n).toNat = n := by
  rw [UInt8.toNat_ofNat']
  exact Nat.mod_eq_of_lt h

theorem width_eq (a : UInt8) :
    width a = if a.toNat < 0x80 then 1 else if a.toNat < 0xC2 then 0 else if a.toNat < 0xE0 then 2
      else if a.toNat < 0xF0 then 3 else if a.toNat < 0xF5 then 4 else 0 := by
  unfold width
  simp only [UInt8.lt_iff_toNat_lt]
  rfl

theorem isTail_iff {b : UInt8} : isTail b = true ↔ 0x80 ≤ b.toNat ∧ b.toNat ≤ 0xBF := by
  unfold isTail
  rw [Bool.and_eq_true, decide_eq_true_eq, decide_eq_true_eq, UInt8.le_iff_toNat_le,
    UInt8.le_iff_toNat_le]
  rfl

theorem isSecond_iff {a b : UInt8} :
    isSecond a b = true ↔
      (0x80 ≤ b.toNat ∧ b.toNat ≤ 0xBF) ∧ (a.toNat = 0xE0 → 0xA0 ≤ b.toNat) ∧
      (a.toNat = 0xED → b.toNat ≤ 0x9F) ∧
        (a.toNat = 0xF0 → 0x90 ≤ b.toNat) ∧ (a.toNat = 0xF4 → b.toNat ≤ 0x8F) := by
  have eq_iff (k : UInt8) : a = k ↔ a.toNat = k.toNat := UInt8.toNat_inj.symm
  unfold isSecond
  simp only [eq_iff, apply_ite (· = true), isTail_iff, Bool.and_eq_true, decide_eq_true_eq,
    UInt8.le_iff_toNat_le, UInt8.reduceToNat]
  split
  · omega
  · split
    · omega
    · split
      · omega
      · split <;> omega

variable {a b c d : UInt8} {rest : List UInt8} {index : Nat}

theorem decodeFrom_one (ha : width a = 1) :
    decodeFrom index (a :: rest) = (Char.ofNat a.toNat :: ·) <$> decodeFrom (index + 1) rest := by
  rw [decodeFrom.eq_def]
  dsimp only
  rw [ha]
  cases rest <;> rfl

theorem decodeFrom_two (ha : width a = 2) (hb : isSecond a b = true) :
    decodeFrom index (a :: b :: rest) =
      (Char.ofNat (spell (a.toNat - 0xC0) [b]) :: ·) <$> decodeFrom (index + 2) rest := by
  rw [decodeFrom.eq_def]
  dsimp only
  rw [ha]
  exact if_pos hb

theorem decodeFrom_three (ha : width a = 3) (hb : isSecond a b = true) (hc : isTail c = true) :
    decodeFrom index (a :: b :: c :: rest) =
      (Char.ofNat (spell (a.toNat - 0xE0) [b, c]) :: ·) <$> decodeFrom (index + 3) rest := by
  rw [decodeFrom.eq_def]
  dsimp only
  rw [ha]
  exact (if_pos hb).trans (if_pos hc)

theorem decodeFrom_four (ha : width a = 4) (hb : isSecond a b = true) (hc : isTail c = true)
    (hd : isTail d = true) :
    decodeFrom index (a :: b :: c :: d :: rest) =
      (Char.ofNat (spell (a.toNat - 0xF0) [b, c, d]) :: ·) <$> decodeFrom (index + 4) rest := by
  rw [decodeFrom.eq_def]
  dsimp only
  rw [ha]
  exact (if_pos hb).trans ((if_pos hc).trans (if_pos hd))

theorem decodeFrom_utf8EncodeChar (c : Char) (rest : List UInt8) (index : Nat) :
    ∃ k, decodeFrom index (String.utf8EncodeChar c ++ rest) =
      (c :: ·) <$> decodeFrom (index + k) rest := by
  have hvalid : c.val.toNat < 0xD800 ∨ 0xDFFF < c.val.toNat ∧ c.val.toNat < 0x110000 := c.valid
  have hchar {n : Nat} (h : n = c.val.toNat) : Char.ofNat n = c := by
    rw [h]
    exact Char.ofNat_toNat c
  unfold String.utf8EncodeChar
  generalize c.val.toNat = v at *
  -- one case for each width, as the encoder picks it
  by_cases h₁ : v ≤ 0x7F
  · have ha : (UInt8.ofNat v).toNat = v := toNat_ofNat_of_lt (by omega)
    refine ⟨1, ?_⟩
    rw [if_pos h₁, List.singleton_append, decodeFrom_one (by rw [width_eq, ha, if_pos (by omega)]),
      hchar ha]
  by_cases h₂ : v ≤ 0x7FF
  · have ha : (UInt8.ofNat (v / 64 % 0x20 + 0xC0)).toNat = v / 64 + 0xC0 := by
      rw [toNat_ofNat_of_lt] <;> omega
    have hb : (UInt8.ofNat (v % 0x40 + 0x80)).toNat = v % 64 + 0x80 := toNat_ofNat_of_lt (by omega)
    refine ⟨2, ?_⟩
    rw [if_neg h₁, if_pos h₂]
    refine (decodeFrom_two ?_ ?_).trans ?_
    · rw [width_eq, ha, if_neg (by omega), if_neg (by omega), if_pos (by omega)]
    · rw [isSecond_iff, ha, hb]
      omega
    · rw [hchar]
      · rfl
      · simp only [spell, List.foldl, ha, hb]
        omega
  by_cases h₃ : v ≤ 0xFFFF
  · have ha : (UInt8.ofNat (v / 4096 % 0x10 + 0xE0)).toNat = v / 4096 + 0xE0 := by
      rw [toNat_ofNat_of_lt] <;> omega
    have hb : (UInt8.ofNat (v / 64 % 0x40 + 0x80)).toNat = v / 64 % 64 + 0x80 :=
      toNat_ofNat_of_lt (by omega)
    have hc : (UInt8.ofNat (v % 0x40 + 0x80)).toNat = v % 64 + 0x80 := toNat_ofNat_of_lt (by omega)
    refine ⟨3, ?_⟩
    rw [if_neg h₁, if_neg h₂, if_pos h₃]
    refine (decodeFrom_three ?_ ?_ ?_).trans ?_
    · rw [width_eq, ha, if_neg (by omega), if_neg (by omega), if_neg (by omega), if_pos (by omega)]
    · rw [isSecond_iff, ha, hb]
      omega
    · rw [isTail_iff, hc]
      omega
    · rw [hchar]
      · rfl
      · simp only [spell, List.foldl, ha, hb, hc]
        omega
  · have ha : (UInt8.ofNat (v / 262144 % 0x08 + 0xF0)).toNat = v / 262144 + 0xF0 := by
      rw [toNat_ofNat_of_lt] <;> omega
    have hb : (UInt8.ofNat (v / 4096 % 0x40 + 0x80)).toNat = v / 4096 % 64 + 0x80 :=
      toNat_ofNat_of_lt (by omega)
    have hc : (UInt8.ofNat (v / 64 % 0x40 + 0x80)).toNat = v / 64 % 64 + 0x80 :=
      toNat_ofNat_of_lt (by omega)
    have hd : (UInt8.ofNat (v % 0x40 + 0x80)).toNat = v % 64 + 0x80 := toNat_ofNat_of_lt (by omega)
    refine ⟨4, ?_⟩
    rw [if_neg h₁, if_neg h₂, if_neg h₃]
    refine (decodeFrom_four ?_ ?_ ?_ ?_).trans ?_
    · rw [width_eq, ha, if_neg (by omega), if_neg (by omega), if_neg (by omega), if_neg (by omega),
        if_pos (by omega)]
    · rw [isSecond_iff, ha, hb]
      omega
    · rw [isTail_iff, hc]
      omega
    · rw [isTail_iff, hd]
      omega
    · rw [hchar]
      · rfl
      · simp only [spell, List.foldl, ha, hb, hc, hd]
        omega

theorem decodeFrom_flatMap (cs : List Char) (index : Nat) :
    decodeFrom index (cs.flatMap String.utf8EncodeChar) = .ok cs := by
  induction cs generalizing index with
  | nil => rfl
  | cons c cs ih =>
    obtain ⟨k, h⟩ := decodeFrom_utf8EncodeChar c (cs.flatMap String.utf8EncodeChar) index
    rw [List.flatMap_cons, h, ih]
    rfl

theorem decode_encode (s : String) : decode (encode s) = .ok s := by
  unfold decode encode
  rw [decodeFrom_flatMap]
  exact congrArg Except.ok (String.ofList_toList (s := s))

end ClosedTypes.Utf8
