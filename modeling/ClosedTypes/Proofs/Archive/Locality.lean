import ClosedTypes.Proofs.Archive.Log
/-!
Readers look at nothing behind what they use up. What they answer they still answer when more bytes
follow, so that they come to no answer on a part of what they need.
-/

namespace ClosedTypes.Archive

variable {α β : Type} {r r' : Reader α} {f f' : α → Reader β} {bytes rest : List UInt8} {a : α}

/-- What `r` answers `r'` answers too when more bytes follow, and leaves these. More bytes may
let `r'` go deeper than `r`. -/
class Persists (r r' : Reader α) : Prop where
  answers : ∀ {bytes a rest}, Answers r bytes a rest →
    ∀ more, Answers r' (bytes ++ more) a (rest ++ more)

instance (a : α) : Persists (pure a : Reader α) (pure a) where
  answers h more := by
    obtain ⟨rfl, rfl⟩ := answers_pure.1 h
    exact answers_pure.2 ⟨rfl, rfl⟩

instance (e : DecodeError) : Persists (throw e : Reader α) r' where
  answers h := absurd h not_answers_throw

instance Persists.bind [hr : Persists r r'] [hf : ∀ a, Persists (f a) (f' a)] :
    Persists (r >>= f) (r' >>= f') where
  answers h more := by
    obtain ⟨a, mid, ha, h⟩ := answers_bind.1 h
    exact answers_bind.2 ⟨a, mid ++ more, hr.answers ha more, (hf a).answers h more⟩

theorem answers_take {n : Nat} {e e' : DecodeError} {k : List UInt8 → Reader α}
    (hk : ∀ taken, Persists (k taken) (k taken))
    (h : Answers (if bytes.length < n then throw e >>= fun _ : Unit =>
      set (bytes.drop n) >>= fun _ => k (bytes.take n)
      else set (bytes.drop n) >>= fun _ => k (bytes.take n)) bytes a rest) (more : List UInt8) :
    Answers (if (bytes ++ more).length < n then
        throw e' >>= fun _ : Unit => set ((bytes ++ more).drop n) >>= fun _ =>
          k ((bytes ++ more).take n)
      else set ((bytes ++ more).drop n) >>= fun _ => k ((bytes ++ more).take n)) (bytes ++ more) a
        (rest ++ more) := by
  split at h
  · simp at h
  · rename_i hle
    have hlonger : ¬(bytes ++ more).length < n := by
      rw [List.length_append]
      omega
    rw [if_neg hlonger, List.drop_append_of_le_length (by omega),
      List.take_append_of_le_length (by omega)]
    obtain ⟨_, left, hset, h⟩ := answers_bind.1 h
    obtain rfl : bytes.drop n = left := answers_set.1 hset
    exact answers_bind.2 ⟨(), _, answers_set.2 rfl, (hk _).answers h more⟩

instance {spill : UInt8} : Persists (readHeader spill) (readHeader spill) where
  answers {bytes a rest} h more := by
    unfold readHeader at h ⊢
    rw [answers_bind_of_iff fun _ _ => answers_get] at h ⊢
    cases bytes with
    | nil => exact absurd h not_answers_throw
    | cons head bytes =>
      obtain ⟨_, left, hset, h⟩ := answers_bind.1 h
      obtain rfl : bytes = left := answers_set.1 hset
      refine answers_bind.2 ⟨(), bytes ++ more, answers_set.2 rfl, ?_⟩
      dsimp only at h ⊢
      generalize head &&& spill <<< 1 - 1 = low, head &&& ~~~(spill <<< 1 - 1) = high at h ⊢
      generalize (low &&& ~~~spill).toNat + 1 = width at h ⊢
      by_cases hinline : low &&& spill = 0
      · rw [if_pos hinline] at h ⊢
        exact Persists.answers h more
      · rw [if_neg hinline] at h ⊢
        by_cases hwide : 8 < width
        · rw [if_pos hwide] at h
          simp at h
        · rw [if_neg hwide] at h ⊢
          exact answers_take (k := fun taken => pure (high, UInt64.ofNat (ofLittleEndian taken)))
            inferInstance h more

instance : Persists readTag readTag := by
  unfold readTag
  infer_instance

instance : Persists readCount readCount := by
  unfold readCount
  infer_instance

instance : Persists readName readName := by
  unfold readName
  refine @Persists.bind _ _ _ _ _ _ inferInstance fun length => ⟨fun {bytes a rest} h more => ?_⟩
  rw [answers_bind_of_iff fun _ _ => answers_get] at h ⊢
  refine answers_take (k := fun taken => match Utf8.decode taken with
    | .ok x => pure x
    | .error fault => throw (.nameEncoding fault)) (fun taken => ?_) h more
  cases Utf8.decode taken <;> infer_instance

instance persists_readMany [Persists r r'] (n : Nat) : Persists (readMany r n) (readMany r' n) := by
  induction n with
  | zero => exact inferInstanceAs (Persists (pure []) (pure []))
  | succ n ih =>
    rw [readMany, readMany]
    infer_instance

theorem persists_readTyWithin (depth more : Nat) :
    Persists (readTyWithin depth) (readTyWithin (depth + more)) := by
  induction depth with
  | zero => exact inferInstanceAs (Persists (throw _) _)
  | succ depth ih =>
    rw [Nat.succ_add, readTyWithin, readTyWithin]
    refine @Persists.bind _ _ _ _ _ _ inferInstance fun header => ?_
    obtain ⟨kind, size⟩ := header
    dsimp only
    split
    · infer_instance
    · infer_instance
    · infer_instance
    · infer_instance
    · split <;> infer_instance
    · infer_instance
    · infer_instance

theorem persists_nested {level : Nat → Reader α}
    (h : ∀ depth more, Persists (level depth) (level (depth + more))) :
    Persists (nested level) (nested level) where
  answers hanswers more := by
    unfold nested at hanswers ⊢
    rw [answers_bind_of_iff fun _ _ => answers_get] at hanswers ⊢
    rw [List.length_append]
    exact (h _ _).answers hanswers more

instance : Persists readTy readTy := persists_nested persists_readTyWithin

theorem persists_readTermWithin (depth more : Nat) :
    Persists (readTermWithin depth) (readTermWithin (depth + more)) := by
  induction depth with
  | zero => exact inferInstanceAs (Persists (throw _) _)
  | succ depth ih =>
    rw [Nat.succ_add, readTermWithin, readTermWithin]
    refine @Persists.bind _ _ _ _ _ _ inferInstance fun header => ?_
    obtain ⟨kind, size⟩ := header
    dsimp only
    split
    · infer_instance
    · infer_instance
    · refine @Persists.bind _ _ _ _ _ _ inferInstance fun x => ?_
      split <;> infer_instance
    · infer_instance
    · infer_instance
    · infer_instance
    · infer_instance
    · split <;> infer_instance
    · split <;> infer_instance
    · infer_instance
    · infer_instance
    · infer_instance

instance : Persists readTerm readTerm := persists_nested persists_readTermWithin

theorem persists_readBackingWithin (depth more : Nat) :
    Persists (readBackingWithin depth) (readBackingWithin (depth + more)) := by
  induction depth with
  | zero => exact inferInstanceAs (Persists (throw _) _)
  | succ depth ih =>
    rw [Nat.succ_add, readBackingWithin, readBackingWithin]
    refine @Persists.bind _ _ _ _ _ _ inferInstance fun header => ?_
    obtain ⟨kind, size⟩ := header
    dsimp only
    split <;> infer_instance

instance : Persists readBacking readBacking := persists_nested persists_readBackingWithin

instance : Persists readEntry readEntry := by
  unfold readEntry
  refine @Persists.bind _ _ _ _ _ _ inferInstance fun header => ?_
  obtain ⟨kind, size⟩ := header
  dsimp only
  split
  · infer_instance
  · refine @Persists.bind _ _ _ _ _ _ inferInstance fun name =>
      @Persists.bind _ _ _ _ _ _ inferInstance fun signature => ?_
    split <;> infer_instance
  · refine @Persists.bind _ _ _ _ _ _ inferInstance fun name =>
      @Persists.bind _ _ _ _ _ _ inferInstance fun signature => ?_
    split <;> infer_instance
  · infer_instance
  · infer_instance
  · infer_instance
  · infer_instance

instance : Persists readBlock readBlock := by
  unfold readBlock
  infer_instance

section

variable [Persists r r] {front back : List UInt8}

theorem Reads.cut (h : Reads r (front ++ back) a) (hback : back ≠ []) :
    ∃ e left, r.read front = (.error e, left) := by
  rcases hread : r.read front with ⟨e | b, left⟩
  · exact ⟨e, left, rfl⟩
  · have hfront : Answers r front b left := hread
    have hwhole := h []
    rw [List.append_nil] at hwhole
    obtain ⟨-, hleft⟩ := (answers_iff_of_run_eq hwhole).1 (Persists.answers hfront back)
    exact absurd (List.append_eq_nil_iff.1 hleft.symm).2 hback

theorem Reads.cut_or (h : Reads r bytes a) (hcut : bytes ++ rest = front ++ back) :
    (∃ e left, r.read front = (.error e, left)) ∨ ∃ front', r.read front = (.ok a, front') ∧
    rest = front' ++ back := by
  rcases List.append_eq_append_iff.1 hcut with ⟨front', rfl, hrest⟩ | ⟨missing, rfl, rfl⟩
  · exact .inr ⟨front', h front', hrest⟩
  · by_cases hmissing : missing = []
    · subst hmissing
      have hfront := h []
      rw [List.append_nil, List.append_nil] at hfront
      exact .inr ⟨[], hfront, rfl⟩
    · exact .inl (h.cut hmissing)

end

variable {ctx ctx' : Context} {blocks : List Block} {front back : List UInt8}

theorem replay_cut (h : Replays ctx blocks ctx')
    (hread : ∀ b ∈ blocks, Reads readBlock (encodeBlock b) b)
    (hcut : blocks.flatMap encodeBlock = front ++ back) (hback : back ≠ []) (i : Nat) :
    ∃ e, replay i blocks.length ctx front = .error (.unreadable e) := by
  induction blocks generalizing ctx front i with
  | nil => exact absurd (List.append_eq_nil_iff.1 hcut.symm).2 hback
  | cons b blocks ih =>
    obtain ⟨mid, hb, h⟩ := h
    obtain ⟨hblock, hblocks⟩ := List.forall_mem_cons.1 hread
    rw [List.flatMap_cons] at hcut
    rw [List.length_cons, replay]
    rcases hblock.cut_or hcut with ⟨e, left, he⟩ | ⟨front', hfront, hrest⟩
    · exact ⟨e, by simp only [he]⟩
    · simp only [hfront, hb i]
      exact ih h hblocks hrest (i + 1)

theorem load_cut (h : ctx.Grown) (hfit : (save ctx).length < UInt64.size)
    (hcut : save ctx = front ++ back) (hback : back ≠ [])
    (hfront : front ≠ []) : ∃ e, load front = .error (.unreadable e) := by
  obtain ⟨hcount, hblocks⟩ := legible_of_grown h hfit
  obtain ⟨v, front, rfl⟩ := List.exists_cons_of_ne_nil hfront
  rw [save, List.cons_append, List.cons_append, List.cons.injEq] at hcut
  obtain ⟨rfl, hcut⟩ := hcut
  rw [load, if_pos rfl]
  rcases reads_readCount.cut_or hcut with ⟨e, left, he⟩ | ⟨front', hsize, hrest⟩
  · exact ⟨e, by simp only [he]⟩
  · simp only [hsize, hcount]
    exact replay_cut (replays_of_grown h) hblocks hrest hback 0

end ClosedTypes.Archive
