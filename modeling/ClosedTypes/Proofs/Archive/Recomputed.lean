import ClosedTypes.Proofs.Archive.Log
import ClosedTypes.Proofs.Context.Reachable
/-!
What an archive leaves out. Owners can always be read off signatures again, and motives unless an
eliminator says that it is an observer while its result is a variable of its own; an archive that
holds one of these may be refused.
-/

namespace ClosedTypes

/-- A result that only the branches can supply, but no motive. -/
def Eliminator.HidesMotive (d : Eliminator) : Prop :=
  d.motive = none ∧ ∃ x, d.result = .var x ∧ ∀ scrutinee, d.scrutinee? = some scrutinee →
    x ∉ scrutinee.vars

variable {ctx : Context} {params : List Name} {e : Entry}

theorem Constructor.Shaped.ofSignature_eq {d : Constructor} (h : d.Shaped ctx params) :
    Constructor.ofSignature d.name d.signature = .ok d := by
  unfold Constructor.ofSignature
  rw [h.result]
  rfl

theorem mem_vars_const {c x : Name} : x ∈ (Ty.const c (params.map .var)).vars ↔ x ∈ params := by
  rw [Ty.mem_vars, Ty.varOccurrences, Ty.varOccurrencesAll_eq, List.flatMap_map]
  simp [Ty.varOccurrences]

theorem any_mem_vars {x : Name} :
    ((params.map Ty.var).any fun t => x ∈ t.vars) = decide (x ∈ params) := by
  rw [Bool.eq_iff_iff, List.any_eq_true, decide_eq_true_eq]
  simp [Ty.mem_vars, Ty.varOccurrences]

theorem Eliminator.Shaped.ofSignature_eq {d : Eliminator} (h : d.Shaped ctx params) :
    Eliminator.ofSignature d.name d.signature = .ok { d with
      motive := match d.result with
        | .var x => if x ∈ params then none else some x
        | _ => none } := by
  obtain ⟨rest, hdoms⟩ : ∃ rest, d.signature.doms = .const d.owner (params.map .var) :: rest :=
    List.head?_eq_some_iff.1 h.scrutinee
  unfold Eliminator.ofSignature
  rw [hdoms]
  cases hresult : d.signature.result <;>
    simp only [Ty.head?, any_mem_vars, Eliminator.result, hresult, decide_eq_true_eq]

theorem Eliminator.Shaped.hidesMotive_iff {d : Eliminator} (h : d.Shaped ctx params) :
    d.HidesMotive ↔ d.motive = none ∧ ∃ x, d.result = .var x ∧ x ∉ params := by
  unfold Eliminator.HidesMotive
  simp only [h.scrutinee, Option.some.injEq, forall_eq', mem_vars_const]

theorem Eliminator.Shaped.ofSignature_eq_self_iff {d : Eliminator} (h : d.Shaped ctx params) :
    Eliminator.ofSignature d.name d.signature = .ok d ↔ ¬d.HidesMotive := by
  obtain ⟨name, signature, owner, motive⟩ := d
  rw [h.ofSignature_eq, h.hidesMotive_iff]
  cases motive with
  | some m =>
    have hcase := h.case m rfl
    rw [hcase.result]
    simp [hcase.fresh]
  | none =>
    generalize hresult : Eliminator.result _ = result
    cases result with
    | var x => by_cases hx : x ∈ params <;> simp [hx]
    | _ => simp

namespace Context

theorem Reachable.grown (hr : ctx.Reachable) (h : ∀ e ∈ ctx.entries, e.Canonical) : ctx.Grown := by
  induction hr with
  | empty => exact .empty
  | @commit ctx block hr hs ih =>
    by_cases he : ctx.errors block = []
    · exact (ih fun e hmem => h e ((mem_entries_commit he).2 (.inl hmem))).commit hs
        (fun e hmem => h e ((mem_entries_commit he).2 (.inr hmem))) he
    · rw [hr.wellFormed.commit_eq_self hs he] at h ⊢
      exact ih h

theorem WellFormed.canonical_iff (h : ctx.WellFormed) (he : e ∈ ctx.entries) :
    e.Canonical ↔ ∀ d, e = .eliminator d → ¬d.HidesMotive := by
  cases e with
  | constructor d =>
    obtain ⟨params, hd⟩ := h.constructors d he
    exact iff_of_true (map_eq_ok_iff.2 ⟨d, hd.ofSignature_eq, rfl⟩) nofun
  | eliminator d =>
    obtain ⟨params, hd⟩ := h.eliminators d he
    have heach : (∀ d', Entry.eliminator d = .eliminator d' → ¬d'.HidesMotive) ↔
        ¬d.HidesMotive := by simp
    rw [heach, ← hd.ofSignature_eq_self_iff]
    refine map_eq_ok_iff.trans ⟨?_, fun hsame => ⟨d, hsame, rfl⟩⟩
    rintro ⟨d', hd', heq⟩
    cases heq
    exact hd'
  | _ => exact iff_of_true rfl nofun

/-- Name and signature determine a committed constructor, and a committed eliminator up to a
motive that it hides. A log without such an eliminator is accepted again as it was saved. -/
theorem recomputed (hr : ctx.Reachable) :
    (∀ d, .constructor d ∈ ctx.entries → Constructor.ofSignature d.name d.signature = .ok d) ∧
    (∀ d, .eliminator d ∈ ctx.entries →
      (∃ motive, Eliminator.ofSignature d.name d.signature = .ok { d with motive }) ∧
        (Eliminator.ofSignature d.name d.signature = .ok d ↔ ¬d.HidesMotive)) ∧
    ((∀ d, .eliminator d ∈ ctx.entries → ¬d.HidesMotive) → (Archive.save ctx).length < UInt64.size →
      Archive.load (Archive.save ctx) = .ok ctx) := by
  have h := hr.wellFormed
  refine ⟨fun d hd => ?_, fun d hd => ?_, fun hhides hfit => ?_⟩
  · obtain ⟨params, hd⟩ := h.constructors d hd
    exact hd.ofSignature_eq
  · obtain ⟨params, hd⟩ := h.eliminators d hd
    exact ⟨⟨_, hd.ofSignature_eq⟩, hd.ofSignature_eq_self_iff⟩
  · refine Archive.load_save (hr.grown fun e he => (h.canonical_iff he).2 ?_) hfit
    rintro d rfl
    exact hhides d he

theorem booleans_recomputed : (empty.commit booleans).2.size = 6 ∧
    Archive.load (Archive.save (empty.commit booleans).2) = .ok (empty.commit booleans).2 := by
  refine ⟨rfl, (recomputed (.commit .empty booleans_staged)).2.2 (fun d hd => ?_)
    (by decide +kernel)⟩
  have hentry : Entry.eliminator d ∈ booleans.named ++ booleans.keyed := hd
  obtain ⟨rfl⟩ : d = ⟨"Not", .arrow (.const "Bool" []) (.const "Bool" []), "Bool", none⟩ := by
    simpa [booleans, Block.named, Block.keyed, Entry.name?] using hentry
  rintro ⟨-, x, hx, -⟩
  cases hx

/-- A switch with its case eliminator, which says that it is an observer and so has one branch
for two constructors. -/
def switch : Block := [
  .type ⟨"Switch", 0⟩,
  .constructor ⟨"On", .const "Switch" [], "Switch"⟩,
  .constructor ⟨"Off", .const "Switch" [], "Switch"⟩,
  .eliminator ⟨"Choose", .arrow (.const "Switch" []) (.arrow (.var "b") (.var "b")),
    "Switch", none⟩,
  .equation ⟨"Choose", "On", ["x"], .var "x"⟩,
  .equation ⟨"Choose", "Off", ["x"], .var "x"⟩]

theorem switch_staged : empty.Staged switch :=
  .of_stageAll .nil (show empty.stageAll [] switch = .ok switch from rfl)

/-- The switch as it is read back, with the motive that its signature has. -/
def switchRead : Block := [
  .type ⟨"Switch", 0⟩,
  .constructor ⟨"On", .const "Switch" [], "Switch"⟩,
  .constructor ⟨"Off", .const "Switch" [], "Switch"⟩,
  .eliminator ⟨"Choose", .arrow (.const "Switch" []) (.arrow (.var "b") (.var "b")),
    "Switch", some "b"⟩,
  .equation ⟨"Choose", "On", ["x"], .var "x"⟩,
  .equation ⟨"Choose", "Off", ["x"], .var "x"⟩]

theorem reads_switchRead :
    Archive.Reads Archive.readBlock (Archive.encodeBlock switchRead) switchRead := by
  have hrigid : ∀ e ∈ switchRead, e.Rigid := by
    simp [switchRead, Entry.Rigid, Term.annotations]
  have hcanonical : ∀ e ∈ switchRead, e.Canonical := by
    simp only [switchRead, List.forall_mem_cons]
    exact ⟨rfl, rfl, rfl, rfl, rfl, rfl, List.forall_mem_nil _⟩
  exact Archive.reads_readBlock hrigid hcanonical (by decide +kernel)

theorem switch_refused : Archive.load (Archive.save (empty.commit switch).2) =
    .error (.rejected 0 [.type (.eliminatorArity "Choose" 2 1)]) := by
  have hsave : Archive.save (empty.commit switch).2 =
      Archive.version :: (Archive.count 1 ++ Archive.encodeBlock switchRead) := by
    rw [snd_commit (show empty.errors switch = [] from rfl)]
    decide +kernel
  have hcount : Archive.readCount.read (Archive.count 1 ++ Archive.encodeBlock switchRead) =
      (.ok 1, Archive.encodeBlock switchRead) :=
    Archive.reads_readCount _
  have hblock : Archive.readBlock.read (Archive.encodeBlock switchRead) = (.ok switchRead, []) := by
    rw [← List.append_nil (Archive.encodeBlock switchRead)]
    exact reads_switchRead []
  have hreplay : Archive.replayBlock .empty 0 switchRead =
      .error (.rejected 0 [.type (.eliminatorArity "Choose" 2 1)]) := rfl
  rw [hsave, Archive.load, if_pos rfl]
  simp only [hcount]
  change Archive.replay 0 1 .empty (Archive.encodeBlock switchRead) = _
  rw [Archive.replay]
  simp only [hblock, hreplay]

/-- The block goes in, its eliminator would be read back as another one, and its archive is
refused. -/
theorem switch_not_recomputed :
    (empty.commit switch).2.Reachable ∧ (empty.commit switch).1 = .ok () ∧
    (∃ d, .eliminator d ∈ (empty.commit switch).2.entries ∧
      Eliminator.ofSignature d.name d.signature ≠ .ok d) ∧
    ¬∃ ctx, Archive.load (Archive.save (empty.commit switch).2) = .ok ctx := by
  refine ⟨.commit .empty switch_staged, rfl, ⟨_, List.mem_of_getElem? (i := 3) rfl, nofun⟩, ?_⟩
  rw [switch_refused]
  nofun

end Context

end ClosedTypes
