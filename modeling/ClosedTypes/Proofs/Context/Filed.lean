import ClosedTypes.Context
import ClosedTypes.Proofs.Index
/-!
The log and its indices. An entry is filed under one key, and a context is filed when its indices
say of each key where in the log its entry stands, and nothing else. Installing an entry under a new
key keeps a context filed.
-/

namespace ClosedTypes

inductive Key where
  | name (x : Name)
  | equation (eliminator constructor : Name)
  | representation (typeName : Name)
  | implementation (op : Name)
  deriving DecidableEq

def Claim.key : Claim → Key
  | name x => .name x
  | representation x => .representation x
  | implementation x => .implementation x

namespace Entry

def key : Entry → Key
  | type d => .name d.name
  | constructor d => .name d.name
  | eliminator d => .name d.name
  | equation d => .equation d.eliminator d.constructor
  | representation d => .representation d.typeName
  | implementation d => .implementation d.op

def constructorOf? (owner : Name) : Entry → Option Name
  | constructor d => if d.owner = owner then some d.name else none
  | _ => none

def eliminatorOf? (owner : Name) : Entry → Option Name
  | eliminator d => if d.owner = owner then some d.name else none
  | _ => none

theorem claim?_eq_some_iff {e : Entry} {c : Claim} : e.claim? = some c ↔ e.key = c.key := by
  cases e <;> cases c <;> simp [claim?, key, Claim.key]

theorem name?_eq_some_iff {e : Entry} {x : Name} : e.name? = some x ↔ e.key = .name x := by
  cases e <;> simp [name?, key]

end Entry

namespace Context

def index? (ctx : Context) : Key → Option Nat
  | .name x => ctx.names.find? x
  | .equation e c => ctx.equations.find? (e, c)
  | .representation x => ctx.representations.find? x
  | .implementation x => ctx.implementations.find? x

theorem holds_eq (ctx : Context) (c : Claim) : ctx.holds c = (ctx.index? c.key).isSome := by
  cases c <;> rfl

@[simp] theorem entries_install (ctx : Context) (e : Entry) :
    (ctx.install e).entries = ctx.entries ++ [e] := by
  cases e <;> rfl

@[simp] theorem size_install (ctx : Context) (e : Entry) : (ctx.install e).size = ctx.size + 1 := by
  simp [size]

@[simp] theorem blocks_install (ctx : Context) (e : Entry) :
    (ctx.install e).blocks = ctx.blocks := by
  cases e <;> rfl

theorem index?_install (ctx : Context) (e : Entry) (k : Key) :
    (ctx.install e).index? k = if e.key = k then some ctx.size else ctx.index? k := by
  cases e <;> cases k <;> simp [install, index?, Entry.key]

theorem constructors_install (ctx : Context) (e : Entry) (owner : Name) :
    (ctx.install e).constructors owner = ctx.constructors owner ++
      (e.constructorOf? owner).toList := by
  cases e with
  | constructor d =>
    by_cases h : d.owner = owner
    · subst h
      simp [constructors, install, Entry.constructorOf?]
    · simp [constructors, install, Entry.constructorOf?, h]
  | _ => simp [constructors, install, Entry.constructorOf?]

theorem eliminators_install (ctx : Context) (e : Entry) (owner : Name) :
    (ctx.install e).eliminators owner = ctx.eliminators owner ++
      (e.eliminatorOf? owner).toList := by
  cases e with
  | eliminator d =>
    by_cases h : d.owner = owner
    · subst h
      simp [eliminators, install, Entry.eliminatorOf?]
    · simp [eliminators, install, Entry.eliminatorOf?, h]
  | _ => simp [eliminators, install, Entry.eliminatorOf?]

@[simp] theorem installAll_nil (ctx : Context) : ctx.installAll [] = ctx := rfl

@[simp] theorem installAll_cons (ctx : Context) (e : Entry) (es : List Entry) :
    ctx.installAll (e :: es) = (ctx.install e).installAll es := rfl

@[simp] theorem entries_installAll (ctx : Context) (es : List Entry) :
    (ctx.installAll es).entries = ctx.entries ++ es := by
  induction es generalizing ctx with
  | nil => simp
  | cons e es ih => simp [ih]

@[simp] theorem blocks_installAll (ctx : Context) (es : List Entry) :
    (ctx.installAll es).blocks = ctx.blocks := by
  induction es generalizing ctx with
  | nil => rfl
  | cons e es ih => simp [ih]

/-- The indices describe the log, and nothing but the log. -/
structure Filed (ctx : Context) : Prop where
  index?_eq_some_iff : ∀ k i, ctx.index? k = some i ↔ ∃ e, ctx.entries[i]? = some e ∧ e.key = k
  constructors_eq : ∀ owner, ctx.constructors owner = ctx.entries.filterMap
    (Entry.constructorOf? owner)
  eliminators_eq : ∀ owner, ctx.eliminators owner = ctx.entries.filterMap
    (Entry.eliminatorOf? owner)

theorem filed_empty : empty.Filed where
  index?_eq_some_iff k i := by cases k <;> simp [index?, empty]
  constructors_eq _ := rfl
  eliminators_eq _ := rfl

namespace Filed

variable {ctx : Context}

theorem install (h : ctx.Filed) {e : Entry} (fresh : ctx.index? e.key = none) :
    (ctx.install e).Filed where
  index?_eq_some_iff k i := by
    rw [index?_install, entries_install]
    by_cases hi : i < ctx.entries.length
    · rw [List.getElem?_append_left hi]
      by_cases hk : e.key = k
      · subst hk
        simp only [if_true, Option.some.injEq, size]
        refine ⟨fun hi' => absurd hi' (by omega), ?_⟩
        rintro ⟨e', he', hkey⟩
        have := (h.index?_eq_some_iff _ _).2 ⟨e', he', hkey⟩
        rw [fresh] at this
        cases this
      · rw [if_neg hk, h.index?_eq_some_iff]
    · have old : ctx.index? k ≠ some i := fun hk => by
        obtain ⟨e', he', _⟩ := (h.index?_eq_some_iff _ _).1 hk
        exact hi (List.getElem?_eq_some_iff.1 he').1
      rw [List.getElem?_append_right (by omega)]
      by_cases hk : e.key = k
      · rw [if_pos hk]
        simp only [size, Option.some.injEq, List.getElem?_singleton]
        constructor
        · intro hi'
          exact ⟨e, by rw [if_pos (by omega)], hk⟩
        · rintro ⟨e', he', _⟩
          split at he'
          · omega
          · cases he'
      · rw [if_neg hk]
        refine ⟨fun hk => absurd hk old, ?_⟩
        rintro ⟨e', he', hkey⟩
        rw [List.getElem?_singleton] at he'
        split at he'
        · cases he'
          exact absurd hkey hk
        · cases he'
  constructors_eq owner := by
    rw [constructors_install, h.constructors_eq, entries_install, List.filterMap_append]
    cases he : e.constructorOf? owner <;> simp [he]
  eliminators_eq owner := by
    rw [eliminators_install, h.eliminators_eq, entries_install, List.filterMap_append]
    cases he : e.eliminatorOf? owner <;> simp [he]

theorem installAll (h : ctx.Filed) {es : List Entry} (fresh : ∀ e ∈ es, ctx.index? e.key = none)
    (distinct : es.Pairwise (·.key ≠ ·.key)) : (ctx.installAll es).Filed := by
  induction es generalizing ctx with
  | nil => exact h
  | cons e es ih =>
    rw [List.pairwise_cons] at distinct
    refine ih (h.install (fresh e List.mem_cons_self)) (fun e' he' => ?_) distinct.2
    rw [index?_install, if_neg (distinct.1 e' he')]
    exact fresh e' (List.mem_cons_of_mem _ he')

theorem keys_nodup (h : ctx.Filed) : (ctx.entries.map Entry.key).Nodup := by
  rw [List.Nodup, List.pairwise_iff_getElem]
  intro i j hi hj hij hkey
  rw [List.getElem_map, List.getElem_map] at hkey
  rw [List.length_map] at hi hj
  have hi' := (h.index?_eq_some_iff (ctx.entries[i]).key i).2 ⟨_, List.getElem?_eq_getElem hi, rfl⟩
  have hj' :=
    (h.index?_eq_some_iff (ctx.entries[i]).key j).2 ⟨_, List.getElem?_eq_getElem hj, hkey.symm⟩
  rw [hi'] at hj'
  exact absurd (Option.some.inj hj') (by omega)

theorem exists_index?_iff (h : ctx.Filed) {k : Key} {e : Entry} :
    (∃ i, ctx.index? k = some i ∧ ctx.entries[i]? = some e) ↔ e ∈ ctx.entries ∧ e.key = k := by
  constructor
  · rintro ⟨i, hi, he⟩
    obtain ⟨e', he', hkey⟩ := (h.index?_eq_some_iff k i).1 hi
    cases he.symm.trans he'
    exact ⟨List.mem_of_getElem? he, hkey⟩
  · rintro ⟨hmem, hkey⟩
    obtain ⟨i, hi⟩ := List.getElem?_of_mem hmem
    exact ⟨i, (h.index?_eq_some_iff k i).2 ⟨e, hi, hkey⟩, hi⟩

theorem find?_eq_some_iff_of_kind (h : ctx.Filed) {α : Type} (make : α → Entry)
    {kind : Entry → Option α} (hkind : ∀ e a, kind e = some a ↔ e = make a) (k : Key) {a : α} :
    ((ctx.index? k).bind fun i => ctx.entries[i]?.bind kind) = some a ↔ make a ∈ ctx.entries ∧
    (make a).key = k := by
  rw [← h.exists_index?_iff]
  simp only [Option.bind_eq_some_iff, hkind, exists_eq_right]

theorem representation?_eq_some_iff (h : ctx.Filed) {x : Name} {r : Representation} :
    ctx.representation? x = some r ↔ .representation r ∈ ctx.entries ∧ r.typeName = x := by
  refine (h.find?_eq_some_iff_of_kind .representation (fun e a => ?_) (.representation x)).trans ?_
  · cases e <;> simp
  · rw [Entry.key, Key.representation.injEq]

theorem equation?_eq_some_iff (h : ctx.Filed) {e c : Name} {d : Equation} :
    ctx.equation? e c = some d ↔ .equation d ∈ ctx.entries ∧ d.eliminator = e ∧
    d.constructor = c := by
  refine (h.find?_eq_some_iff_of_kind .equation (fun e a => ?_) (.equation e c)).trans ?_
  · cases e <;> simp
  · rw [Entry.key, Key.equation.injEq]

theorem implementation?_eq_some_iff (h : ctx.Filed) {op : Name} {d : Implementation} :
    ctx.implementation? op = some d ↔ .implementation d ∈ ctx.entries ∧ d.op = op := by
  refine (h.find?_eq_some_iff_of_kind .implementation (fun e a => ?_) (.implementation op)).trans ?_
  · cases e <;> simp
  · rw [Entry.key, Key.implementation.injEq]

end Filed

end Context

end ClosedTypes
