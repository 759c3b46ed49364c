import ClosedTypes.Proofs.Term.Capture
import ClosedTypes.Proofs.Typing.Runs
/-!
The names of binders make no difference to typing. Terms with one nameless form are judged side by
side: the assumptions of the two runs have the same types in the same places, whatever they are
called, so that each step sees the same on both sides and the runs come to the same type, or break
off at the same place with errors that differ only in the terms they show.
-/

namespace ClosedTypes

def TypeFault.withoutTerms : TypeFault → TypeFault
  | argument _ _ expected found => argument default default expected found
  | notAFunction _ found => notAFunction default found
  | mismatch _ expected found => mismatch default expected found
  | e => e

def Error.withoutTerms : Error → Error
  | type e => type e.withoutTerms
  | unfaithful typeName e c _ => unfaithful typeName e c ⟨[], default, default⟩
  | e => e

def Error.culprit? : Error → Option Term
  | type (.mismatch t _ _) => some t
  | _ => none

theorem Error.culprit?_eq_some_iff {e : Error} {t : Term} :
    e.culprit? = some t ↔ ∃ expected found, e = .type (.mismatch t expected found) := by
  constructor
  · intro h
    unfold culprit? at h
    split at h <;> cases h
    exact ⟨_, _, rfl⟩
  · rintro ⟨_, _, rfl⟩
    rfl

namespace Term

variable {t u : Term} {xs ys : List Name}

/-- Terms of one form whose parts have one nameless form, under the binders `xs` and `ys`. -/
inductive Matches (xs ys : List Name) : Term → Term → Prop where
  | var {x y : Name} : xs.idxOf? x = ys.idxOf? y → (xs.idxOf? x = none → x = y) →
    Matches xs ys (.var x) (.var y)
  | lit {l : Literal} : Matches xs ys (.lit l) (.lit l)
  | app {f g a b : Term} : f.namelessIn xs = g.namelessIn ys → a.namelessIn xs = b.namelessIn ys →
    Matches xs ys (.app f a) (.app g b)
  | lam {x y : Name} {dom : Option Ty} {b c : Term} : b.namelessIn (x :: xs) =
    c.namelessIn (y :: ys) →
    Matches xs ys (.lam x dom b) (.lam y dom c)
  | ann {t u : Term} {ty : Ty} : t.namelessIn xs = u.namelessIn ys →
    Matches xs ys (.ann t ty) (.ann u ty)
  | ctor {c : Name} {ts us : List Term} : ts.map (namelessIn xs) = us.map (namelessIn ys) →
    Matches xs ys (.ctor c ts) (.ctor c us)
  | elim {e : Name} {s s' : Term} {ts us : List Term} : s.namelessIn xs = s'.namelessIn ys →
    ts.map (namelessIn xs) = us.map (namelessIn ys) → Matches xs ys (.elim e s ts) (.elim e s' us)
  | prim {op : Operator} {ts us : List Term} : ts.map (namelessIn xs) = us.map (namelessIn ys) →
    Matches xs ys (.prim op ts) (.prim op us)
  | tuple {ts us : List Term} : ts.map (namelessIn xs) = us.map (namelessIn ys) →
    Matches xs ys (.tuple ts) (.tuple us)
  | proj {t u : Term} {i : UInt64} : t.namelessIn xs = u.namelessIn ys →
    Matches xs ys (.proj t i) (.proj u i)

theorem namelessIn_var (x : Name) :
    (var x).namelessIn xs = ((xs.idxOf? x).map Nameless.bound).getD (.free x) := by
  rw [namelessIn]
  cases xs.idxOf? x <;> rfl

theorem namelessIn_eq_var_iff {x : Name} : (var x).namelessIn xs = u.namelessIn ys ↔
    ∃ y, u = .var y ∧ xs.idxOf? x = ys.idxOf? y ∧ (xs.idxOf? x = none → x = y) := by
  rw [namelessIn_var]
  constructor
  · intro h
    cases u with
    | var y =>
      rw [namelessIn_var] at h
      cases hx : xs.idxOf? x <;> cases hy : ys.idxOf? y <;> rw [hx, hy] at h <;> cases h
      · exact ⟨x, rfl, hy.symm, fun _ => rfl⟩
      · exact ⟨y, rfl, hy.symm, nofun⟩
    | _ => cases hx : xs.idxOf? x <;> rw [hx] at h <;> cases h
  · rintro ⟨y, rfl, hplace, hname⟩
    rw [namelessIn_var, hplace]
    cases hy : ys.idxOf? y with
    | some i => rfl
    | none => rw [hname (hplace.trans hy)]

theorem ne_namelessIn_var (ht : ∀ x, t ≠ var x) (y : Name) :
    t.namelessIn xs ≠ (var y).namelessIn ys := fun h => by
  obtain ⟨x, rfl, -⟩ := namelessIn_eq_var_iff.1 h.symm
  exact ht x rfl

theorem matches_of_namelessIn_eq (h : t.namelessIn xs = u.namelessIn ys) : Matches xs ys t u := by
  cases t with
  | var x =>
    obtain ⟨y, rfl, hplace, hname⟩ := namelessIn_eq_var_iff.1 h
    exact .var hplace hname
  | lit l =>
    cases u with
    | var y => exact absurd h (ne_namelessIn_var (by simp) y)
    | lit _ =>
      cases h
      exact .lit
    | _ => cases h
  | app f a =>
    cases u with
    | var y => exact absurd h (ne_namelessIn_var (by simp) y)
    | app g b =>
      simp only [namelessIn, Nameless.app.injEq] at h
      exact .app h.1 h.2
    | _ => cases h
  | lam x dom b =>
    cases u with
    | var y => exact absurd h (ne_namelessIn_var (by simp) y)
    | lam y dom' c =>
      simp only [namelessIn, Nameless.lam.injEq] at h
      obtain ⟨rfl, h⟩ := h
      exact .lam h
    | _ => cases h
  | ann t ty =>
    cases u with
    | var y => exact absurd h (ne_namelessIn_var (by simp) y)
    | ann u ty' =>
      simp only [namelessIn, Nameless.ann.injEq] at h
      obtain ⟨h, rfl⟩ := h
      exact .ann h
    | _ => cases h
  | ctor c args =>
    cases u with
    | var y => exact absurd h (ne_namelessIn_var (by simp) y)
    | ctor c' args' =>
      simp only [namelessIn, namelessAllIn_eq_map, Nameless.ctor.injEq] at h
      obtain ⟨rfl, h⟩ := h
      exact .ctor h
    | _ => cases h
  | elim e s args =>
    cases u with
    | var y => exact absurd h (ne_namelessIn_var (by simp) y)
    | elim e' s' args' =>
      simp only [namelessIn, namelessAllIn_eq_map, Nameless.elim.injEq] at h
      obtain ⟨rfl, hs, h⟩ := h
      exact .elim hs h
    | _ => cases h
  | prim op args =>
    cases u with
    | var y => exact absurd h (ne_namelessIn_var (by simp) y)
    | prim op' args' =>
      simp only [namelessIn, namelessAllIn_eq_map, Nameless.prim.injEq] at h
      obtain ⟨rfl, h⟩ := h
      exact .prim h
    | _ => cases h
  | tuple elems =>
    cases u with
    | var y => exact absurd h (ne_namelessIn_var (by simp) y)
    | tuple elems' =>
      simp only [namelessIn, namelessAllIn_eq_map, Nameless.tuple.injEq] at h
      exact .tuple h
    | _ => cases h
  | proj t i =>
    cases u with
    | var y => exact absurd h (ne_namelessIn_var (by simp) y)
    | proj u j =>
      simp only [namelessIn, Nameless.proj.injEq] at h
      obtain ⟨h, rfl⟩ := h
      exact .proj h
    | _ => cases h

end Term

variable {a b t u f g s s' : Term} {e e' : Error} {xs ys : List Name} {x y : Name} {ctx : Context}

class Facing (a b t u : Term) : Prop where
  cases : t = a ∧ u = b ∨ t.size < a.size ∧ u.size < b.size

instance : Facing a b a b := ⟨.inl ⟨rfl, rfl⟩⟩

theorem Facing.within (h : Facing t u s s') (ht : t.size < a.size) (hu : u.size < b.size) :
    Facing a b s s' := by
  obtain ⟨rfl, rfl⟩ | ⟨hs, hs'⟩ := h.cases
  · exact ⟨.inr ⟨ht, hu⟩⟩
  · exact ⟨.inr ⟨by omega, by omega⟩⟩

/-- Errors about `a` and `b` that say the same, and put it down to terms in the same place if
they put it down to a term. -/
structure Blames (a b : Term) (e e' : Error) : Prop where
  same : e.withoutTerms = e'.withoutTerms
  culprits : Option.Rel (Facing a b) e.culprit? e'.culprit?

theorem Blames.refl (h : e.culprit? = none) : Blames a b e e := ⟨rfl, h ▸ .none⟩

theorem Blames.within (h : Blames t u e e') (ht : t.size < a.size) (hu : u.size < b.size) :
    Blames a b e e' where
  same := h.same
  culprits := by
    have hculprits := h.culprits
    generalize e.culprit? = o, e'.culprit? = o' at hculprits ⊢
    cases hculprits with
    | some h => exact .some (h.within ht hu)
    | none => exact .none

namespace Checker

theorem blameApplication_of_silent (h : e.culprit? = none) : blameApplication f a e = e := by
  unfold blameApplication
  split
  · cases h
  · rfl

theorem blames_application (h : Blames t u e e') :
    Blames (.app f t) (.app g u) (blameApplication f t e) (blameApplication g u e') := by
  obtain ⟨hsame, hculprits⟩ := h
  have ht : t.size < (Term.app f t).size := by
    simp only [Term.size]
    omega
  have hu : u.size < (Term.app g u).size := by
    simp only [Term.size]
    omega
  generalize ho : e.culprit? = o, ho' : e'.culprit? = o' at hculprits
  cases hculprits with
  | none =>
    rw [blameApplication_of_silent ho, blameApplication_of_silent ho']
    exact ⟨hsame, by rw [ho, ho']; exact .none⟩
  | @some s s' hfacing =>
    obtain ⟨expected, found, rfl⟩ := Error.culprit?_eq_some_iff.1 ho
    obtain ⟨expected', found', rfl⟩ := Error.culprit?_eq_some_iff.1 ho'
    cases hsame
    obtain ⟨rfl, rfl⟩ | ⟨hs, hs'⟩ := hfacing.cases
    · rw [blameApplication, blameApplication, if_pos rfl, if_pos rfl]
      exact ⟨rfl, .none⟩
    · have hne : s ≠ t := fun e => by simp [e] at hs
      have hne' : s' ≠ u := fun e => by simp [e] at hs'
      rw [blameApplication, blameApplication, if_neg hne, if_neg hne']
      exact ⟨rfl, .some ⟨.inr ⟨by omega, by omega⟩⟩⟩

class Silent {α : Type} (x : Except Error α) : Prop where
  silent : ∀ e, x = .error e → e.culprit? = none

theorem silent_ok {α : Type} (v : α) : Silent (.ok v) := ⟨nofun⟩

theorem silent_error {α : Type} (h : e.culprit? = none) : Silent (.error e : Except Error α) :=
  ⟨fun _ he => by cases he; exact h⟩

theorem Silent.bind {α β : Type} {x : Except Error α} {k : α → Except Error β} (hx : Silent x)
    (hk : ∀ v, Silent (k v)) :
    Silent (x >>= k) where
  silent e he := by
    obtain he | ⟨v, -, he⟩ := bind_eq_error_iff.1 he
    · exact hx.silent e he
    · exact (hk v).silent e he

theorem silent_lookup : Silent (ctx.lookup x) := by
  unfold Context.lookup
  split
  · exact silent_ok _
  · exact silent_error rfl

instance : Silent (ctx.constructor x) := by
  unfold Context.constructor
  refine silent_lookup.bind fun entry => ?_
  cases entry <;> first | exact silent_ok _ | exact silent_error rfl

instance : Silent (ctx.eliminator x) := by
  unfold Context.eliminator
  refine silent_lookup.bind fun entry => ?_
  cases entry <;> first | exact silent_ok _ | exact silent_error rfl

instance {op : Operator} {ty : Ty} : Silent (Barrier.permitPrimitive ctx op ty) := by
  unfold Barrier.permitPrimitive
  split
  · exact silent_error rfl
  · exact silent_ok _

instance {i : UInt64} {ty : Ty} : Silent (Barrier.permitProjection ctx i ty) := by
  unfold Barrier.permitProjection
  split
  · exact silent_error rfl
  · exact silent_ok _

instance {d : Eliminator} {ty : Ty} : Silent (Barrier.permitElimination ctx d ty) := by
  unfold Barrier.permitElimination
  split
  · split
    · exact silent_ok _
    · exact silent_error rfl
  · exact silent_ok _

theorem silent_checkWrittenAll {ts : List Ty} (h : ∀ t ∈ ts, Silent (checkWritten ctx t)) :
    Silent (checkWrittenAll ctx ts) := by
  induction ts with
  | nil => exact silent_ok _
  | cons t ts ih =>
    obtain ⟨ht, hts⟩ := List.forall_mem_cons.1 h
    exact ht.bind fun _ => ih hts

instance silent_checkWritten (ty : Ty) : Silent (checkWritten ctx ty) := by
  induction ty with
  | var x => exact silent_ok _
  | prim p => exact silent_ok _
  | metavar i => exact silent_error rfl
  | arrow d c ihd ihc => exact ihd.bind fun _ => ihc
  | tuple elems ih => exact silent_checkWrittenAll ih
  | const c args ih =>
    rw [checkWritten]
    refine silent_lookup.bind fun entry => ?_
    cases entry with
    | type d =>
      show Silent (if _ then _ else _)
      split
      · exact silent_checkWrittenAll ih
      · exact silent_error rfl
    | _ => exact silent_error rfl

/-- The states differ in nothing but what the local assumptions are called, which is `xs` and
`ys`, and in the terms whose comparisons were put off. -/
structure Abreast (xs ys : List Name) (c c' : Checker) : Prop where
  solutions : c'.solutions = c.solutions
  left : c.locals.map Prod.fst = xs
  right : c'.locals.map Prod.fst = ys
  types : c'.locals.map Prod.snd = c.locals.map Prod.snd
  equalities : c'.equalities.map Prod.snd = c.equalities.map Prod.snd

variable {α β : Type} {c c' : Checker}

/-- From states that are abreast, both runs give the same answer and leave states that are
abreast, or fail alike on `a` and on `b`. The instances go along with the steps of the runs. -/
class Parallel (a b : Term) (xs ys : List Name) (m m' : Check α) : Prop where
  run : ∀ {c c' : Checker}, Abreast xs ys c c' →
    (∃ v c₁ c₁', m.apply c = (.ok v, c₁) ∧ m'.apply c' = (.ok v, c₁') ∧ Abreast xs ys c₁ c₁') ∨
      ∃ e e' c₁ c₁', m.apply c = (.error e, c₁) ∧ m'.apply c' = (.error e', c₁') ∧ Blames a b e e'

theorem Parallel.of_ok {m m' : Check α}
    (h : ∀ c c', Abreast xs ys c c' → ∃ v c₁ c₁', m.apply c = (.ok v, c₁) ∧
      m'.apply c' = (.ok v, c₁') ∧ Abreast xs ys c₁ c₁') :
    Parallel a b xs ys m m' := ⟨fun hc => .inl (h _ _ hc)⟩

theorem parallel_throw (h : Blames a b e e') : Parallel a b xs ys (throw e : Check α) (throw e') :=
  ⟨fun {c c'} _ => .inr ⟨e, e', c, c', rfl, rfl, h⟩⟩

theorem Parallel.within {m m' : Check α} (h : Parallel t u xs ys m m') (ht : t.size < a.size)
    (hu : u.size < b.size) :
    Parallel a b xs ys m m' where
  run hc := (h.run hc).imp_right fun ⟨e, e', c₁, c₁', hm, hm', he⟩ =>
    ⟨e, e', c₁, c₁', hm, hm', he.within ht hu⟩

section

variable {m m' k k' : Check α} {l l' : α → Check β} {ty ty' : Ty}

theorem Parallel.bind (hm : Parallel a b xs ys m m') (hl : ∀ v, Parallel a b xs ys (l v) (l' v)) :
    Parallel a b xs ys (m >>= l) (m' >>= l') where
  run hc := by
    obtain ⟨v, c₁, c₁', h, h', hc₁⟩ | ⟨e, e', c₁, c₁', h, h', he⟩ := hm.run hc
    · rw [apply_bind_of_ok h, apply_bind_of_ok h']
      exact (hl v).run hc₁
    · rw [apply_bind_of_error h, apply_bind_of_error h']
      exact .inr ⟨e, e', c₁, c₁', rfl, rfl, he⟩

instance [Parallel a b xs ys m m'] [∀ v, Parallel a b xs ys (l v) (l' v)] :
    Parallel a b xs ys (m >>= l) (m' >>= l') :=
  .bind inferInstance fun _ => inferInstance

instance (v : α) : Parallel a b xs ys (pure v : Check α) (pure v) :=
  .of_ok fun c c' hc => ⟨v, c, c', rfl, rfl, hc⟩

instance (x : Except Error α) [hx : Silent x] :
    Parallel a b xs ys (liftM x : Check α) (liftM x) where
  run {c c'} hc := by
    cases h : x with
    | ok v => exact .inl ⟨v, c, c', rfl, rfl, hc⟩
    | error e => exact .inr ⟨e, e, c, c', rfl, rfl, .refl (hx.silent e h)⟩

instance {p : Prop} [Decidable p] [Parallel a b xs ys m m'] [Parallel a b xs ys k k'] :
    Parallel a b xs ys (if p then m else k) (if p then m' else k') := by
  split <;> infer_instance

instance : Parallel a b xs ys (zonk ty) (zonk ty) :=
  .of_ok fun c c' hc => ⟨c.solutions.zonk ty, c, c', rfl, hc.solutions ▸ rfl, hc⟩

instance : Parallel a b xs ys (resolve ty) (resolve ty) :=
  .of_ok fun c c' hc => ⟨c.solutions.resolve ty, c, c', rfl, hc.solutions ▸ rfl, hc⟩

instance : Parallel a b xs ys fresh fresh :=
  .of_ok fun c c' hc => ⟨c.solutions.fresh.1, { c with solutions := c.solutions.fresh.2 },
    { c' with solutions := c.solutions.fresh.2 }, rfl, hc.solutions ▸ rfl,
      ⟨rfl, hc.left, hc.right, hc.types, hc.equalities⟩⟩

instance : Parallel a b xs ys (unify ty ty') (unify ty ty') :=
  .of_ok fun c c' hc =>
    ⟨(c.solutions.unify ty ty').1, { c with solutions := (c.solutions.unify ty ty').2 },
    { c' with solutions := (c.solutions.unify ty ty').2 }, rfl, hc.solutions ▸ rfl,
      ⟨rfl, hc.left, hc.right, hc.types, hc.equalities⟩⟩

theorem apply_withLocal (x : Name) (ty : Ty) (m : Check α) (c : Checker) :
    (withLocal x ty m).apply c =
    ((m.apply { c with locals := (x, ty) :: c.locals }).1,
      { (m.apply { c with locals := (x, ty) :: c.locals }).2 with
        locals := (m.apply { c with locals := (x, ty) :: c.locals }).2.locals.tail }) := rfl

theorem Abreast.push (h : Abreast xs ys c c') (x y : Name) (ty : Ty) :
    Abreast (x :: xs) (y :: ys) { c with locals := (x, ty) :: c.locals }
      { c' with locals := (y, ty) :: c'.locals } :=
  ⟨h.solutions, congrArg (x :: ·) h.left, congrArg (y :: ·) h.right, congrArg (ty :: ·) h.types,
    h.equalities⟩

theorem Abreast.pop (h : Abreast (x :: xs) (y :: ys) c c') :
    Abreast xs ys { c with locals := c.locals.tail } { c' with locals := c'.locals.tail } where
  solutions := h.solutions
  left := by rw [List.map_tail, h.left, List.tail_cons]
  right := by rw [List.map_tail, h.right, List.tail_cons]
  types := by rw [List.map_tail, List.map_tail, h.types]
  equalities := h.equalities

instance [hm : Parallel a b (x :: xs) (y :: ys) m m'] :
    Parallel a b xs ys (withLocal x ty m) (withLocal y ty m') where
  run hc := by
    rw [apply_withLocal, apply_withLocal]
    obtain ⟨v, c₁, c₁', h, h', hc₁⟩ | ⟨e, e', c₁, c₁', h, h', he⟩ := hm.run (hc.push x y ty)
    · rw [h, h']
      exact .inl ⟨v, _, _, rfl, rfl, hc₁.pop⟩
    · rw [h, h']
      exact .inr ⟨e, e', _, _, rfl, rfl, he⟩

instance [hm : Parallel t u xs ys m m'] :
    Parallel (.app f t) (.app g u) xs ys (m.adapt (blameApplication f t))
      (m'.adapt (blameApplication g u)) where
  run {c c'} hc := by
    show (∃ v c₁ c₁', ((m.apply c).1.mapError _, (m.apply c).2) = _ ∧
      ((m'.apply c').1.mapError _, (m'.apply c').2) = _ ∧ _) ∨
      ∃ e e' c₁ c₁', ((m.apply c).1.mapError _, (m.apply c).2) = _ ∧
        ((m'.apply c').1.mapError _, (m'.apply c').2) = _ ∧ _
    obtain ⟨v, c₁, c₁', h, h', hc₁⟩ | ⟨e, e', c₁, c₁', h, h', he⟩ := hm.run hc
    · rw [h, h']
      exact .inl ⟨v, c₁, c₁', rfl, rfl, hc₁⟩
    · rw [h, h']
      exact .inr ⟨_, _, c₁, c₁', rfl, rfl, blames_application he⟩

instance : Parallel a b xs ys (modify fun c => { c with equalities := c.equalities ++ [(s, ty)] })
    (modify fun c => { c with equalities := c.equalities ++ [(s', ty)] }) :=
  .of_ok fun c c' hc => ⟨(), { c with equalities := c.equalities ++ [(s, ty)] },
    { c' with equalities := c'.equalities ++ [(s', ty)] }, rfl, rfl,
      ⟨hc.solutions, hc.left, hc.right, hc.types, by simp [hc.equalities]⟩⟩

end

section

variable {ty expected found signature : Ty} {mode : Mode} {op : Operator}
  {operand operand' : Check Ty} {i : Nat} {e : Name}

instance [h : Facing a b s s'] :
    Parallel a b xs ys (mismatch s expected found : Check α) (mismatch s' expected found) := by
  unfold mismatch
  refine .bind inferInstance fun expected => .bind inferInstance fun found =>
    parallel_throw ⟨rfl, .some h⟩

instance parallel_freshAll (vars : List Name) :
    Parallel a b xs ys (freshAll vars) (freshAll vars) := by
  induction vars with
  | nil => exact inferInstanceAs (Parallel a b xs ys (pure []) (pure []))
  | cons x vars ih =>
    rw [freshAll]
    infer_instance

instance : Parallel a b xs ys (freshCopy signature) (freshCopy signature) := by
  unfold freshCopy
  infer_instance

instance [Facing a b s s'] : Parallel a b xs ys (settle s ty mode) (settle s' ty mode) := by
  cases mode <;> unfold settle <;> infer_instance

instance : Parallel a b xs ys (expectedArrow? mode) (expectedArrow? mode) := by
  cases mode with
  | infer => exact inferInstanceAs (Parallel a b xs ys (pure none) (pure none))
  | check expected =>
    unfold expectedArrow?
    refine .bind inferInstance fun ty => ?_
    cases ty <;> infer_instance

instance : Parallel a b xs ys (functionType f ty) (functionType g ty) := by
  unfold functionType
  refine .bind inferInstance fun ty' => ?_
  cases ty' with
  | arrow d c => infer_instance
  | metavar i => infer_instance
  | _ => exact .bind inferInstance fun _ => parallel_throw ⟨rfl, .none⟩

instance [Parallel a b xs ys operand operand'] :
    Parallel a b xs ys (inspect ctx op operand) (inspect ctx op operand') := by
  unfold inspect
  infer_instance

instance [Facing a b s s'] [Parallel a b xs ys operand operand'] :
    Parallel a b xs ys (checkOperand ctx op s operand) (checkOperand ctx op s' operand') := by
  unfold checkOperand
  infer_instance

instance {left left' right right' : Check Ty} [Facing a b s s'] [Facing a b t u]
    [Parallel a b xs ys left left'] [Parallel a b xs ys right right'] :
    Parallel a b xs ys (checkEquality ctx s t left right)
      (checkEquality ctx s' u left' right') := by
  unfold checkEquality
  refine .bind inferInstance fun left => .bind inferInstance fun right => ?_
  have compared : Parallel a b xs ys (do
      match ← zonk left with
      | .prim _ => return
      | .metavar i => modify fun c => { c with equalities := c.equalities ++ [(s, .metavar i)] }
      | t => mismatch s (.prim .int) t : Check Unit) (do
      match ← zonk left with
      | .prim _ => return
      | .metavar i => modify fun c => { c with equalities := c.equalities ++ [(s', .metavar i)] }
      | t =>
        mismatch s' (.prim .int) t) := .bind inferInstance fun ty => by cases ty <;> infer_instance
  infer_instance

instance {dom motive : Ty} {fields : Nat} [Facing a b t u] [Parallel a b xs ys operand operand'] :
    Parallel a b xs ys (judgeBranch e i t dom fields motive operand)
      (judgeBranch e i u dom fields motive operand') := by
  have motive (result motive : Ty) : Parallel a b xs ys
      (do throw (.type (.motive e i (← zonk motive) (← zonk result))) : Check Unit)
      (do throw (.type (.motive e i (← zonk motive) (← zonk result)))) :=
    .bind inferInstance fun _ => .bind inferInstance fun _ => parallel_throw (.refl rfl)
  unfold judgeBranch
  infer_instance

end

structure Opposite (ctx : Context) (a b : Term) (xs ys : List Name) (t u : Term) : Prop where
  facing : Facing a b t u
  judged : ∀ mode, Parallel a b xs ys (judge ctx t mode) (judge ctx u mode)

section

variable {ts us : List Term} {op : Operator}

theorem parallel_inferAll (h : List.Forall₂ (Opposite ctx a b xs ys) ts us) :
    Parallel a b xs ys (inferAll ctx ts) (inferAll ctx us) := by
  induction h with
  | nil =>
    rw [inferAll]
    infer_instance
  | cons h _ ih =>
    have := h.judged
    rw [inferAll, inferAll]
    infer_instance

theorem parallel_checkAll (h : List.Forall₂ (Opposite ctx a b xs ys) ts us) (ds : List Ty) :
    Parallel a b xs ys (checkAll ctx ts ds) (checkAll ctx us ds) := by
  induction h generalizing ds with
  | nil => exact inferInstanceAs (Parallel a b xs ys (pure ()) (pure ()))
  | cons h _ ih =>
    cases ds with
    | nil => exact inferInstanceAs (Parallel a b xs ys (pure ()) (pure ()))
    | cons d ds =>
      have := h.judged
      have := ih ds
      rw [checkAll, checkAll]
      infer_instance

theorem parallel_checkOperands (h : List.Forall₂ (Opposite ctx a b xs ys) ts us) :
    Parallel a b xs ys (checkOperands ctx op ts) (checkOperands ctx op us) := by
  induction h with
  | nil =>
    rw [checkOperands]
    infer_instance
  | cons h _ ih =>
    have := h.facing
    have := h.judged
    rw [checkOperands, checkOperands]
    infer_instance

theorem parallel_judgeBranches {e : Name} {motive : Ty} {i : Nat}
    (h : List.Forall₂ (Opposite ctx a b xs ys) ts us) (ds : List Ty)
    (cs : List Name) :
    Parallel a b xs ys (judgeBranches ctx e motive i ts ds cs)
      (judgeBranches ctx e motive i us ds cs) := by
  induction h generalizing i ds cs with
  | nil => exact inferInstanceAs (Parallel a b xs ys (pure ()) (pure ()))
  | cons h _ ih =>
    cases ds with
    | nil => exact inferInstanceAs (Parallel a b xs ys (pure ()) (pure ()))
    | cons d ds =>
      cases cs with
      | nil => exact inferInstanceAs (Parallel a b xs ys (pure ()) (pure ()))
      | cons x cs =>
        have := h.facing
        have := h.judged
        have (j : Nat) := ih (i := j) ds cs
        rw [judgeBranches, judgeBranches]
        infer_instance

end

theorem find?_eq_getElem? (locals : List (Name × Ty)) (x : Name) :
    (locals.find? (·.1 = x)).map Prod.snd =
    ((locals.map Prod.fst).idxOf? x).bind fun i => (locals.map Prod.snd)[i]? := by
  induction locals with
  | nil => rfl
  | cons p locals ih =>
    rw [List.map_cons, List.map_cons, idxOf?_cons]
    by_cases hx : p.1 = x
    · simp [hx]
    · simp only [List.find?_cons, hx, decide_false, ih, if_false, Option.bind_map]
      rfl

theorem parallel_var (hplace : xs.idxOf? x = ys.idxOf? y) (hname : xs.idxOf? x = none → x = y)
    (mode : Mode) :
    Parallel (.var x) (.var y) xs ys (judge ctx (.var x) mode) (judge ctx (.var y) mode) where
  run {c c'} hc := by
    have hfound : (c'.locals.find? (·.1 = y)).map Prod.snd =
        (c.locals.find? (·.1 = x)).map Prod.snd := by
      rw [find?_eq_getElem?, find?_eq_getElem?, hc.left, hc.right, hplace, hc.types]
    have hx : (localType? x).apply c = (.ok ((c.locals.find? (·.1 = x)).map Prod.snd), c) := rfl
    have hy : (localType? y).apply c' = (.ok ((c.locals.find? (·.1 = x)).map Prod.snd), c') :=
      hfound ▸ rfl
    rw [judge, judge, apply_bind_of_ok hx, apply_bind_of_ok hy]
    cases hty : (c.locals.find? (·.1 = x)).map Prod.snd with
    | some ty => exact Parallel.run hc
    | none =>
      -- a name without an assumption is free, and then it is the same name on both sides
      have hfree : x ∉ xs := by
        rw [← hc.left, List.mem_map]
        rintro ⟨p, hp, rfl⟩
        simpa using List.find?_eq_none.1 (Option.map_eq_none_iff.1 hty) p hp
      rw [hname (List.idxOf?_eq_none_iff.2 hfree)]
      exact (parallel_throw (.refl rfl)).run hc

theorem opposite_of_map_eq {ts us : List Term}
    (ih : ∀ t ∈ ts, ∀ u, t.namelessIn xs = u.namelessIn ys →
      ∀ mode, Parallel t u xs ys (judge ctx t mode) (judge ctx u mode))
    (h : ts.map (Term.namelessIn xs) = us.map (Term.namelessIn ys)) (ha : Term.sizeAll ts < a.size)
    (hb : Term.sizeAll us < b.size) :
    List.Forall₂ (Opposite ctx a b xs ys) ts us := by
  induction ts generalizing us with
  | nil =>
    cases List.map_eq_nil_iff.1 h.symm
    exact .nil
  | cons t ts ihs =>
    obtain ⟨u, us, rfl, hu, hus⟩ := List.map_eq_cons_iff.1 h.symm
    obtain ⟨iht, ihts⟩ := List.forall_mem_cons.1 ih
    rw [Term.sizeAll] at ha hb
    have ht : t.size < a.size := by omega
    have hu' : u.size < b.size := by omega
    exact .cons ⟨⟨.inr ⟨ht, hu'⟩⟩, fun mode => (iht u hu.symm mode).within ht hu'⟩
      (ihs ihts hus.symm (by omega) (by omega))

theorem judge_prim {op : Operator} {args : List Term} {mode : Mode}
    (heq : ¬(op = .eq ∧ args.length = 2))
    (hite : ¬(op = .ite ∧ args.length = 3)) : judge ctx (.prim op args) mode = (do
      if args.length ≠ op.arity then throw (.type (.primArity op args.length))
      checkOperands ctx op args
      settle (.prim op args) (.prim (resultType op)) mode) := by
  rw [judge]
  · exact fun a b hop hargs => heq ⟨hop, hargs ▸ rfl⟩
  · exact fun c t e hop hargs => hite ⟨hop, hargs ▸ rfl⟩

section

variable {t u : Term} {ts us : List Term} {op : Operator}

theorem parallel_app {f g : Term}
    (hf : Parallel f g xs ys (judge ctx f .infer) (judge ctx g .infer))
    (ht : ∀ mode, Parallel t u xs ys (judge ctx t mode) (judge ctx u mode)) (mode : Mode) :
    Parallel (.app f t) (.app g u) xs ys (judge ctx (.app f t) mode)
      (judge ctx (.app g u) mode) := by
  have hsize {f a : Term} : f.size < (Term.app f a).size := by
    simp only [Term.size]
    omega
  have := hf.within (a := .app f t) (b := .app g u) hsize hsize
  rw [judge, judge]
  infer_instance

theorem parallel_ann {ty : Ty}
    (ht : Parallel t u xs ys (judge ctx t (.check ty)) (judge ctx u (.check ty))) (mode : Mode) :
    Parallel (.ann t ty) (.ann u ty) xs ys (judge ctx (.ann t ty) mode)
      (judge ctx (.ann u ty) mode) := by
  have hsize {t : Term} : t.size < (Term.ann t ty).size := Nat.lt_succ_self _
  have := ht.within (a := .ann t ty) (b := .ann u ty) hsize hsize
  rw [judge, judge]
  infer_instance

theorem parallel_lam {x y : Name} {dom : Option Ty}
    (ht : ∀ mode, Parallel t u (x :: xs) (y :: ys) (judge ctx t mode) (judge ctx u mode))
    (mode : Mode) :
    Parallel (.lam x dom t) (.lam y dom u) xs ys (judge ctx (.lam x dom t) mode)
      (judge ctx (.lam y dom u) mode) := by
  have hsize {x : Name} {t : Term} : t.size < (Term.lam x dom t).size := Nat.lt_succ_self _
  have (mode : Mode) := (ht mode).within (a := .lam x dom t) (b := .lam y dom u) hsize hsize
  rw [judge, judge]
  refine .bind inferInstance fun parts => ?_
  rcases parts with _ | ⟨d, c⟩ <;> cases mode <;> cases dom <;> infer_instance

theorem parallel_tuple (h : List.Forall₂ (Opposite ctx (.tuple ts) (.tuple us) xs ys) ts us)
    (mode : Mode) :
    Parallel (.tuple ts) (.tuple us) xs ys (judge ctx (.tuple ts) mode)
      (judge ctx (.tuple us) mode) := by
  have := parallel_inferAll h
  rw [judge, judge]
  infer_instance

theorem parallel_proj {i : UInt64}
    (ht : Parallel t u xs ys (judge ctx t .infer) (judge ctx u .infer)) (mode : Mode) :
    Parallel (.proj t i) (.proj u i) xs ys (judge ctx (.proj t i) mode)
      (judge ctx (.proj u i) mode) := by
  have hsize {t : Term} : t.size < (Term.proj t i).size := Nat.lt_succ_self _
  have := ht.within (a := .proj t i) (b := .proj u i) hsize hsize
  rw [judge, judge]
  refine .bind inferInstance fun _ => .bind inferInstance fun found =>
    .bind inferInstance fun _ => ?_
  cases found with
  | tuple elems =>
    cases h : elems[i.toNat]? with
    | some elem =>
      simp only [h]
      infer_instance
    | none =>
      simp only [h]
      exact parallel_throw (.refl rfl)
  | _ => exact parallel_throw (.refl rfl)

theorem parallel_ctor {c : Name}
    (h : List.Forall₂ (Opposite ctx (.ctor c ts) (.ctor c us) xs ys) ts us) (mode : Mode) :
    Parallel (.ctor c ts) (.ctor c us) xs ys (judge ctx (.ctor c ts) mode)
      (judge ctx (.ctor c us) mode) := by
  have := parallel_checkAll h
  have arity (signature : Ty) : Parallel (.ctor c ts) (.ctor c us) xs ys
      (throw (.type (.constructorArity c signature.doms.length us.length)) : Check Unit)
      (throw (.type (.constructorArity c signature.doms.length us.length))) :=
        parallel_throw (.refl rfl)
  rw [judge, judge, h.length_eq]
  infer_instance

theorem parallel_elim {e : Name} {s s' : Term}
    (hs : Parallel s s' xs ys (judge ctx s .infer) (judge ctx s' .infer))
    (h : List.Forall₂ (Opposite ctx (.elim e s ts) (.elim e s' us) xs ys) ts us) (mode : Mode) :
    Parallel (.elim e s ts) (.elim e s' us) xs ys (judge ctx (.elim e s ts) mode)
      (judge ctx (.elim e s' us) mode) := by
  have hsize {s : Term} {ts : List Term} : s.size < (Term.elim e s ts).size := by
    simp only [Term.size]
    omega
  have hscrutinee := hs.within (a := .elim e s ts) (b := .elim e s' us) hsize hsize
  have : Facing (.elim e s ts) (.elim e s' us) s s' := ⟨.inr ⟨hsize, hsize⟩⟩
  have hall := parallel_checkAll h
  have hbranches (motive : Ty) (ds : List Ty) (cs : List Name) :
      Parallel (.elim e s ts) (.elim e s' us) xs ys
      (judgeBranches ctx e motive 0 ts ds cs) (judgeBranches ctx e motive 0 us ds cs) :=
    parallel_judgeBranches h ds cs
  have hsettled (ty : Ty) : Parallel (.elim e s ts) (.elim e s' us) xs ys
      (settle (.elim e s ts) ty mode)
      (settle (.elim e s' us) ty mode) := inferInstance
  rw [judge, judge, h.length_eq]
  refine .bind inferInstance fun decl => .bind hscrutinee fun _ => .bind inferInstance fun found =>
    .bind inferInstance fun _ => .bind inferInstance fun signature => ?_
  cases signature.doms with
  | nil => exact parallel_throw (.refl rfl)
  | cons scrutinee rest =>
    have arity : Parallel (.elim e s ts) (.elim e s' us) xs ys
        (throw (.type (.eliminatorArity e rest.length us.length)) : Check Unit)
        (throw (.type (.eliminatorArity e rest.length us.length))) := parallel_throw (.refl rfl)
    infer_instance

instance {n : Nat} : Parallel a b xs ys (throw (.type (.primArity op n)) : Check Unit)
    (throw (.type (.primArity op n))) :=
  parallel_throw (.refl rfl)

theorem parallel_eq (h : List.Forall₂ (Opposite ctx (.prim .eq ts) (.prim .eq us) xs ys) ts us)
    (htwo : ts.length = 2) (mode : Mode) :
    Parallel (.prim .eq ts) (.prim .eq us) xs ys (judge ctx (.prim .eq ts) mode)
      (judge ctx (.prim .eq us) mode) := by
  have hlen := h.length_eq
  obtain ⟨t, t', rfl⟩ := List.length_eq_two.1 htwo
  obtain _ | ⟨ht, _ | ⟨ht', _ | _⟩⟩ := h
  have := ht.facing
  have := ht'.facing
  have := ht.judged .infer
  have := ht'.judged .infer
  rw [judge, judge, hlen]
  infer_instance

theorem parallel_ite (h : List.Forall₂ (Opposite ctx (.prim .ite ts) (.prim .ite us) xs ys) ts us)
    (hthree : ts.length = 3) (mode : Mode) :
    Parallel (.prim .ite ts) (.prim .ite us) xs ys (judge ctx (.prim .ite ts) mode)
      (judge ctx (.prim .ite us) mode) := by
  have hlen := h.length_eq
  obtain ⟨c, t, e, rfl⟩ := List.length_eq_three.1 hthree
  obtain _ | ⟨hc, _ | ⟨ht, _ | ⟨he, _ | _⟩⟩⟩ := h
  have := hc.facing
  have := hc.judged .infer
  have := ht.judged .infer
  have := he.judged
  rw [judge, judge, hlen]
  infer_instance

theorem parallel_prim (h : List.Forall₂ (Opposite ctx (.prim op ts) (.prim op us) xs ys) ts us)
    (mode : Mode) :
    Parallel (.prim op ts) (.prim op us) xs ys (judge ctx (.prim op ts) mode)
      (judge ctx (.prim op us) mode) := by
  by_cases heq : op = .eq ∧ ts.length = 2
  · obtain ⟨rfl, htwo⟩ := heq
    exact parallel_eq h htwo mode
  by_cases hite : op = .ite ∧ ts.length = 3
  · obtain ⟨rfl, hthree⟩ := hite
    exact parallel_ite h hthree mode
  have hlen : ts.length = us.length := h.length_eq
  have : Parallel (.prim op ts) (.prim op us) xs ys (checkOperands ctx op ts)
      (checkOperands ctx op us) :=
    parallel_checkOperands h
  rw [judge_prim heq hite, judge_prim (hlen ▸ heq) (hlen ▸ hite), hlen]
  infer_instance

end

theorem parallel_judge (ctx : Context) (h : a.namelessIn xs = b.namelessIn ys) (mode : Mode) :
    Parallel a b xs ys (judge ctx a mode) (judge ctx b mode) := by
  induction a generalizing b xs ys mode with
  | var x =>
    obtain ⟨y, rfl, hplace, hname⟩ := Term.namelessIn_eq_var_iff.1 h
    exact parallel_var hplace hname mode
  | lit l =>
    cases Term.matches_of_namelessIn_eq h
    rw [judge]
    infer_instance
  | app f a ihf iha =>
    cases Term.matches_of_namelessIn_eq h with
    | app hf ha => exact parallel_app (ihf hf .infer) (iha ha) mode
  | ann t ty ih =>
    cases Term.matches_of_namelessIn_eq h with
    | ann ht => exact parallel_ann (ih ht (.check ty)) mode
  | lam x dom body ih =>
    cases Term.matches_of_namelessIn_eq h with
    | lam hbody => exact parallel_lam (ih hbody) mode
  | tuple elems ih =>
    cases Term.matches_of_namelessIn_eq h with
    | tuple helems =>
      refine parallel_tuple ?_ mode
      exact opposite_of_map_eq (fun t ht u h => ih t ht h) helems (Nat.lt_succ_self _)
        (Nat.lt_succ_self _)
  | proj t i ih =>
    cases Term.matches_of_namelessIn_eq h with
    | proj ht => exact parallel_proj (ih ht .infer) mode
  | ctor c args ih =>
    cases Term.matches_of_namelessIn_eq h with
    | ctor hargs =>
      refine parallel_ctor ?_ mode
      exact opposite_of_map_eq (fun t ht u h => ih t ht h) hargs (Nat.lt_succ_self _)
        (Nat.lt_succ_self _)
  | elim e s args ihs ih =>
    cases Term.matches_of_namelessIn_eq h with
    | elim hs hargs =>
      have hsizes {s : Term} {args : List Term} : Term.sizeAll args <
          (Term.elim e s args).size := by
        simp only [Term.size]
        omega
      refine parallel_elim (ihs hs .infer) ?_ mode
      exact opposite_of_map_eq (fun t ht u h => ih t ht h) hargs hsizes hsizes
  | prim op args ih =>
    cases Term.matches_of_namelessIn_eq h with
    | prim hargs =>
      refine parallel_prim ?_ mode
      exact opposite_of_map_eq (fun t ht u h => ih t ht h) hargs (Nat.lt_succ_self _)
        (Nat.lt_succ_self _)

theorem parallel_checkDeferred {ds ds' : List (Term × Ty)}
    (h : List.Forall₂ (fun p q => p.2 = q.2 ∧ Facing a b p.1 q.1) ds ds') :
    Parallel a b xs ys (checkDeferred ctx ds) (checkDeferred ctx ds') := by
  induction h with
  | nil => exact inferInstanceAs (Parallel a b xs ys (pure ()) (pure ()))
  | @cons p q _ _ hpq _ ih =>
    obtain ⟨t, ty⟩ := p
    obtain ⟨u, ty'⟩ := q
    obtain ⟨rfl, hfacing⟩ := hpq
    have : Facing a b t u := hfacing
    rw [checkDeferred, checkDeferred]
    refine .bind inferInstance fun ty => .bind inferInstance fun _ => ?_
    cases ty <;> infer_instance

theorem parallel_deferred (ctx : Context) {ds ds' : List (Term × Ty)}
    (h : ds'.map Prod.snd = ds.map Prod.snd) :
    Parallel (.tuple (ds.map Prod.fst)) (.tuple (ds'.map Prod.fst)) xs ys (checkDeferred ctx ds)
      (checkDeferred ctx ds') := by
  refine parallel_checkDeferred ?_
  have each {ts us : List Term} (ht : ∀ p ∈ ds, p.1 ∈ ts) (hu : ∀ q ∈ ds', q.1 ∈ us) :
      List.Forall₂ (fun p q => p.2 = q.2 ∧ Facing (.tuple ts) (.tuple us) p.1 q.1) ds ds' := by
    induction ds generalizing ds' with
    | nil =>
      cases List.map_eq_nil_iff.1 h
      exact .nil
    | cons p ds ih =>
      obtain ⟨q, ds', rfl, hq, hds⟩ := List.map_eq_cons_iff.1 h
      obtain ⟨hp, hts⟩ := List.forall_mem_cons.1 ht
      obtain ⟨hq', hus⟩ := List.forall_mem_cons.1 hu
      have hsize {t : Term} {ts : List Term} (h : t ∈ ts) : t.size < (Term.tuple ts).size :=
        Nat.lt_succ_of_lt (Term.size_lt_of_mem h)
      exact .cons ⟨hq.symm, ⟨.inr ⟨hsize hp, hsize hq'⟩⟩⟩ (ih hds hts hus)
  exact each (fun p hp => List.mem_map_of_mem hp) fun q hq => List.mem_map_of_mem hq

theorem abreast_initial : Abreast [] [] initial initial := ⟨rfl, rfl, rfl, rfl, rfl⟩

theorem inferType_of_error (h : (infer ctx t).apply .initial = (.error e, c)) :
    inferType ctx t = .error e :=
  congrArg Prod.fst (apply_bind_of_error h)

theorem inferType_of_ok {ty : Ty} (h : (infer ctx t).apply .initial = (.ok ty, c)) :
    inferType ctx t =
    match (checkDeferred ctx c.equalities).apply { c with equalities := [] } with
    | (.ok _, d) => .ok (d.solutions.zonk ty)
    | (.error e, _) => .error e := by
  have hrun := congrArg Prod.fst (apply_bind_of_ok (f := fun ty => do
    discharge ctx
    zonk ty) h)
  have hdischarge : (discharge ctx).apply c = (checkDeferred ctx c.equalities).apply
      { c with equalities := [] } := rfl
  refine hrun.trans ?_
  rcases hd : (checkDeferred ctx c.equalities).apply { c with equalities := [] } with ⟨_ | _, d⟩
  · rw [apply_bind_of_error (hdischarge.trans hd)]
  · rw [apply_bind_of_ok (hdischarge.trans hd)]
    rfl

/-- The names of binders make no difference to typing. Terms that differ in nothing else both
have a type, and then the same one down to the numbers of its metavariables, or both have none,
and then for the same reason: the errors are of one kind, with the same types, names and numbers
in them. -/
theorem inferType_of_nameless_eq (ctx : Context) {a b : Term} (h : a.nameless = b.nameless) :
    (∃ ty, inferType ctx a = .ok ty ∧ inferType ctx b = .ok ty) ∨
      ∃ e e', inferType ctx a = .error e ∧ inferType ctx b = .error e' ∧
      e.withoutTerms = e'.withoutTerms := by
  obtain ⟨ty, c, c', ha, hb, hc⟩ | ⟨e, e', c, c', ha, hb, he⟩ :=
    (parallel_judge ctx h .infer).run abreast_initial
  · have hcleared : Abreast [] [] { c with equalities := [] } { c' with equalities := [] } :=
      ⟨hc.solutions, hc.left, hc.right, hc.types, rfl⟩
    rw [inferType_of_ok ha, inferType_of_ok hb]
    obtain ⟨_, d, d', hd, hd', hlast⟩ | ⟨e, e', d, d', hd, hd', he⟩ :=
      (parallel_deferred ctx hc.equalities).run hcleared
    · rw [hd, hd']
      exact .inl ⟨d.solutions.zonk ty, rfl, hlast.solutions ▸ rfl⟩
    · rw [hd, hd']
      exact .inr ⟨e, e', rfl, rfl, he.same⟩
  · exact .inr ⟨e, e', inferType_of_error ha, inferType_of_error hb, he.same⟩

def misapplied (y : Name) : Term :=
  .lam "x" (some (.prim .int))
    (.lam y (some (.prim .bool)) (.app (.lam "z" (some (.prim .int)) (.var "z")) (.var y)))

theorem inferType_misapplied : inferType .empty (misapplied "x") =
    .error
      (.type (.argument (.lam "z" (some (.prim .int)) (.var "z")) (.var "x") (.prim .int)
        (.prim .bool))) := rfl

theorem misapplied_renamed :
    ∃ e e', inferType .empty (misapplied "x") = .error e ∧
    inferType .empty (misapplied "y") = .error e' ∧
      e.withoutTerms = e'.withoutTerms := by
  have h : (misapplied "x").nameless = (misapplied "y").nameless := rfl
  obtain ⟨ty, hx, -⟩ | hfailed := inferType_of_nameless_eq .empty h
  · rw [inferType_misapplied] at hx
    cases hx
  · exact hfailed

end Checker

end ClosedTypes
