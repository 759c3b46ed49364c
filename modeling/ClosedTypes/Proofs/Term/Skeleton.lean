import ClosedTypes.Proofs.Term.Capture
import ClosedTypes.Term.Skeleton
/-!
Replacement of variables in skeletons composes, and substitution in a term, binders around it or
not, is a replacement in its skeleton. Terms that are equal up to bound names are those with one
skeleton.
-/

namespace ClosedTypes

namespace Variable

variable {α β : Type} {a : α} {f g : Variable → α}

theorem eq_bound_or_up (v : Variable) : v = .bound 0 ∨ ∃ w : Variable, v = w.up := by
  match v with
  | .bound 0 => exact .inl rfl
  | .bound (i + 1) => exact .inr ⟨.bound i, rfl⟩
  | .free x => exact .inr ⟨.free x, rfl⟩

@[simp] theorem push_bound : push a f (.bound 0) = a := rfl

@[simp] theorem push_up (v : Variable) : push a f v.up = f v := by cases v <;> rfl

theorem ext_push (hzero : f (.bound 0) = g (.bound 0)) (hup : ∀ v : Variable, f v.up = g v.up) :
    f = g := by
  funext v
  obtain rfl | ⟨w, rfl⟩ := v.eq_bound_or_up
  · exact hzero
  · exact hup w

end Variable

namespace Skeleton

open Variable

variable {t b : Skeleton} {ts : List Skeleton} {ρ ρ' : Variable → Variable}
  {θ θ' : Variable → Skeleton}

@[induction_eliminator]
theorem induct {P : Skeleton → Prop} (var : ∀ v, P (.var v)) (lam : ∀ b, P b → P (.lam b))
    (node : ∀ h ts, (∀ t ∈ ts, P t) → P (.node h ts)) (t : Skeleton) : P t :=
  Skeleton.rec (motive_1 := P) (motive_2 := fun ts => ∀ t ∈ ts, P t) var lam node nofun
    (fun _ _ h hs => List.forall_mem_cons.2 ⟨h, hs⟩) t

@[simp] theorem renameAll_eq_map (ρ : Variable → Variable) (ts : List Skeleton) :
    renameAll ρ ts = ts.map (rename ρ) := by
  induction ts with
  | nil => rfl
  | cons t ts ih => rw [renameAll, ih, List.map_cons]

@[simp] theorem replaceAll_eq_map (θ : Variable → Skeleton) (ts : List Skeleton) :
    replaceAll θ ts = ts.map (replace θ) := by
  induction ts with
  | nil => rfl
  | cons t ts ih => rw [replaceAll, ih, List.map_cons]

@[simp] theorem under_bound : under θ (.bound 0) = var (.bound 0) := rfl

@[simp] theorem under_up (v : Variable) : under θ v.up = (θ v).rename up := push_up v

theorem rename_rename : (t.rename ρ).rename ρ' = t.rename fun v => ρ' (ρ v) := by
  induction t generalizing ρ ρ' with
  | var v => rfl
  | lam b ih =>
    rw [rename, rename, rename, ih]
    congr 2
    exact ext_push rfl fun v => by simp
  | node h ts ih => simpa [rename] using fun t ht => ih t ht

theorem replace_rename : (t.rename ρ).replace θ = t.replace fun v => θ (ρ v) := by
  induction t generalizing ρ θ with
  | var v => rfl
  | lam b ih =>
    rw [rename, replace, replace, ih]
    congr 2
    exact ext_push rfl fun v => by simp
  | node h ts ih => simpa [rename, replace] using fun t ht => ih t ht

theorem rename_replace : (t.replace θ).rename ρ = t.replace fun v => (θ v).rename ρ := by
  induction t generalizing ρ θ with
  | var v => rfl
  | lam b ih =>
    rw [replace, rename, replace, ih]
    congr 2
    exact ext_push rfl fun v => by simp [rename_rename]
  | node h ts ih => simpa [rename, replace] using fun t ht => ih t ht

theorem replace_replace : (t.replace θ).replace θ' = t.replace fun v => (θ v).replace θ' := by
  induction t generalizing θ θ' with
  | var v => rfl
  | lam b ih =>
    rw [replace, replace, replace, ih]
    congr 2
    exact ext_push rfl fun v => by simp [rename_replace, replace_rename]
  | node h ts ih => simpa [replace] using fun t ht => ih t ht

theorem under_var : under var = var := ext_push rfl fun v => by simp [rename]

theorem replace_var : t.replace var = t := by
  induction t with
  | var v => rfl
  | lam b ih => rw [replace, under_var, ih]
  | node h ts ih => rw [replace, replaceAll_eq_map, List.map_congr_left ih, List.map_id']

theorem rename_eq_replace : t.rename ρ = t.replace fun v => var (ρ v) := by
  rw [← replace_var (t := t.rename ρ), replace_rename]

theorem instantiate_replace {a : Skeleton} :
    (b.instantiate a).replace θ = (b.replace (under θ)).instantiate (a.replace θ) := by
  rw [instantiate, instantiate, replace_replace, replace_replace]
  congr 1
  refine ext_push rfl fun v => ?_
  simp only [push_up, under_up, replace, replace_rename]
  exact replace_var.symm

@[simp] theorem replace_app {f a : Skeleton} :
    (app f a).replace θ = app (f.replace θ) (a.replace θ) := rfl

@[simp] theorem replace_int {n : Int64} : (int n).replace θ = int n := rfl

@[simp] theorem replace_bool {c : Bool} : (bool c).replace θ = bool c := rfl

@[simp] theorem replace_prim {op : Operator} :
    (prim op ts).replace θ = prim op (ts.map (replace θ)) := by
  rw [prim, replace, replaceAll_eq_map, prim]

theorem replace_applyAll {f : Skeleton} :
    (f.applyAll ts).replace θ = (f.replace θ).applyAll (ts.map (replace θ)) := by
  induction ts generalizing f with
  | nil => rfl
  | cons t ts ih => exact ih

end Skeleton

namespace Nameless

variable {n m : Nameless}

@[simp] theorem skeletons_eq_map (ts : List Nameless) : skeletons ts = ts.map skeleton := by
  induction ts with
  | nil => rfl
  | cons t ts ih => rw [skeletons, ih, List.map_cons]

theorem map_inj_of {α β γ : Type} {f : α → β} {g : α → γ} {as bs : List α}
    (h : ∀ a ∈ as, ∀ {b}, f a = f b ↔ g a = g b) :
    as.map f = bs.map f ↔ as.map g = bs.map g := by
  induction as generalizing bs with
  | nil => simp
  | cons a as ih =>
    cases bs with
    | nil => simp
    | cons b bs =>
      obtain ⟨ha, has⟩ := List.forall_mem_cons.1 h
      simp only [List.map_cons, List.cons.injEq, ha, ih has]

theorem skeleton_inj : n.skeleton = m.skeleton ↔ n.bare = m.bare := by
  induction n generalizing m with
  | bound i => cases m <;> simp [skeleton, bare]
  | free x => cases m <;> simp [skeleton, bare]
  | lit l => cases m <;> simp [skeleton, bare]
  | app f a ihf iha => cases m <;> simp [skeleton, bare, ihf, iha]
  | lam dom b ih => cases m <;> simp [skeleton, bare, ih]
  | ann t ty ih => cases m <;> simp [skeleton, bare, ih, and_comm]
  | ctor c args ih => cases m <;> simp [skeleton, bare, bareAll_eq_map, map_inj_of ih]
  | elim e s args ihs ih => cases m <;> simp [skeleton, bare, bareAll_eq_map, ihs, map_inj_of ih]
  | prim op args ih => cases m <;> simp [skeleton, bare, bareAll_eq_map, map_inj_of ih]
  | tuple elems ih => cases m <;> simp [skeleton, bare, bareAll_eq_map, map_inj_of ih]
  | proj t i ih => cases m <;> simp [skeleton, bare, ih, and_comm]

end Nameless

namespace Term

open Skeleton Variable

variable {t u b : Term} {xs ys : List Name} {x : Name} {θ θ' : Variable → Skeleton}

def locate (xs : List Name) (x : Name) : Variable :=
  match xs.idxOf? x with
  | some i => .bound i
  | none => .free x

theorem locate_cons (x y : Name) :
    locate (x :: xs) y = if x = y then .bound 0 else (locate xs y).up := by
  unfold locate
  rw [idxOf?_cons]
  by_cases h : x = y
  · rw [if_pos h, if_pos h]
  · rw [if_neg h, if_neg h]
    cases xs.idxOf? y <;> rfl

@[simp] theorem skeleton_var : (var x).skeleton xs = .var (locate xs x) := by
  unfold skeleton namelessIn locate
  cases xs.idxOf? x <;> rfl

@[simp] theorem skeleton_lit {l : Literal} : (lit l).skeleton xs = .node (.lit l) [] := rfl

@[simp] theorem skeleton_app {f a : Term} :
    (app f a).skeleton xs = .app (f.skeleton xs) (a.skeleton xs) := rfl

@[simp] theorem skeleton_lam {dom : Option Ty} :
    (lam x dom b).skeleton xs = .lam (b.skeleton (x :: xs)) := rfl

@[simp] theorem skeleton_ann {ty : Ty} : (ann t ty).skeleton xs = .node (.ann ty) [t.skeleton xs] :=
  rfl

@[simp] theorem skeleton_proj {i : UInt64} :
    (proj t i).skeleton xs = .node (.proj i) [t.skeleton xs] := rfl

theorem skeletons_namelessAllIn (ts : List Term) :
    Nameless.skeletons (namelessAllIn xs ts) = ts.map (skeleton xs) := by
  rw [Nameless.skeletons_eq_map, namelessAllIn_eq_map, List.map_map]
  rfl

@[simp] theorem skeleton_ctor {c : Name} {ts : List Term} :
    (ctor c ts).skeleton xs = .node (.ctor c) (ts.map (skeleton xs)) :=
  congrArg (Skeleton.node _) (skeletons_namelessAllIn ts)

@[simp] theorem skeleton_elim {e : Name} {s : Term} {ts : List Term} :
    (elim e s ts).skeleton xs = .node (.elim e) (s.skeleton xs :: ts.map (skeleton xs)) :=
  congrArg (fun us => Skeleton.node _ (s.skeleton xs :: us)) (skeletons_namelessAllIn ts)

@[simp] theorem skeleton_prim {op : Operator} {ts : List Term} :
    (prim op ts).skeleton xs = .prim op (ts.map (skeleton xs)) :=
  congrArg (Skeleton.node _) (skeletons_namelessAllIn ts)

@[simp] theorem skeleton_tuple {ts : List Term} :
    (tuple ts).skeleton xs = .node .tuple (ts.map (skeleton xs)) :=
  congrArg (Skeleton.node _) (skeletons_namelessAllIn ts)

theorem replace_skeleton_congr (h : ∀ x ∈ t.free, θ (locate xs x) = θ' (locate ys x)) :
    (t.skeleton xs).replace θ = (t.skeleton ys).replace θ' := by
  have each {ts : List Term} {xs ys : List Name} {θ θ' : Variable → Skeleton}
      (ih : ∀ t ∈ ts, ∀ {xs ys : List Name} {θ θ' : Variable → Skeleton},
        (∀ x ∈ t.free, θ (locate xs x) = θ' (locate ys x)) →
          (t.skeleton xs).replace θ = (t.skeleton ys).replace θ')
      (h : ∀ x ∈ freeAll ts, θ (locate xs x) = θ' (locate ys x)) :
      (ts.map (skeleton xs)).map (replace θ) = (ts.map (skeleton ys)).map (replace θ') := by
    rw [List.map_map, List.map_map]
    exact List.map_congr_left fun t ht => ih t ht fun x hx => h x (mem_freeAll.2 ⟨t, ht, hx⟩)
  induction t generalizing xs ys θ θ' with
  | var x =>
    rw [skeleton_var, skeleton_var]
    exact h x List.mem_cons_self
  | lit l => rfl
  | app f a ihf iha =>
    rw [skeleton_app, skeleton_app, replace_app, replace_app, ihf fun x hx =>
      h x (List.mem_append_left _ hx), iha fun x hx => h x (List.mem_append_right _ hx)]
  | lam x dom b ih =>
    refine congrArg Skeleton.lam (ih fun y hy => ?_)
    rw [locate_cons, locate_cons]
    by_cases hxy : x = y
    · rw [if_pos hxy, if_pos hxy, under_bound, under_bound]
    · rw [if_neg hxy, if_neg hxy, under_up, under_up,
        h y (List.mem_filter.2 ⟨hy, by simpa using Ne.symm hxy⟩)]
  | ann t ty ih => simpa [replace] using ih h
  | ctor c args ih => simpa [replace] using each ih h
  | elim e s args ihs ih =>
    simpa [replace] using And.intro (ihs fun x hx => h x (List.mem_append_left _ hx))
      (each ih fun x hx => h x (List.mem_append_right _ hx))
  | prim op args ih => rw [skeleton_prim, skeleton_prim, replace_prim, replace_prim, each ih h]
  | tuple elems ih => simpa [replace] using each ih h
  | proj t i ih => simpa [replace] using ih h

theorem skeleton_eq_replace (h : ∀ x ∈ t.free, .var (locate ys x) = θ (locate xs x)) :
    t.skeleton ys = (t.skeleton xs).replace θ := by
  rw [← replace_var (t := t.skeleton ys)]
  exact replace_skeleton_congr h

def locating (xs : List Name) : Variable → Skeleton
  | .free x => .var (locate xs x)
  | v => .var v

theorem skeleton_eq_locating : t.skeleton xs = (t.skeleton []).replace (locating xs) :=
  skeleton_eq_replace fun _ _ => rfl

theorem rename_skeleton_nil : (t.skeleton []).rename up = t.skeleton [] := by
  have h : t.skeleton [] = (t.skeleton []).replace fun v => .var v.up :=
    skeleton_eq_replace fun _ _ => rfl
  rw [rename_eq_replace, ← h]

theorem skeleton_of_closed (h : t.free = []) : (t.skeleton xs).replace θ = t.skeleton ys := by
  rw [← replace_var (t := t.skeleton ys)]
  refine replace_skeleton_congr fun x hx => ?_
  rw [h] at hx
  cases hx

/-- Terms are equal up to bound names when they have one skeleton, whatever binders are around
them. -/
theorem skeleton_inj : t.skeleton xs = u.skeleton xs ↔ t.alpha u = true := by
  have hnil : t.skeleton [] = u.skeleton [] ↔ t.alpha u = true :=
    Nameless.skeleton_inj.trans alpha_iff.symm
  refine Iff.trans ⟨fun h => ?_, fun h => ?_⟩ hnil
  · have hback (t : Term) : t.skeleton [] = (t.skeleton xs).replace fun
        | .bound i => .var (xs[i]?.elim (.bound i) .free)
        | v => .var v := by
      refine skeleton_eq_replace fun x _ => ?_
      unfold locate
      cases hx : xs.idxOf? x with
      | none => rfl
      | some i =>
        obtain ⟨hi, hxi, -⟩ := List.idxOf?_eq_some_iff.1 hx
        simp [hi, hxi]
    rw [hback t, hback u, h]
  · rw [skeleton_eq_locating, h, ← skeleton_eq_locating]

def replacing (xs : List Name) (m : Index Name Term) : Variable → Skeleton
  | .free x => ((m.find? x).map (skeleton xs)).getD (.var (locate xs x))
  | v => .var v

theorem skeleton_subst_nameless {n : Nameless} {m : Index Name Term} :
    (n.subst fun x => (m.find? x).map nameless).skeleton = n.skeleton.replace (replacing [] m) := by
  have hunder : under (replacing [] m) = replacing [] m := by
    refine funext fun v => ?_
    match v with
    | .bound 0 => rfl
    | .bound (i + 1) => rfl
    | .free x =>
      show ((replacing [] m) (.free x)).rename up = _
      dsimp only [replacing]
      cases m.find? x with
      | none => rfl
      | some r => exact rename_skeleton_nil
  have each {ts : List Nameless}
      (ih : ∀ t ∈ ts, (t.subst fun x => (m.find? x).map nameless).skeleton =
        t.skeleton.replace (replacing [] m)) :
      Nameless.skeletons (Nameless.substAll (fun x => (m.find? x).map nameless) ts) =
        replaceAll (replacing [] m) (Nameless.skeletons ts) := by
    rw [Nameless.substAll_eq_map, Nameless.skeletons_eq_map, Nameless.skeletons_eq_map,
      replaceAll_eq_map, List.map_map, List.map_map]
    exact List.map_congr_left ih
  induction n with
  | bound i => rfl
  | free x =>
    rw [Nameless.subst, Nameless.skeleton, replace, replacing]
    cases m.find? x <;> rfl
  | app f a ihf iha => simp only [Nameless.subst, Nameless.skeleton, replace, replaceAll, ihf, iha]
  | lam dom b ih => rw [Nameless.subst, Nameless.skeleton, Nameless.skeleton, replace, hunder, ih]
  | ann t ty ih => simp only [Nameless.subst, Nameless.skeleton, replace, replaceAll, ih]
  | ctor c args ih => rw [Nameless.subst, Nameless.skeleton, Nameless.skeleton, replace, each ih]
  | elim e s args ihs ih =>
    rw [Nameless.subst, Nameless.skeleton, Nameless.skeleton, replace, replaceAll, ihs, each ih]
  | lit l => rfl
  | prim op args ih => rw [Nameless.subst, Nameless.skeleton, Nameless.skeleton, replace, each ih]
  | tuple elems ih => rw [Nameless.subst, Nameless.skeleton, Nameless.skeleton, replace, each ih]
  | proj t i ih => simp only [Nameless.subst, Nameless.skeleton, replace, replaceAll, ih]

theorem skeleton_subst (t : Term) (m : Index Name Term) :
    (t.subst m).skeleton xs = (t.skeleton []).replace (replacing xs m) := by
  have hnil : (t.subst m).skeleton [] = (t.skeleton []).replace (replacing [] m) :=
    (congrArg Nameless.skeleton (nameless_subst t m)).trans skeleton_subst_nameless
  rw [skeleton_eq_locating, hnil, replace_replace]
  congr 1
  refine funext fun v => ?_
  match v with
  | .bound i => rfl
  | .free x =>
    dsimp only [replacing]
    cases m.find? x with
    | none => rfl
    | some r => exact skeleton_eq_locating.symm

theorem skeleton_instantiate {a : Term} :
    (b.instantiate x a).skeleton xs = (b.skeleton (x :: xs)).instantiate (a.skeleton xs) := by
  rw [instantiate, skeleton_subst, Skeleton.instantiate]
  refine replace_skeleton_congr fun y _ => ?_
  rw [locate_cons]
  show ((Index.ofList [(x, a)]).find? y |>.map (skeleton xs)).getD _ = _
  rw [find?_ofList_singleton]
  by_cases h : x = y
  · rw [if_pos h, if_pos h, Option.map_some, Option.getD_some, push_bound]
  · rw [if_neg h, if_neg h, Option.map_none, Option.getD_none, push_up]

end Term

end ClosedTypes
