import ClosedTypes.Proofs.Reduction.Normalization
import ClosedTypes.Proofs.Term.Subterms
/-!
What normalization leaves behind. It normalizes the parts of a head normal form and then looks again
for folds, but for no other redex, so that one may be left where a part took a form that it did not
have when the head was evaluated.
-/

namespace ClosedTypes

namespace Rules

variable {rules : Rules} {n : Nat} {t u s : Term} {ts us : List Term}

/-- A redex at which a part that has to be evaluated first is of the form that the rule asks for. -/
inductive Exposed (rules : Rules) : Term → Prop where
  | beta {x : Name} {dom : Option Ty} {b a : Term} : Exposed rules (.app (.lam x dom b) a)
  | projection {elems : List Term} {i : UInt64} : i.toNat < elems.length →
    Exposed rules (.proj (.tuple elems) i)
  | branch {c : Bool} {t e : Term} : Exposed rules (.prim .ite [.bool c, t, e])
  | equation {e c : Name} {fields args : List Term} {d : Equation} :
    rules.implementation? e = none → rules.context.equation? e c = some d →
      Exposed rules (.elim e (.ctor c fields) args)

theorem Exposed.contracts (h : rules.Exposed t) : ∃ u, rules.Contracts t u := by
  cases h with
  | beta => exact ⟨_, .beta⟩
  | projection hi => exact ⟨_, .projection (List.getElem?_eq_getElem hi)⟩
  | branch => exact ⟨_, .branch⟩
  | equation _ hd => exact ⟨_, .equation hd⟩

theorem Normalizes.exposed_of_contracts (h : rules.Normalizes t u) :
    ∀ s ∈ u.subterms, ∀ v, rules.Contracts s v → rules.Exposed s := by
  have below {as bs : List Term} (hlen : as.length = bs.length)
      (ih : ∀ p ∈ as.zip bs, ∀ s ∈ p.2.subterms, ∀ v, rules.Contracts s v → rules.Exposed s) :
      ∀ s ∈ Term.subtermsAll bs, ∀ v, rules.Contracts s v → rules.Exposed s :=
    Term.forall_mem_subtermsAll.2 (forall_of_forall_zip hlen ih)
  induction h with
  | step _ _ ih => exact ih
  | var => exact List.forall_mem_singleton.2 nofun
  | lit => exact List.forall_mem_singleton.2 nofun
  | lam _ ih => exact List.forall_mem_cons.2 ⟨nofun, ih⟩
  | app _ _ ihf iha =>
    refine List.forall_mem_cons.2 ⟨fun v hv => ?_, List.forall_mem_append.2 ⟨ihf, iha⟩⟩
    cases hv with
    | beta => exact .beta
  | ctor hc hlen _ ih =>
    refine List.forall_mem_cons.2 ⟨fun v hv => ?_, below hlen ih⟩
    cases hv with
    | constructor hbody =>
      rw [hc] at hbody
      cases hbody
  | elim he _ hlen _ ihs ih =>
    refine List.forall_mem_cons.2 ⟨fun v hv => ?_, List.forall_mem_append.2 ⟨ihs, below hlen ih⟩⟩
    cases hv with
    | equation hd => exact .equation he hd
    | eliminator hbody =>
      rw [he] at hbody
      cases hbody
  | tuple hlen _ ih => exact List.forall_mem_cons.2 ⟨nofun, below hlen ih⟩
  | proj _ ih =>
    refine List.forall_mem_cons.2 ⟨fun v hv => ?_, ih⟩
    cases hv with
    | projection hi => exact .projection (List.getElem?_eq_some_iff.1 hi).1
  | prim hlen _ hfold ih =>
    refine List.forall_mem_cons.2 ⟨fun v hv => ?_, below hlen ih⟩
    cases hv with
    | branch => exact .branch
    | fold hv =>
      rw [hfold] at hv
      cases hv
  | fold _ _ _ _ _ ih => exact ih

theorem Stuck.not_contracts (h : rules.Stuck t) : ¬rules.Contracts t u := by
  intro hu
  cases hu with
  | beta =>
    cases h with
    | app _ hbeta => cases hbeta
  | erasure => cases h
  | projection hi =>
    cases h with
    | proj _ hcomponent =>
      rw [Term.component?, hi] at hcomponent
      cases hcomponent
  | branch =>
    cases h with
    | ite _ hbranch => cases hbranch
    | prim hbranching _ _ => exact hbranching ⟨rfl, _, _, _, rfl⟩
  | equation hd =>
    cases h with
    | elim _ _ hcontract =>
      rw [contract?, hd] at hcontract
      cases hcontract
  | fold hfold =>
    cases h with
    | ite _ _ => cases hfold
    | prim _ _ hnone =>
      rw [hnone] at hfold
      cases hfold
  | constructor hbody =>
    cases h with
    | ctor hc =>
      rw [hc] at hbody
      cases hbody
  | eliminator hbody =>
    cases h with
    | elim he _ _ =>
      rw [he] at hbody
      cases hbody

theorem moved_self : moved n n t = none := if_pos rfl

theorem whnf_of_step (h : (rules.step n t).1 = some (none, n)) : (rules.whnf n t).1 = some (t, n) :=
  whnf_eq_some_iff.2 (.inl ⟨h, rfl⟩)

theorem step_of_stuck (h : rules.Stuck t) : (rules.step n t).1 = some (none, n) := by
  induction h with
  | var => exact step_var
  | lit => exact step_lit
  | lam => exact step_lam
  | tuple => exact step_tuple
  | ctor hc => rw [step_ctor, hc]; rfl
  | app _ hbeta ih => simp [step_app, whnf_of_step ih, hbeta, moved_self]
  | elim he _ hcontract ih => simp [step_elim he, whnf_of_step ih, hcontract, moved_self]
  | proj _ hcomponent ih => simp [step_proj, whnf_of_step ih, hcomponent, moved_self]
  | ite _ hbranch ih => simp [step_ite, whnf_of_step ih, hbranch, moved_self]
  | @prim op args hbranching _ hfold ih =>
    have heach (ts : List Term) (h : ∀ a ∈ ts, (rules.step n a).1 = some (none, n)) :
        (rules.whnfEach n ts).1 = some (ts, n) := by
      induction ts with
      | nil => exact whnfEach_nil
      | cons t ts ihs =>
        obtain ⟨ht, hts⟩ := List.forall_mem_cons.1 h
        simp [whnfEach_cons, whnf_of_step ht, ihs hts]
    simp [step_prim hbranching, heach args ih, hfold, moved_self]

theorem whnf_of_stuck (h : rules.Stuck t) : (rules.whnf n t).1 = some (t, n) :=
  whnf_of_step (step_of_stuck h)

def Irreducible (rules : Rules) (t : Term) : Prop := ∀ s ∈ t.subterms, ∀ u, ¬rules.Contracts s u

theorem eq_none_of_contracts {α : Type} {o : Option α} {g : α → Term}
    (h : ∀ u, ¬rules.Contracts t u) (ho : ∀ v, o = some v → rules.Contracts t (g v)) : o = none :=
  Option.eq_none_iff_forall_ne_some.2 fun v hv => h _ (ho v hv)

theorem stuck_of_irreducible (h : rules.Irreducible t) : rules.Stuck t := by
  induction t with
  | var x => exact .var
  | lit l => exact .lit
  | lam x dom b => exact .lam
  | tuple elems => exact .tuple
  | ann t ty => exact absurd .erasure (h _ List.mem_cons_self t)
  | ctor c args =>
    obtain ⟨hhere, -⟩ := List.forall_mem_cons.1 h
    exact .ctor (eq_none_of_contracts hhere fun _ => .constructor)
  | app f a ihf _ =>
    obtain ⟨hhere, hparts⟩ := List.forall_mem_cons.1 h
    exact .app (ihf (List.forall_mem_append.1 hparts).1)
      (eq_none_of_contracts hhere fun _ => contracts_of_beta?)
  | elim e s args ihs _ =>
    obtain ⟨hhere, hparts⟩ := List.forall_mem_cons.1 h
    exact .elim (eq_none_of_contracts hhere fun _ => .eliminator)
      (ihs (List.forall_mem_append.1 hparts).1)
      (eq_none_of_contracts hhere fun _ => contracts_of_contract?)
  | proj t i ih =>
    obtain ⟨hhere, hparts⟩ := List.forall_mem_cons.1 h
    exact .proj (ih hparts) (eq_none_of_contracts hhere fun _ => contracts_of_component?)
  | prim op args ih =>
    obtain ⟨hhere, hparts⟩ := List.forall_mem_cons.1 h
    have hargs := Term.forall_mem_subtermsAll.1 hparts
    by_cases hb : IsBranching op args
    · obtain ⟨rfl, c, t, e, rfl⟩ := hb
      exact .ite (ih c List.mem_cons_self (hargs c List.mem_cons_self))
        (eq_none_of_contracts hhere fun _ => contracts_of_branch?)
    · exact .prim hb (fun a ha => ih a ha (hargs a ha)) (eq_none_of_contracts hhere fun _ => .fold)

theorem normalizeEach_of_forall (h : ∀ t ∈ ts, (rules.normalize n t).1 = some (t, n)) :
    (rules.normalizeEach n ts).1 = some (ts, n) := by
  induction ts with
  | nil => exact normalizeEach_nil
  | cons t ts ih =>
    obtain ⟨ht, hts⟩ := List.forall_mem_cons.1 h
    simp [normalizeEach_cons, ht, ih hts]

theorem normalize_of_stuck (h : rules.Stuck t) : (rules.normalize n t).1 = rules.rebuild n t := by
  rw [normalize_eq_bind, whnf_of_stuck h, Option.bind_some]

theorem normalize_of_irreducible (h : rules.Irreducible t) :
    (rules.normalize n t).1 = some (t, n) := by
  rw [normalize_of_stuck (stuck_of_irreducible h)]
  have parts {ts : List Term} (hts : ∀ s ∈ Term.subtermsAll ts, ∀ u, ¬rules.Contracts s u)
      (ih : ∀ t ∈ ts, rules.Irreducible t → rules.rebuild n t = some (t, n)) :
          (rules.normalizeEach n ts).1 = some (ts, n) :=
    normalizeEach_of_forall fun t ht => by
      have htirr : rules.Irreducible t := Term.forall_mem_subtermsAll.1 hts t ht
      rw [normalize_of_stuck (stuck_of_irreducible htirr), ih t ht htirr]
  have part {t : Term} (ht : rules.Irreducible t)
      (ih : rules.Irreducible t → rules.rebuild n t = some (t, n)) :
      (rules.normalize n t).1 = some (t, n) := by
    rw [normalize_of_stuck (stuck_of_irreducible ht), ih ht]
  induction t with
  | var x => rfl
  | lit l => rfl
  | ann t ty => exact absurd .erasure (h _ List.mem_cons_self t)
  | lam x dom b ih =>
    obtain ⟨-, hb⟩ := List.forall_mem_cons.1 h
    simp [rebuild, part hb ih]
  | app f a ihf iha =>
    obtain ⟨-, hparts⟩ := List.forall_mem_cons.1 h
    obtain ⟨hf, ha⟩ := List.forall_mem_append.1 hparts
    simp [rebuild, part hf ihf, part ha iha]
  | ctor c args ih =>
    obtain ⟨-, hargs⟩ := List.forall_mem_cons.1 h
    simp [rebuild, parts hargs ih]
  | elim e s args ihs ih =>
    obtain ⟨-, hparts⟩ := List.forall_mem_cons.1 h
    obtain ⟨hs, hargs⟩ := List.forall_mem_append.1 hparts
    simp [rebuild, part hs ihs, parts hargs ih]
  | tuple elems ih =>
    obtain ⟨-, helems⟩ := List.forall_mem_cons.1 h
    simp [rebuild, parts helems ih]
  | proj t i ih =>
    obtain ⟨-, ht⟩ := List.forall_mem_cons.1 h
    simp [rebuild, part ht ih]
  | prim op args ih =>
    obtain ⟨hhere, hargs⟩ := List.forall_mem_cons.1 h
    have hfold : fold op args = none := eq_none_of_contracts hhere fun _ => .fold
    simp [rebuild, parts hargs ih, hfold]

theorem rebuild_of_normalize_zero {r : Term × Nat} (h : (rules.normalize 0 t).1 = some r) :
    rules.Stuck t ∧ rules.rebuild 0 t = some r := by
  rw [normalize_eq_bind, Option.bind_eq_some_iff] at h
  obtain ⟨⟨w, k⟩, hw, h⟩ := h
  obtain ⟨hle, heq⟩ := (rules.whnf 0 t).2 _ _ hw
  cases Nat.le_zero.1 hle
  obtain rfl := heq rfl
  exact ⟨stuck_of_whnf hw, h⟩

theorem forall_of_normalizeEach_zero {rs : List Term × Nat}
    (h : (rules.normalizeEach 0 ts).1 = some rs) :
    ∀ t ∈ ts, ∃ r, (rules.normalize 0 t).1 = some r := by
  induction ts generalizing rs with
  | nil => nofun
  | cons t ts ih =>
    rw [normalizeEach_cons, Option.bind_eq_some_iff] at h
    obtain ⟨⟨t', k⟩, ht, h⟩ := h
    obtain ⟨q, hts, -⟩ := Option.map_eq_some_iff.1 h
    cases Nat.le_zero.1 ((rules.normalize 0 t).2 _ _ ht).1
    exact List.forall_mem_cons.2 ⟨⟨_, ht⟩, ih hts⟩

theorem irreducible_of_normalize_zero {r : Term × Nat} (h : (rules.normalize 0 t).1 = some r) :
    rules.Irreducible t := by
  have parts {ts : List Term} {rs : List Term × Nat} (h : (rules.normalizeEach 0 ts).1 = some rs)
      (ih : ∀ t ∈ ts, ∀ {r}, (rules.normalize 0 t).1 = some r → rules.Irreducible t) :
      ∀ s ∈ Term.subtermsAll ts, ∀ u, ¬rules.Contracts s u :=
    Term.forall_mem_subtermsAll.2 fun t ht => by
      obtain ⟨r, hr⟩ := forall_of_normalizeEach_zero h t ht
      exact ih t ht hr
  induction t generalizing r with
  | var x => exact List.forall_mem_singleton.2 nofun
  | lit l => exact List.forall_mem_singleton.2 nofun
  | ann t ty => cases (rebuild_of_normalize_zero h).1
  | lam x dom b ih =>
    obtain ⟨q, hb, -⟩ := Option.map_eq_some_iff.1 (rebuild_of_normalize_zero h).2
    exact List.forall_mem_cons.2 ⟨nofun, ih hb⟩
  | app f a ihf iha =>
    obtain ⟨hstuck, h⟩ := rebuild_of_normalize_zero h
    obtain ⟨⟨f', k⟩, hf, h⟩ := Option.bind_eq_some_iff.1 h
    obtain ⟨q, ha, -⟩ := Option.map_eq_some_iff.1 h
    cases Nat.le_zero.1 ((rules.normalize 0 f).2 _ _ hf).1
    exact List.forall_mem_cons.2 ⟨fun _ => hstuck.not_contracts,
      List.forall_mem_append.2 ⟨ihf hf, iha ha⟩⟩
  | ctor c args ih =>
    obtain ⟨hstuck, h⟩ := rebuild_of_normalize_zero h
    obtain ⟨q, hargs, -⟩ := Option.map_eq_some_iff.1 h
    exact List.forall_mem_cons.2 ⟨fun _ => hstuck.not_contracts, parts hargs ih⟩
  | elim e s args ihs ih =>
    obtain ⟨hstuck, h⟩ := rebuild_of_normalize_zero h
    obtain ⟨⟨s', k⟩, hs, h⟩ := Option.bind_eq_some_iff.1 h
    obtain ⟨q, hargs, -⟩ := Option.map_eq_some_iff.1 h
    cases Nat.le_zero.1 ((rules.normalize 0 s).2 _ _ hs).1
    exact List.forall_mem_cons.2 ⟨fun _ => hstuck.not_contracts,
      List.forall_mem_append.2 ⟨ihs hs, parts hargs ih⟩⟩
  | tuple elems ih =>
    obtain ⟨q, helems, -⟩ := Option.map_eq_some_iff.1 (rebuild_of_normalize_zero h).2
    exact List.forall_mem_cons.2 ⟨nofun, parts helems ih⟩
  | proj t i ih =>
    obtain ⟨hstuck, h⟩ := rebuild_of_normalize_zero h
    obtain ⟨q, ht, -⟩ := Option.map_eq_some_iff.1 h
    exact List.forall_mem_cons.2 ⟨fun _ => hstuck.not_contracts, ih ht⟩
  | prim op args ih =>
    obtain ⟨hstuck, h⟩ := rebuild_of_normalize_zero h
    obtain ⟨q, hargs, -⟩ := Option.bind_eq_some_iff.1 h
    exact List.forall_mem_cons.2 ⟨fun _ => hstuck.not_contracts, parts hargs ih⟩

end Rules

namespace Evaluator

variable {α : Type} {question : Rules → Nat → Option (α × Nat)} {r q : Evaluator} {a : α}
  {t u : Term}

theorem ask_eq_ok_self_iff :
    r.ask question = (.ok a, r) ↔ question r.rules r.remaining = some (a, r.remaining) := by
  obtain ⟨rules, limit, remaining⟩ := r
  unfold ask
  dsimp only
  rcases question rules remaining with _ | ⟨b, m⟩ <;> simp

/-- A normal form holds no redex but exposed ones; it is normalized again at no cost, whatever
the budget, just when there are none. -/
theorem exposed_of_normalize (h : (r.normalize t).1 = .ok u) :
    (∀ s ∈ u.subterms, ∀ v, r.rules.Contracts s v → r.rules.Exposed s) ∧
      ((∀ q : Evaluator, q.rules = r.rules → q.normalize u = (.ok u, q)) ↔
        ∀ s ∈ u.subterms, ¬r.rules.Exposed s) := by
  have hcontracts := (normalizes_of_normalize h).exposed_of_contracts
  refine ⟨hcontracts, fun hagain s hs hexposed => ?_, fun hnone q hq => ?_⟩
  · have hfree := ask_eq_ok_self_iff.1 (hagain ⟨r.rules, 0, 0⟩ rfl)
    obtain ⟨v, hv⟩ := hexposed.contracts
    exact Rules.irreducible_of_normalize_zero hfree s hs v hv
  · refine ask_eq_ok_self_iff.2 (Rules.normalize_of_irreducible ?_)
    rw [hq]
    exact fun s hs v hv => hnone s hs (hcontracts s hs v hv)

def choice : Term :=
  .lam "f" none
    (.prim .ite
      [.prim .eq [.app (.var "f") (.prim .add [.int 1, .int 1]), .app (.var "f") (.int 2)],
        .int 1, .int 0])

def exposedChoice : Term := .lam "f" none (.prim .ite [.bool true, .int 1, .int 0])

theorem choice_exposes :
    ((start .empty 10).normalize choice).1 = .ok exposedChoice ∧
      ((start .empty 0).normalize exposedChoice).1 = .error (.outOfFuel 0) ∧
      ((start .empty 10).normalize exposedChoice).1 = .ok (.lam "f" none (.int 1)) := by
  refine ⟨by cbv, by cbv, by cbv⟩

theorem choice_not_normal_again : ((start .empty 10).normalize choice).1 = .ok exposedChoice ∧
    ¬∀ q : Evaluator, q.rules = .ofContext .empty →
    q.normalize exposedChoice = (.ok exposedChoice, q) := by
  have h : ((start .empty 10).normalize choice).1 = .ok exposedChoice := by cbv
  have hmem : Term.prim .ite [.bool true, .int 1, .int 0] ∈ exposedChoice.subterms :=
    List.mem_cons_of_mem _ (Term.mem_subterms_self _)
  exact ⟨h, fun hagain => (exposed_of_normalize h).2.1 hagain _ hmem .branch⟩

end Evaluator

end ClosedTypes
