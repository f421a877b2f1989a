import IndexedTyping.Proofs.Check.Later
import IndexedTyping.Proofs.Check.Reachable

namespace IndexedTyping

namespace Term

def outer : Term → List Term
  | var x l => [var x l]
  | lit v => [lit v]
  | lam x b => [lam x b]
  | app f a => f.outer ++ a.outer ++ [app f a]
  | recur f x b => [recur f x b]

def adjoin (es : List Term) (e : Term) : List Term := if es.any e.same then es else e :: es

theorem mem_of_mem_adjoin {es : List Term} {e f : Term} (h : f ∈ adjoin es e) : f ∈ es ∨ f = e := by
  rw [adjoin] at h
  split at h
  · exact .inl h
  · exact (List.mem_cons.mp h).symm

theorem subset_adjoin (es : List Term) (e : Term) : es ⊆ adjoin es e := by
  rw [adjoin]
  split
  · exact List.Subset.refl _
  · exact List.subset_cons_self _ _

theorem exists_same_adjoin (es : List Term) (e : Term) : ∃ f ∈ adjoin es e, e.same f = true := by
  rw [adjoin]
  split
  · next h => exact List.any_eq_true.mp h
  · exact ⟨e, List.mem_cons_self, same_iff.mpr rfl⟩

theorem mem_of_mem_foldl_adjoin {fs es : List Term} {f : Term} (h : f ∈ fs.foldl adjoin es) : f ∈ es ∨ f ∈ fs := by
  induction fs generalizing es with
  | nil => exact .inl h
  | cons e fs ih =>
    rcases ih h with hf | hf
    · rcases mem_of_mem_adjoin hf with hf | rfl
      · exact .inl hf
      · exact .inr List.mem_cons_self
    · exact .inr (List.mem_cons_of_mem e hf)

theorem subset_foldl_adjoin (fs es : List Term) : es ⊆ fs.foldl adjoin es := by
  induction fs generalizing es with
  | nil => exact List.Subset.refl _
  | cons e fs ih => exact List.Subset.trans (subset_adjoin es e) (ih _)

theorem exists_same_foldl_adjoin {fs : List Term} (es : List Term) {f : Term} (h : f ∈ fs) :
    ∃ g ∈ fs.foldl adjoin es, f.same g = true := by
  induction fs generalizing es with
  | nil => cases h
  | cons e fs ih =>
    rcases List.mem_cons.mp h with rfl | h
    · obtain ⟨g, hg, hsame⟩ := exists_same_adjoin es f
      exact ⟨g, subset_foldl_adjoin fs _ hg, hsame⟩
    · exact ih _ h

end Term

namespace Context

def terms (c : Context) : List Term := c.judgments.map (·.term)

theorem any_terms_eq_isSome (c : Context) (e : Term) : c.terms.any e.same = (c.judgment? e).isSome := by
  rw [terms, judgment?, List.any_map, List.isSome_find?]
  rfl

theorem judgment?_eq_none {c : Context} {e : Term} :
    c.judgment? e = none ↔ ∀ j ∈ c.judgments, e.same j.term = false := by
  simp [judgment?]

end Context

namespace CheckM

open Term Context

variable {α β : Type} {es fs : List Term} {m : CheckM α}

def Adds (es : List Term) (m : CheckM α) : Prop :=
  ∀ c, Ends (m c) (fun _ d => d.terms = es.foldl adjoin c.terms) fun _ _ => True

namespace Adds

theorem of_ok (hm : Adds es m) {c d : Context} {a : α} (h : m c = .ok a d) : d.terms = es.foldl adjoin c.terms := by
  have hd := hm c
  rwa [h] at hd

theorem bind {k : α → CheckM β} (hm : Adds es m) (hk : ∀ a, Adds fs (k a)) : Adds (es ++ fs) (m >>= k) := by
  intro c
  rw [ends_bind]
  refine (hm c).mono (fun a d hd => ?_) fun _ _ h => h
  refine (hk a d).mono (fun _ _ h => ?_) fun _ _ h => h
  rw [h, hd, List.foldl_append]

theorem andThen {k : α → CheckM β} (hm : Adds es m) (hk : ∀ a, Adds [] (k a)) : Adds es (m >>= k) := by
  simpa using hm.bind hk

theorem of_frame {E : Context → CheckError → Prop}
    (hm : Obeys (fun c d => d = { c with store := d.store, trace := d.trace }) E m) : Adds [] m := by
  refine fun c => (hm c).mono (fun _ d hd => ?_) fun _ _ _ => trivial
  rw [hd]
  rfl

theorem withScope (hm : Obeys Later (fun _ _ => True) m) (label : String) (binders : List String) :
    Adds [] (withScope label binders m) := by
  intro c
  have hlater := hm (c.openScope label binders)
  rw [withScope_run]
  cases hr : m (c.openScope label binders) with
  | error e d => trivial
  | ok a d =>
    rw [hr] at hlater
    change d.closeScope.terms = c.terms
    rw [hlater.closeScope]
    rfl

end Adds

theorem adds_pure (a : α) : Adds [] (pure a) := fun _ => rfl

theorem adds_emit (phase message : String) : Adds [] (emit phase message) := fun _ => rfl

theorem adds_enter (phase message : String) : Adds [] (enter phase message) := fun _ => rfl

theorem adds_leave (phase message : String) : Adds [] (leave phase message) := fun _ => rfl

theorem adds_newUnknown : Adds [] newUnknown := fun _ => rfl

theorem adds_typeOf (e : Term) : Adds [] (typeOf e) := .of_frame (frame_law.obeys_typeOf e)

theorem adds_bindUnknown (x : String) (t : OpenTy) : Adds [] (bindUnknown x t) :=
  .of_frame (frame_law.obeys_bindUnknown x t)

theorem adds_unify (a b : OpenTy) : Adds [] (unify a b) := .of_frame (frame_law.obeys_unify a b)

theorem adds_resolveTy (t : Ty) : Adds [] (resolveTy t) := by
  intro c
  rw [resolveTy_run]
  cases c.store.resolveTy t with
  | ok a => rfl
  | error e => trivial

theorem adds_declare (e : Term) (t : OpenTy) : Adds [e] (declare e t) := by
  intro c
  have hany := c.any_terms_eq_isSome e
  rw [declare_run]
  cases c.store.resolve t with
  | error err => trivial
  | ok a =>
    dsimp only
    cases hj : c.judgment? e with
    | some j =>
      refine (adds_unify a j.type _).mono (fun _ d hd => ?_) fun _ _ h => h
      rw [hd, List.foldl_cons, adjoin, if_pos (by rw [hany, hj]; rfl)]
      rfl
    | none =>
      change e :: c.terms = adjoin c.terms e
      rw [adjoin, if_neg (by rw [hany, hj]; simp)]

theorem adds_judged (e : Term) {m : CheckM Unit} (hm : Adds es m) : Adds es (judged e m) :=
  (adds_enter _ _).bind fun _ => hm.andThen fun _ => (adds_typeOf e).bind fun t => (adds_leave _ _).bind fun _ =>
    adds_pure t

theorem adds_checkVar (x : String) (l : Option Location) : Adds [.var x l] (checkVar x l) := by
  have hdeclare : Adds [.var x l] (do declare (.var x l) (← newUnknown)) :=
    adds_newUnknown.bind fun a => adds_declare _ a
  refine adds_judged _ fun c => ?_
  change Ends ((if c.binds x then (do declare (.var x l) (← newUnknown))
    else (do let _ ← typeOf (.var x l); declare (.var x l) (← newUnknown)) : CheckM Unit) c) _ _
  split
  · exact hdeclare c
  · exact (adds_typeOf _).bind (fun _ => hdeclare) c

theorem adds_checkTerm (e : Term) : Adds e.outer (checkTerm e) := by
  induction e with
  | var x l => exact adds_checkVar x l
  | lit v => exact adds_judged _ (adds_declare _ _)
  | lam x b => exact adds_judged _ ((Adds.withScope (later_body x b) _ _).bind fun _ => adds_declare _ _)
  | app f a ihf iha =>
    rw [outer, List.append_assoc]
    exact adds_judged _ (ihf.bind fun _ => iha.bind fun _ => adds_newUnknown.bind fun _ =>
      (adds_unify _ _).bind fun _ => adds_declare _ _)
  | recur f x b =>
    exact adds_judged _ ((Adds.withScope (later_recBody f x b) _ _).bind fun _ => (adds_unify _ _).bind fun _ =>
      adds_declare _ _)

end CheckM

def Judgment.Distinct (js : List Judgment) : Prop := js.Pairwise fun i j => i.term.same j.term = false

theorem Judgment.Distinct.filter_eq {js : List Judgment} (h : Distinct js) (e : Term) :
    js.filter (fun j => e.same j.term) = (js.find? fun j => e.same j.term).toList := by
  induction js with
  | nil => rfl
  | cons i js ih =>
    obtain ⟨hi, hjs⟩ := List.pairwise_cons.mp h
    rw [List.filter_cons, List.find?_cons]
    cases he : e.same i.term with
    | false => exact ih hjs
    | true =>
      have hrest : js.filter (fun j => e.same j.term) = [] := by
        refine List.filter_eq_nil_iff.mpr fun j hj hej => ?_
        have hij : i.term.same j.term = true :=
          Term.same_iff.mpr ((Term.same_iff.mp he).symm.trans (Term.same_iff.mp hej))
        rw [hi j hj] at hij
        cases hij
      rw [hrest]
      rfl

/-- Judges `e` as `declare` does, but goes through all judgments on `e` there might be. -/
def CheckM.declareEach (e : Term) (t : OpenTy) : CheckM Unit := do
  let t ← resolve t
  emit "Declare" (e.render ++ " : " ++ t.render)
  let earlier := (← get).judgments.filter fun j => e.same j.term
  earlier.forM fun j => unify t j.type
  if earlier.isEmpty then
    modify fun c => { c with judgments := ⟨e, t⟩ :: c.judgments }

namespace Context

structure Extends (c d : Context) : Prop extends Later c d where
  older : c.judgments <:+ d.judgments

theorem Extends.law : Law Extends fun _ _ => True where
  refl c := ⟨Later.law.refl c, List.suffix_rfl⟩
  trans hcd hde := ⟨Later.law.trans hcd.toLater hde.toLater, hcd.older.trans hde.older⟩
  back _ _ := trivial
  trace c t := ⟨Later.law.trace c t, List.suffix_rfl⟩
  bind hb hs := ⟨Later.law.bind hb hs, List.suffix_rfl⟩
  plain _ := trivial
  resolveError _ := trivial
  bindError _ := trivial
  insertError _ := trivial
  count c := ⟨Later.law.count c, List.suffix_rfl⟩
  judge hj ht := ⟨Later.law.judge hj ht, List.suffix_cons _ _⟩
  scope {c d label binders} h := by
    have hjudgments : d.closeScope.judgments = c.judgments := by rw [h.closeScope]
    exact ⟨Later.law.scope h.toLater, hjudgments ▸ List.suffix_rfl⟩
  scopeError _ := trivial
  resolveTyError _ := trivial

structure Distinct (c : Context) : Prop where
  judgments : Judgment.Distinct c.judgments
  scopes : ∀ s ∈ c.scopes, Judgment.Distinct s.judgments

namespace Distinct

variable {c : Context}

theorem openScope (h : c.Distinct) (label : String) (binders : List String) : (c.openScope label binders).Distinct :=
  ⟨h.judgments, List.forall_mem_cons.mpr ⟨h.judgments, h.scopes⟩⟩

theorem closeScope (h : c.Distinct) : c.closeScope.Distinct := by
  obtain ⟨options, trace, counter, store, judgments, scopes⟩ := c
  cases scopes with
  | nil => exact h
  | cons s outer =>
    obtain ⟨hs, houter⟩ := List.forall_mem_cons.mp h.scopes
    exact ⟨hs, houter⟩

theorem judge (h : c.Distinct) {e : Term} (hj : c.judgment? e = none) (a : OpenTy) :
    Distinct { c with judgments := ⟨e, a⟩ :: c.judgments } :=
  ⟨List.pairwise_cons.mpr ⟨judgment?_eq_none.mp hj, h.judgments⟩, h.scopes⟩

theorem law : Law (fun c d => c.Distinct → d.Distinct) fun _ _ => True where
  refl _ h := h
  trans hcd hde h := hde (hcd h)
  back _ _ := trivial
  trace _ _ h := ⟨h.judgments, h.scopes⟩
  bind _ _ h := ⟨h.judgments, h.scopes⟩
  plain _ := trivial
  resolveError _ := trivial
  bindError _ := trivial
  insertError _ := trivial
  count _ h := ⟨h.judgments, h.scopes⟩
  judge hj _ h := h.judge hj _
  scope hd h := (hd (h.openScope _ _)).closeScope
  scopeError _ := trivial
  resolveTyError _ := trivial

theorem of_reachable (h : Reachable c) : c.Distinct :=
  h.of_obeys (fun _ _ => ⟨.nil, by simp [Context.new]⟩)
    (law.obeys_run (fun _ label binders h => h.openScope label binders) fun _ h => h.closeScope)

theorem declare_eq_declareEach (hc : c.Distinct) (e : Term) (t : OpenTy) :
    CheckM.declare e t c = CheckM.declareEach e t c := by
  have hrun : CheckM.declareEach e t c = (CheckM.ofExcept (c.store.resolve t) >>= fun a => do
      CheckM.emit "Declare" (e.render ++ " : " ++ a.render)
      let earlier := (← get).judgments.filter fun j => e.same j.term
      earlier.forM fun j => CheckM.unify a j.type
      if earlier.isEmpty then modify fun d => { d with judgments := ⟨e, a⟩ :: d.judgments }) c := rfl
  rw [CheckM.declare_run, hrun]
  cases c.store.resolve t with
  | error err => rfl
  | ok a =>
    rw [CheckM.bind_ok (CheckM.ofExcept_ok a c)]
    change _ = (do
      (c.judgments.filter fun j => e.same j.term).forM fun j => CheckM.unify a j.type
      if (c.judgments.filter fun j => e.same j.term).isEmpty then
        modify fun d => { d with judgments := ⟨e, a⟩ :: d.judgments } : CheckM Unit) _
    rw [hc.judgments.filter_eq, ← judgment?]
    cases c.judgment? e with
    | none => rfl
    | some j =>
      change CheckM.unify a j.type _ =
        ((CheckM.unify a j.type >>= fun _ => pure ()) >>= fun _ => pure () : CheckM Unit) _
      simp only [bind_pure_unit]

theorem exists_new_of_checkTerm (hc : c.Distinct) {e : Term} {t : OpenTy} {d : Context}
    (h : CheckM.checkTerm e c = .ok t d) :
    ∃ new, d.judgments = new ++ c.judgments ∧ Judgment.Distinct new ∧
      (∀ j ∈ new, j.term ∈ e.outer ∧ c.judgment? j.term = none) ∧
      ∀ f ∈ e.outer, c.judgment? f = none → ∃ j ∈ new, f.same j.term = true := by
  obtain ⟨new, hnew⟩ := ((Extends.law.obeys_checkTerm e).of_ok h).older
  have hterms := (CheckM.adds_checkTerm e).of_ok h
  have hd : Judgment.Distinct d.judgments := ((law.obeys_checkTerm e).of_ok h hc).judgments
  rw [Judgment.Distinct, ← hnew, List.pairwise_append] at hd
  obtain ⟨hdistinct, -, hapart⟩ := hd
  refine ⟨new, hnew.symm, hdistinct, fun j hj => ⟨?_, judgment?_eq_none.mpr (hapart j hj)⟩, fun f hf hnone => ?_⟩
  · have hmem : j.term ∈ d.terms := List.mem_map_of_mem (hnew ▸ List.mem_append_left _ hj)
    rw [hterms] at hmem
    refine (Term.mem_of_mem_foldl_adjoin hmem).resolve_left fun hold => ?_
    obtain ⟨i, hi, heq⟩ := List.mem_map.mp hold
    have hself : j.term.same i.term = true := Term.same_iff.mpr (congrArg _ heq.symm)
    rw [hapart j hj i hi] at hself
    cases hself
  · obtain ⟨g, hg, hsame⟩ := Term.exists_same_foldl_adjoin c.terms hf
    rw [← hterms] at hg
    obtain ⟨j, hj, rfl⟩ := List.mem_map.mp hg
    rw [← hnew, List.mem_append] at hj
    refine ⟨j, hj.resolve_right fun hold => ?_, hsame⟩
    rw [judgment?_eq_none.mp hnone j hold] at hsame
    cases hsame

end Distinct

end Context

/-- In a reachable context every operation but the opening and closing of scopes, whether it succeeds or fails, adds
bindings at the end and judgments in front, and takes nothing back. No term is judged twice, so that declaring one
misses no judgment by looking at the first. Unification makes no judgments and no unknowns. Checking a term judges its
subterms outside of all binders that were not judged before. -/
theorem reachable_extends {c : Context} (hc : Reachable c) :
    (∀ op : Operation, op.isScope = false →
      let d := op.after c
      c.store <+: d.store ∧ c.judgments <:+ d.judgments ∧ d.scopes = c.scopes ∧ c.counter ≤ d.counter ∧
        Judgment.Distinct d.judgments) ∧
    (∀ e t, CheckM.declare e t c = CheckM.declareEach e t c) ∧
    (∀ a b, ∃ s t, (Operation.unify a b).after c = { c with store := s, trace := t }) ∧
    ∀ e t d, CheckM.checkTerm e c = .ok t d → ∃ new, d.judgments = new ++ c.judgments ∧ Judgment.Distinct new ∧
      (∀ j ∈ new, j.term ∈ e.outer ∧ c.judgment? j.term = none) ∧
      ∀ f ∈ e.outer, c.judgment? f = none → ∃ j ∈ new, f.same j.term = true := by
  have hdistinct := Context.Distinct.of_reachable hc
  refine ⟨fun op hop => ?_, hdistinct.declare_eq_declareEach, fun a b => ?_,
    fun e t d h => hdistinct.exists_new_of_checkTerm h⟩
  · have hextends := Operation.after_of_obeys (Context.Extends.law.obeys_run_of_not_isScope hop) c
    have hafter := Operation.after_of_obeys (Context.Distinct.law.obeys_run_of_not_isScope hop) c hdistinct
    exact ⟨hextends.store, hextends.older, hextends.scopes, hextends.counter, hafter.judgments⟩
  · have hrun : CheckM.Obeys _ _ (Operation.unify a b).run := frame_law.obeys_unify a b
    exact ⟨_, _, Operation.after_of_obeys hrun c⟩

theorem reachable_extends_application :
    let c := (Operation.declare (.var "f" none) (.fn (.ground (.prim .nat)) (.ground (.prim .nat)))).after
      ((Operation.openScope "scope" ["x"]).after (.new {} (.new false)))
    let inner : Term := .app (.var "f" none) (.var "x" none)
    let e : Term := .app (.var "f" none) inner
    Reachable c ∧ c.terms = [.var "f" none] ∧ (Operation.checkTerm e).isScope = false ∧
      Judgment.Distinct ((Operation.checkTerm e).after c).judgments ∧
      ∃ t d new, CheckM.checkTerm e c = .ok t d ∧ d.judgments = new ++ c.judgments ∧
        ∃ j ∈ new, inner.same j.term = true := by
  intro c inner e
  have hc : Reachable c := .after _ (.after _ (.new _ _))
  obtain ⟨hop, -, -, hcheck⟩ := reachable_extends hc
  refine ⟨hc, by decide +kernel, rfl, (hop (.checkTerm e) rfl).2.2.2.2, ?_⟩
  obtain ⟨t, d, hrun⟩ : ∃ t d, CheckM.checkTerm e c = .ok t d := CheckM.exists_ok_of_isSome (by decide +kernel)
  obtain ⟨new, hnew, -, -, hall⟩ := hcheck e t d hrun
  exact ⟨t, d, new, hrun, hnew, hall inner (by decide) (by decide +kernel)⟩

end IndexedTyping
