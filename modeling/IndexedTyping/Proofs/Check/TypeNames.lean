import Mathlib.SetTheory.Cardinal.Arithmetic
import IndexedTyping.Proofs.Check.Later
import IndexedTyping.Proofs.Check.Lockstep
import IndexedTyping.Proofs.OpenTy.Names
import IndexedTyping.Proofs.Typing.Sound

namespace IndexedTyping

def Judgment.rename (ρ : String → String) (j : Judgment) : Judgment := ⟨j.term, j.type.rename ρ⟩

def Scope.rename (ρ : String → String) (s : Scope) : Scope :=
  { s with store := s.store.rename ρ, judgments := s.judgments.map (·.rename ρ) }

namespace Context

structure Renamed (ρ : String → String) (c d : Context) : Prop where
  rollback : c.options.rollback = false
  options : d.options = c.options
  counter : d.counter = c.counter
  store : d.store = c.store.rename ρ
  judgments : d.judgments = c.judgments.map (·.rename ρ)
  scopes : d.scopes = c.scopes.map (·.rename ρ)

namespace Renamed

variable {ρ : String → String} {c d : Context} (h : c.Renamed ρ d)
include h

theorem trace (t t' : Trace) : Renamed ρ { c with trace := t } { d with trace := t' } :=
  ⟨h.rollback, h.options, h.counter, h.store, h.judgments, h.scopes⟩

theorem judgment? (e : Term) : d.judgment? e = (c.judgment? e).map (·.rename ρ) := by
  rw [Context.judgment?, h.judgments, List.find?_map]
  rfl

theorem binds (x : String) : d.binds x = c.binds x := by
  rw [Context.binds, h.scopes, List.any_map]
  rfl

theorem openScope (label : String) (binders : List String) :
    Renamed ρ (c.openScope label binders) (d.openScope label binders) :=
  ⟨h.rollback, h.options, h.counter, h.store, h.judgments, by
    simp [Context.openScope, Scope.rename, h.scopes, h.store, h.judgments, h.counter]⟩

theorem closeScope : Renamed ρ c.closeScope d.closeScope := by
  have hscopes := h.scopes
  rw [Context.closeScope, Context.closeScope]
  cases hc : c.scopes with
  | nil => simpa [hscopes, hc] using h
  | cons s outer =>
    rw [hscopes, hc]
    refine ⟨h.rollback, h.options, ?_, rfl, rfl, rfl⟩
    simp [h.options, h.rollback, h.counter]

end Renamed

end Context

namespace CheckM

open Context

variable {α α' β β' : Type} {ρ : String → String} {N : Nat}

def Exceeds (N : Nat) (r : EStateM.Result CheckError Context α) : Prop :=
  Ends r (fun _ c => N < c.counter) fun _ c => N < c.counter

/-- In a renamed context `m'` does what `m` does, and `f` takes the result of `m` to that of `m'`, unless `m` makes more
than the first `N` unknowns. -/
structure Mirrors (ρ : String → String) (N : Nat) (f : α → α') (m : CheckM α) (m' : CheckM α') : Prop where
  later : Obeys Later (fun _ _ => True) m
  run {c d : Context} : c.Renamed ρ d → Both (fun a c' b d' => b = f a ∧ c'.Renamed ρ d') (m c) (m' d) ∨ Exceeds N (m c)

namespace Mirrors

variable {f : α → α'} {g : β → β'} {m : CheckM α} {m' : CheckM α'}

theorem bind {k : α → CheckM β} {k' : α' → CheckM β'} (hm : Mirrors ρ N f m m')
    (hk : ∀ a, Mirrors ρ N g (k a) (k' (f a))) : Mirrors ρ N g (m >>= k) (m' >>= k') where
  later := Later.law.obeys_bind hm.later fun a => (hk a).later
  run {c d} h := by
    rcases hm.run h with hboth | hexceeds
    · simp only [Bind.bind, EStateM.bind]
      revert hboth
      cases m c <;> cases m' d <;> intro hboth
      · obtain ⟨rfl, hcd⟩ := hboth
        exact (hk _).run hcd
      · exact False.elim hboth
      · exact False.elim hboth
      · exact .inl trivial
    · -- the counter only grows
      refine .inr (ends_bind.mpr (hexceeds.mono (fun a e he => ?_) fun _ _ he => he))
      exact ((hk a).later e).mono (fun _ _ hlater => he.trans_le hlater.counter) fun _ _ hlater =>
        he.trans_le hlater.1.counter

theorem pure (a : α) : Mirrors ρ N f (pure a) (pure (f a)) where
  later := Later.law.obeys_pure a
  run h := .inl ⟨rfl, h⟩

theorem throw {e : CheckError} (he : e.Plain) (e' : CheckError) : Mirrors ρ N f (throw e) (throw e') where
  later := Later.law.obeys_throw he
  run _ := .inl trivial

theorem get {k k' : Context → CheckM α} (hlater : ∀ c, Obeys Later (fun _ _ => True) (k c))
    (hk : ∀ c d, c.Renamed ρ d → Mirrors ρ N id (k c) (k' d)) : Mirrors ρ N id (get >>= k) (get >>= k') where
  later := Later.law.obeys_bind Later.law.obeys_get hlater
  run {c d} h := (hk c d h).run h

theorem withScope (label : String) (binders : List String) (hm : Mirrors ρ N f m m') :
    Mirrors ρ N f (withScope label binders m) (CheckM.withScope label binders m') where
  later := Later.law.obeys_withScope label binders hm.later
  run {c d} h := by
    have hlater := hm.later (c.openScope label binders)
    have hrun := hm.run (h.openScope label binders)
    rw [withScope_run, withScope_run]
    -- unknowns made in the scope are counted outside of it as well
    have hcounter {e : Context} (he : Later (c.openScope label binders) e) (hN : N < e.counter) :
        N < e.closeScope.counter := by
      rw [he.closeScope]
      simpa [h.rollback] using hN
    rcases hrun with hboth | hexceeds
    · revert hboth
      cases m (c.openScope label binders) <;> cases m' (d.openScope label binders) <;> intro hboth
      · exact .inl ⟨hboth.1, hboth.2.closeScope⟩
      · exact False.elim hboth
      · exact False.elim hboth
      · exact .inl trivial
    · right
      revert hlater hexceeds
      cases m (c.openScope label binders) with
      | ok a e => exact fun hlater hexceeds => hcounter hlater hexceeds
      | error err e => exact fun hlater hexceeds => hcounter hlater.1 hexceeds

end Mirrors

theorem mirrors_emit {phase message message' : String} : Mirrors ρ N id (emit phase message) (emit phase message') where
  later := Later.law.obeys_emit _ _
  run h := .inl ⟨rfl, h.trace _ _⟩

theorem mirrors_enter {phase message message' : String} :
    Mirrors ρ N id (enter phase message) (enter phase message') where
  later := Later.law.obeys_enter _ _
  run h := .inl ⟨rfl, h.trace _ _⟩

theorem mirrors_leave {phase message message' : String} :
    Mirrors ρ N id (leave phase message) (leave phase message') where
  later := Later.law.obeys_leave _ _
  run h := .inl ⟨rfl, h.trace _ _⟩

theorem mirrors_newUnknown (hN : ∀ i < N, ρ (unknownName i) = unknownName i) :
    Mirrors ρ N (OpenTy.rename ρ) newUnknown newUnknown where
  later := Later.law.obeys_newUnknown
  run {c d} h := by
    rw [newUnknown_run, newUnknown_run, h.counter]
    by_cases hc : c.counter < N
    · refine .inl ⟨?_, h.rollback, h.options, rfl, h.store, h.judgments, h.scopes⟩
      rw [OpenTy.rename, hN _ hc]
    · exact .inr (Nat.lt_succ_of_le (Nat.le_of_not_lt hc))

theorem both_ofExcept {c d : Context} {r r' : Except CheckError OpenTy} (h : c.Renamed ρ d)
    (hr : IndexedTyping.Renamed ρ r r') :
    Both (fun a c' b d' => b = a.rename ρ ∧ c'.Renamed ρ d') (ofExcept r c) (ofExcept r' d) := by
  cases hr with
  | ok a => exact ⟨rfl, h⟩
  | error e e' => trivial

section

variable (hρ : Function.Injective ρ)
include hρ

theorem mirrors_resolve (t : OpenTy) : Mirrors ρ N (OpenTy.rename ρ) (resolve t) (resolve (t.rename ρ)) where
  later := Later.law.obeys_resolve t
  run {c d} h := by
    rw [resolve_run, resolve_run, h.store]
    exact .inl (both_ofExcept h (Store.resolve_rename hρ c.store t))

theorem mirrors_resolveTy (t : Ty) : Mirrors ρ N (OpenTy.rename ρ) (resolveTy t) (resolveTy (t.rename ρ)) where
  later := Later.law.obeys_resolveTy t
  run {c d} h := by
    rw [resolveTy_run, resolveTy_run, h.store]
    exact .inl (both_ofExcept h (Store.resolveTy_rename hρ c.store t))

theorem mirrors_typeOf (e : Term) : Mirrors ρ N (OpenTy.rename ρ) (typeOf e) (typeOf e) where
  later := Later.law.obeys_typeOf e
  run {c d} h := by
    rw [typeOf_run, typeOf_run, h.judgment? e, h.store]
    cases c.judgment? e with
    | none => exact .inl trivial
    | some j => exact .inl (both_ofExcept h (Store.resolve_rename hρ c.store j.type))

theorem mirrors_bindUnknown (x : String) (t : OpenTy) :
    Mirrors ρ N id (bindUnknown x t) (bindUnknown (ρ x) (t.rename ρ)) where
  later := Later.law.obeys_bindUnknown x t
  run {c d} h := by
    left
    rw [bindUnknown_run, bindUnknown_run, h.store, h.options]
    rcases Store.binding_rename hρ c.store x t with ⟨b, hb, hb'⟩ | ⟨e, e', he, he'⟩
    · rw [hb, hb']
      simp only [Store.insert, Store.refuses_rename hρ]
      cases Store.refuses c.options.strictOccurs b with
      | true => trivial
      | false =>
        refine ⟨trivial, h.rollback, rfl, h.counter, ?_, h.judgments, h.scopes⟩
        simp [Store.rename]
    · rw [he, he']
      trivial

theorem mirrors_carryOut {u : OpenTy → OpenTy → CheckM Unit}
    (hu : ∀ a b, Mirrors ρ N id (u a b) (u (a.rename ρ) (b.rename ρ))) (a b : OpenTy) (p : Plan) :
    Mirrors ρ N id (carryOut u a b p) (carryOut u (a.rename ρ) (b.rename ρ) (p.rename ρ)) := by
  cases p with
  | bind x t => exact mirrors_bindUnknown hρ x t
  | parts p q p' q' => exact (hu p q).bind fun _ => hu p' q'
  | quantified e f p q =>
    exact (mirrors_typeOf hρ e).bind fun r => (mirrors_typeOf hρ f).bind fun s => (hu r s).bind fun _ => hu p q
  | indexed p q e f =>
    exact (hu p q).bind fun _ => (mirrors_typeOf hρ e).bind fun r => (mirrors_typeOf hρ f).bind fun s => hu r s
  | swap => exact hu b a
  | clash => exact .throw (by trivial) _

theorem mirrors_unifyWithin (n : Nat) (a b : OpenTy) :
    Mirrors ρ N id (unifyWithin n a b) (unifyWithin n (a.rename ρ) (b.rename ρ)) := by
  induction n generalizing a b with
  | zero => exact .throw (by trivial) _
  | succ n ih =>
    have hstep (a b : OpenTy) : Mirrors ρ N id (unifyStep (unifyWithin n) a b)
        (unifyStep (unifyWithin n) (a.rename ρ) (b.rename ρ)) := by
      rw [unifyStep_eq_carryOut, unifyStep_eq_carryOut, OpenTy.plan_rename]
      exact mirrors_carryOut hρ ih a b _
    refine (mirrors_resolve hρ a).bind fun a => (mirrors_resolve hρ b).bind fun b => ?_
    have hwork : Mirrors ρ N id
        (do enter "Begin Unify" (a.render ++ " <~> " ++ b.render)
            unifyStep (unifyWithin n) a b
            leave "End Unify" (a.render ++ " <~> " ++ b.render))
        (do enter "Begin Unify" ((a.rename ρ).render ++ " <~> " ++ (b.rename ρ).render)
            unifyStep (unifyWithin n) (a.rename ρ) (b.rename ρ)
            leave "End Unify" ((a.rename ρ).render ++ " <~> " ++ (b.rename ρ).render)) :=
      mirrors_enter.bind fun _ => (hstep a b).bind fun _ => mirrors_leave
    refine .get (fun c => ?_) fun c d h => ?_
    · split
      · exact Later.law.obeys_pure ()
      · exact hwork.later
    · rw [h.options, OpenTy.same_rename hρ]
      split
      · exact .pure ()
      · exact hwork

theorem mirrors_unify (a b : OpenTy) : Mirrors ρ N id (unify a b) (unify (a.rename ρ) (b.rename ρ)) := by
  refine .get (fun _ => Later.law.obeys_unifyWithin _ a b) fun c d h => ?_
  rw [h.options]
  exact mirrors_unifyWithin hρ _ a b

theorem mirrors_declare (e : Term) (t : OpenTy) : Mirrors ρ N id (declare e t) (declare e (t.rename ρ)) where
  later := Later.law.obeys_declare e t
  run {c d} h := by
    have hresolve := Store.resolve_rename hρ c.store t
    rw [declare_run, declare_run, h.store, h.judgment? e]
    generalize c.store.resolve t = r, (c.store.rename ρ).resolve (t.rename ρ) = r' at hresolve ⊢
    cases hresolve with
    | error e e' => exact .inl trivial
    | ok a =>
      cases c.judgment? e with
      | none =>
        refine .inl ⟨rfl, h.rollback, h.options, h.counter, rfl, ?_, h.scopes⟩
        simp [h.judgments, Judgment.rename]
      | some j => exact (mirrors_unify hρ a j.type).run ⟨h.rollback, h.options, h.counter, rfl, h.judgments, h.scopes⟩

theorem mirrors_judged (e : Term) {m m' : CheckM Unit} (hm : Mirrors ρ N id m m') :
    Mirrors ρ N (OpenTy.rename ρ) (judged e m) (judged e m') :=
  mirrors_enter.bind fun _ => hm.bind fun _ => (mirrors_typeOf hρ e).bind fun t => mirrors_leave.bind fun _ => .pure t

end

section

variable (hρ : Function.Injective ρ) (hN : ∀ i < N, ρ (unknownName i) = unknownName i)
include hρ hN

theorem mirrors_checkVar (x : String) (l : Option Location) :
    Mirrors ρ N (OpenTy.rename ρ) (checkVar x l) (checkVar x l) := by
  refine mirrors_judged hρ _ ?_
  have hdeclare : Mirrors ρ N id (do declare (.var x l) (← newUnknown)) (do declare (.var x l) (← newUnknown)) :=
    (mirrors_newUnknown hN).bind fun a => mirrors_declare hρ _ a
  have hlookup : Mirrors ρ N id (do let _ ← typeOf (.var x l); declare (.var x l) (← newUnknown))
      (do let _ ← typeOf (.var x l); declare (.var x l) (← newUnknown)) :=
    (mirrors_typeOf hρ _).bind fun _ => hdeclare
  refine .get (fun c => ?_) fun c d h => ?_
  · dsimp only
    split
    · exact hdeclare.later
    · exact hlookup.later
  · dsimp only
    rw [h.binds x]
    split
    · exact hdeclare
    · exact hlookup

theorem mirrors_checkTerm (e : Term) : Mirrors ρ N (OpenTy.rename ρ) (checkTerm e) (checkTerm e) := by
  have hvar := mirrors_checkVar hρ hN
  induction e with
  | var x l => exact hvar x l
  | lit v => exact mirrors_judged hρ _ (mirrors_declare hρ _ (.ground (.prim v.prim)))
  | lam x b ih =>
    refine mirrors_judged hρ _ (Mirrors.bind (f := Prod.map (OpenTy.rename ρ) (OpenTy.rename ρ)) ?_ fun (a, b) =>
      mirrors_declare hρ _ (.fn a b))
    exact .withScope _ _ (ih.bind fun b => (hvar x none).bind fun a => .pure (a, b))
  | app f a ihf iha =>
    exact mirrors_judged hρ _ (ihf.bind fun a => iha.bind fun b => (mirrors_newUnknown hN).bind fun c =>
      (mirrors_unify hρ a (.fn b c)).bind fun _ => mirrors_declare hρ _ c)
  | recur f x b ih =>
    refine mirrors_judged hρ _ (Mirrors.bind
      (f := Prod.map (OpenTy.rename ρ) (Prod.map (OpenTy.rename ρ) (OpenTy.rename ρ))) ?_ fun (a, b, c) =>
      (mirrors_unify hρ b c).bind fun _ => mirrors_declare hρ _ (.fn a b))
    exact .withScope _ _ (ih.bind fun b => (hvar x none).bind fun a => (hvar f none).bind fun c => .pure (a, b, c))

end

end CheckM

mutual

def Stmt.typeNames : Stmt → List String
  | .define _ t _ | .fix _ t _ | .assume _ t => t.names
  | .synonym n t => n :: t.names
  | .primitive n => [n]
  | .group _ _ body => Program.typeNames body

def Program.typeNames : Program → List String
  | [] => []
  | s :: rest => s.typeNames ++ Program.typeNames rest

end

mutual

def Stmt.renameTypes (ρ : String → String) : Stmt → Stmt
  | .define n t e => .define n (t.rename ρ) e
  | .fix n t e => .fix n (t.rename ρ) e
  | .assume n t => .assume n (t.rename ρ)
  | .synonym n t => .synonym (ρ n) (t.rename ρ)
  | .primitive n => .primitive (ρ n)
  | .group n l body => .group n l (Program.renameTypes ρ body)

def Program.renameTypes (ρ : String → String) : Program → Program
  | [] => []
  | s :: rest => s.renameTypes ρ :: Program.renameTypes ρ rest

end

mutual

theorem Stmt.renameTypes_congr {ρ σ : String → String} :
    ∀ s : Stmt, (∀ x ∈ s.typeNames, ρ x = σ x) → s.renameTypes ρ = s.renameTypes σ
  | .define n t e, h | .fix n t e, h | .assume n t, h => by simp [Stmt.renameTypes, Ty.rename_congr h]
  | .synonym n t, h => by
    simp only [Stmt.typeNames, List.mem_cons] at h
    simp [Stmt.renameTypes, h n (.inl rfl), Ty.rename_congr fun x hx => h x (.inr hx)]
  | .primitive n, h => by simp [Stmt.renameTypes, h n List.mem_cons_self]
  | .group n l body, h => by simp [Stmt.renameTypes, Program.renameTypes_congr body h]

theorem Program.renameTypes_congr {ρ σ : String → String} :
    ∀ p : Program, (∀ x ∈ p.typeNames, ρ x = σ x) → p.renameTypes ρ = p.renameTypes σ
  | [], _ => rfl
  | s :: rest, h => by
    simp only [Program.typeNames, List.mem_append] at h
    simp [Program.renameTypes, Stmt.renameTypes_congr s fun x hx => h x (.inl hx),
      Program.renameTypes_congr rest fun x hx => h x (.inr hx)]

end

namespace CheckM

open Context

variable {ρ : String → String} {N : Nat} (hρ : Function.Injective ρ)
  (hN : ∀ i < N, ρ (unknownName i) = unknownName i)
include hρ hN

theorem mirrors_checkStmt (s : Stmt) : Mirrors ρ N id (checkStmt s) (checkStmt (s.renameTypes ρ)) := by
  refine mirrors_enter.bind fun _ => Mirrors.bind (f := id) ?_ fun _ => mirrors_leave
  have hbody (label : String) (e : Term) := (mirrors_checkTerm hρ hN e).withScope label []
  cases s with
  | define n t e =>
    exact (mirrors_resolveTy hρ t).bind fun a => (hbody _ e).bind fun b => (mirrors_unify hρ a b).bind fun _ =>
      mirrors_declare hρ _ a
  | fix n t e =>
    exact (mirrors_resolveTy hρ t).bind fun a => (mirrors_declare hρ _ a).bind fun _ => (hbody _ e).bind fun b =>
      mirrors_unify hρ a b
  | assume n t => exact (mirrors_resolveTy hρ t).bind fun a => mirrors_declare hρ _ a
  | synonym n t => exact (mirrors_resolveTy hρ t).bind fun a => mirrors_bindUnknown hρ n a
  | primitive n => exact mirrors_emit.bind fun _ => mirrors_bindUnknown hρ n (.ground (.name n))
  | group n l body => exact .throw (by trivial) _

theorem mirrors_checkStmts (p : Program) : Mirrors ρ N id (checkStmts p) (checkStmts (p.renameTypes ρ)) := by
  induction p with
  | nil => exact .pure ()
  | cons s rest ih => exact (mirrors_checkStmt hρ hN s).bind fun _ => ih

theorem mirrors_checkAll (p : Program) : Mirrors ρ N id (checkAll p) (checkAll (p.renameTypes ρ)) :=
  mirrors_enter.bind fun _ => (mirrors_checkStmts hρ hN p).bind fun _ => mirrors_leave

end CheckM

open CheckM

theorem exists_injective_fixing {r : String → String} (hr : Function.Injective r) (names : List String) (N : Nat)
    (h : ∀ x ∈ names, ∀ i < N, x = unknownName i ∨ r x = unknownName i → r x = x) :
    ∃ ρ : String → String, Function.Injective ρ ∧ (∀ x ∈ names, ρ x = r x) ∧
      ∀ i < N, ρ (unknownName i) = unknownName i := by
  classical
  let s : Set String := {x | x ∈ names} ∪ Set.image unknownName {i | i < N}
  have hs : s.Finite := names.finite_toSet.union ((Set.finite_lt_nat N).image _)
  let f (x : s) : String := if x.1 ∈ names then r x else x
  have hf : Function.Injective f := by
    rintro ⟨x, hx⟩ ⟨y, hy⟩ heq
    rw [Subtype.mk.injEq]
    by_cases hxn : x ∈ names <;> by_cases hyn : y ∈ names <;> simp only [f, hxn, hyn, if_true, if_false] at heq
    · exact hr heq
    · obtain ⟨i, hi, rfl⟩ := hy.resolve_left hyn
      exact (h x hxn i hi (.inr heq)).symm.trans heq
    · obtain ⟨i, hi, rfl⟩ := hx.resolve_left hxn
      exact heq.trans (h y hyn i hi (.inr heq.symm))
    · exact heq
  have : Infinite String := .of_injective unknownName fun _ _ => unknownName_injective
  have : Finite s := hs
  have hcard := (Cardinal.mk_lt_aleph0 (α := s)).trans_le (Cardinal.aleph0_le_mk String)
  obtain ⟨ρ, hρ⟩ := Cardinal.extend_function_of_lt ⟨f, hf⟩ hcard ⟨.refl _⟩
  refine ⟨ρ, ρ.injective, fun x hx => ?_, fun i hi => ?_⟩
  · rw [hρ ⟨x, .inl hx⟩]
    exact if_pos hx
  · rw [hρ ⟨unknownName i, .inr ⟨i, hi, rfl⟩⟩]
    by_cases hin : unknownName i ∈ names
    · exact (if_pos hin).trans (h _ hin i hi (.inl rfl))
    · exact if_neg hin

/-- Renaming the types of a program without making two of them one does not change whether it is accepted, if no name
that the renaming changes, and no name that it changes to, is that of an unknown made in checking the program. -/
theorem check_ok_renameTypes {options : Options} {trace : Trace} {p : Program} {r : String → String}
    (hr : Function.Injective r) (hrollback : options.rollback = false)
    (hapart : ∀ x ∈ p.typeNames, ∀ i < (check options trace p).context.counter,
      x = unknownName i ∨ r x = unknownName i → r x = x) :
    (check options trace (p.renameTypes r)).ok = (check options trace p).ok := by
  obtain ⟨ρ, hρ, hagree, hfixed⟩ := exists_injective_fixing hr p.typeNames _ hapart
  rw [← p.renameTypes_congr hagree]
  have hnew : (Context.new options trace).Renamed ρ (.new options trace) := ⟨hrollback, rfl, rfl, rfl, rfl, rfl⟩
  rcases (mirrors_checkAll hρ hfixed p).run hnew with hboth | hexceeds
  · exact (check_ok_eq_of_both hboth).symm
  · -- no more unknowns are made than are counted at the end
    rw [check] at hexceeds
    revert hexceeds
    cases checkAll p (.new options trace) <;> exact fun hexceeds => absurd hexceeds (Nat.lt_irrefl _)

theorem check_ok_renameTypes_swap :
    let p : Program := [.primitive "t1", .assume "f" (.fn (.name "t1") (.prim .nat)),
      .define "g" (.fn (.name "t1") (.prim .nat)) (.var "f" none)]
    let r := Equiv.swap "t1" "A"
    (check {} (.new false) p).context.counter = 1 ∧ p.renameTypes r ≠ p ∧
      (check {} (.new false) (p.renameTypes r)).ok = (check {} (.new false) p).ok := by
  intro p r
  have hcounter : (check {} (.new false) p).context.counter = 1 := by decide +kernel
  refine ⟨hcounter, by simp [p, r, Program.renameTypes, Stmt.renameTypes], ?_⟩
  refine check_ok_renameTypes r.injective rfl ?_
  rw [hcounter]
  decide

/-- The first unknown that is made has to stand for the type of `f`, in which `t0` occurs. -/
theorem type_name_decides :
    let p : Program := [.assume "f" (.fn (.name "A") (.prim .nat)),
      .define "g" (.fn (.name "A") (.prim .nat)) (.var "f" none)]
    let r := Equiv.swap "A" "t0"
    Function.Injective r ∧ (check {} (.new false) p).ok = true ∧
      (check {} (.new false) (p.renameTypes r)).ok = false := by
  exact ⟨(Equiv.swap "A" "t0").injective, by decide +kernel, by decide +kernel⟩

end IndexedTyping
