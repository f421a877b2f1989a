import IndexedTyping.Proofs.Check.TypeNames
import IndexedTyping.Proofs.History.Basic

/-!
New unknowns are new. A type that comes out of a scope outlives the bindings that were made there, so it is not enough
that the bindings and judgments of the moment know nothing of an unknown. The counter only goes up if it is never
taken back, and it is above everything that has been seen at any moment so far.
-/

namespace IndexedTyping

open CheckM

abbrev OpenTy.Among (U : Set String) (t : OpenTy) : Prop := t.Over (fun _ => True) (· ∈ U)

abbrev Store.Among (U : Set String) (s : Store) : Prop := s.Over (fun _ => True) (· ∈ U)

variable {U V : Set String} {k n : Nat}

theorem OpenTy.Among.mono {t : OpenTy} (ht : t.Among U) (h : U ⊆ V) : t.Among V := Over.mono ht (fun _ h => h) h

theorem OpenTy.Among.below {t : OpenTy} (ht : t.Among (Below k)) (h : k ≤ n) : t.Among (Below n) :=
  ht.mono (Below.mono h)

theorem OpenTy.among_ground (t : Ty) : (OpenTy.ground t).Among U := over_iff.mpr (by simp [unknowns])

theorem OpenTy.among_embed {t : Ty} (h : ∀ x ∈ t.names, x ∈ U) : t.embed.Among U := by
  induction t with
  | name x => exact h x (List.mem_singleton_self x)
  | prim p => trivial
  | fn t s iht ihs | app t s iht ihs =>
    exact ⟨iht fun x hx => h x (List.mem_append_left _ hx), ihs fun x hx => h x (List.mem_append_right _ hx)⟩
  | all x l t ih | indexed t e ih => exact ⟨trivial, ih h⟩

namespace Plan

def Among (U : Set String) : Plan → Prop
  | bind x t => x ∈ U ∧ t.Among U
  | parts p q p' q' => (p.Among U ∧ q.Among U) ∧ p'.Among U ∧ q'.Among U
  | quantified _ _ p q | indexed p q _ _ => p.Among U ∧ q.Among U
  | swap | clash => True

end Plan

theorem OpenTy.Among.plan {a b : OpenTy} (ha : a.Among U) (hb : b.Among U) : (a.plan b).Among U := by
  fun_cases OpenTy.plan a b with
  | case1 t x => exact ⟨hb, ha⟩
  | case2 | case3 => exact ⟨⟨ha.1, hb.1⟩, ha.2, hb.2⟩
  | case4 => exact ⟨ha.2, hb.2⟩
  | case5 => exact ⟨ha.2, hb.2⟩
  | case6 x b => exact ⟨ha, hb⟩
  | case7 | case8 => exact ⟨⟨ha.1, hb.1⟩, ha.2, hb.2⟩
  | case9 => exact ⟨ha.2, hb.2⟩
  | case10 | case11 => trivial

namespace Context

structure Among (U : Set String) (c : Context) : Prop where
  store : c.store.Among U
  judgments : ∀ j ∈ c.judgments, j.type.Among U
  scopes : ∀ s ∈ c.scopes, s.store.Among U ∧ ∀ j ∈ s.judgments, j.type.Among U

namespace Among

variable {c : Context}

theorem mono (hc : c.Among U) (h : U ⊆ V) : c.Among V where
  store := Store.Over.mono hc.store (fun _ h => h) h
  judgments j hj := (hc.judgments j hj).mono h
  scopes s hs := ⟨Store.Over.mono (hc.scopes s hs).1 (fun _ h => h) h, fun j hj => ((hc.scopes s hs).2 j hj).mono h⟩

theorem openScope (hc : c.Among U) (label : String) (binders : List String) : (c.openScope label binders).Among U :=
  ⟨hc.store, hc.judgments, List.forall_mem_cons.mpr ⟨⟨hc.store, hc.judgments⟩, hc.scopes⟩⟩

theorem closeScope (hc : c.Among U) : c.closeScope.Among U := by
  obtain ⟨options, trace, counter, store, judgments, scopes⟩ := c
  cases scopes with
  | nil => exact hc
  | cons s outer =>
    obtain ⟨hs, houter⟩ := List.forall_mem_cons.mp hc.scopes
    exact ⟨hs.1, hs.2, houter⟩

theorem judgment? (hc : c.Among U) {e : Term} {j : Judgment} (hj : c.judgment? e = some j) : j.type.Among U :=
  hc.judgments j (List.mem_of_find?_eq_some hj)

end Among

theorem counter_closeScope {c : Context} (h : c.options.rollback = false) : c.closeScope.counter = c.counter := by
  rw [closeScope]
  cases c.scopes <;> simp [h]

namespace Change

variable {c d : Context}

theorem options (h : c.Change d) : d.options = c.options := by
  cases h with
  | closeScope =>
    rw [Context.closeScope]
    cases c.scopes <;> rfl
  | _ => rfl

theorem counter_le (h : c.Change d) (hroll : c.options.rollback = false) : c.counter ≤ d.counter := by
  cases h with
  | closeScope => exact Nat.le_of_eq (counter_closeScope hroll).symm
  | count => exact Nat.le_succ _
  | _ => exact Nat.le_refl _

end Change

structure Proceeds (c d : Context) : Prop where
  change : c.Change d
  among : d.Among (Below d.counter)

theorem Proceeds.trace {c : Context} (hc : c.Among (Below c.counter)) (t : Trace) : c.Proceeds { c with trace := t } :=
  ⟨.trace t, hc.store, hc.judgments, hc.scopes⟩

end Context

structure Moment.Among (U : Set String) (m : Moment) : Prop where
  context : m.context.Among U
  found : ∀ t ∈ m.found, t.Among U

namespace Moment.Among

variable {m : Moment}

theorem mono (hm : m.Among U) (h : U ⊆ V) : m.Among V := ⟨hm.context.mono h, fun t ht => (hm.found t ht).mono h⟩

theorem mem (hm : m.Among U) {x : String} (hx : x ∈ m.unknowns) : x ∈ U := by
  have htype {t : OpenTy} (ht : t.Among U) (hx : x ∈ t.unknowns) : x ∈ U := (OpenTy.over_iff.mp ht).2 x hx
  have hstore {s : Store} (hs : s.Among U) (hx : x ∈ s.unknowns) : x ∈ U := by
    obtain ⟨b, hb, hx⟩ := List.mem_flatMap.mp hx
    rcases List.mem_cons.mp hx with rfl | hx
    · exact (hs b hb).1
    · exact htype (hs b hb).2 hx
  have hjudgments {js : List Judgment} (hjs : ∀ j ∈ js, j.type.Among U) (hx : x ∈ js.flatMap (·.type.unknowns)) :
      x ∈ U := by
    obtain ⟨j, hj, hx⟩ := List.mem_flatMap.mp hx
    exact htype (hjs j hj) hx
  simp only [Moment.unknowns, Context.unknowns, List.mem_append] at hx
  rcases hx with ((hx | hx) | hx) | hx
  · exact hstore hm.context.store hx
  · exact hjudgments hm.context.judgments hx
  · obtain ⟨s, hs, hx⟩ := List.mem_flatMap.mp hx
    exact (List.mem_append.mp hx).elim (hstore (hm.context.scopes s hs).1) (hjudgments (hm.context.scopes s hs).2)
  · obtain ⟨t, ht, hx⟩ := List.mem_flatMap.mp hx
    exact htype (hm.found t ht) hx

end Moment.Among

namespace History

structure Fresh (h : History) : Prop where
  rollback : h.now.context.options.rollback = false
  linked : h.Linked
  self : ∀ m ∈ h.moments, m.Among (Below m.context.counter)
  earlier : h.moments.Pairwise fun m m' => m'.Among (Below m.context.counter)

structure Leads (h h' : History) : Prop where
  fresh : h'.Fresh
  suffix : h.moments <:+ h'.moments
  counter : h.counter ≤ h'.counter

theorem Fresh.leads_self {h : History} (hh : h.Fresh) : h.Leads h := ⟨hh, List.suffix_refl _, Nat.le_refl _⟩

theorem Leads.trans {h₁ h₂ h₃ : History} (h : h₁.Leads h₂) (h' : h₂.Leads h₃) : h₁.Leads h₃ :=
  ⟨h'.fresh, h.suffix.trans h'.suffix, h.counter.trans h'.counter⟩

namespace Fresh

variable {h : History} (hh : h.Fresh)
include hh

theorem now : h.now.context.Among (Below h.counter) := (hh.self h.now List.mem_cons_self).context

theorem among {m : Moment} (hm : m ∈ h.moments) : m.Among (Below h.counter) := by
  rcases List.mem_cons.mp hm with rfl | hm
  · exact hh.self _ List.mem_cons_self
  · exact List.rel_of_pairwise_cons hh.earlier hm

theorem among_of_split {m m' : Moment} {later earlier : List Moment} (hsplit : h.moments = later ++ m :: earlier)
    (hm' : m' ∈ m :: earlier) : m'.Among (Below m.context.counter) := by
  rcases List.mem_cons.mp hm' with rfl | hm'
  · exact hh.self _ (by simp [hsplit])
  · have hpair := hh.earlier
    rw [hsplit] at hpair
    exact List.rel_of_pairwise_cons (List.pairwise_append.mp hpair).2.1 hm'

theorem next {d : Context} (hd : h.now.context.Proceeds d) {types : List OpenTy}
    (htypes : ∀ t ∈ types, t.Among (Below d.counter)) : h.Leads (h.next d types) := by
  have hle : h.counter ≤ d.counter := hd.change.counter_le hh.rollback
  have hfound : ∀ t ∈ types ++ h.now.found, t.Among (Below d.counter) := by
    refine List.forall_mem_append.mpr ⟨htypes, fun t ht => ?_⟩
    exact ((hh.among List.mem_cons_self).found t ht).below hle
  refine ⟨⟨?_, ?_, ?_, ?_⟩, List.suffix_cons _ _, hle⟩
  · exact (congrArg Options.rollback hd.change.options).trans hh.rollback
  · exact List.isChain_cons_cons.mpr ⟨⟨hd.change, List.suffix_append _ _⟩, hh.linked⟩
  · exact List.forall_mem_cons.mpr ⟨⟨hd.among, hfound⟩, hh.self⟩
  · exact List.pairwise_cons.mpr ⟨fun m hm => (hh.among hm).mono (Below.mono hle), hh.earlier⟩

end Fresh

end History

namespace HistoryM

variable {α β : Type}

inductive Goes (h : History) (φ : α → Nat → Prop) : EStateM.Result CheckError History α → Prop
  | ok : h.Leads h' → φ a h'.counter → Goes h φ (.ok a h')
  | error : h.Leads h' → Goes h φ (.error e h')

def StaysFresh (n : Nat) (m : HistoryM α) (φ : α → Nat → Prop) : Prop :=
  ∀ h : History, h.Fresh → n ≤ h.counter → Goes h φ (m h)

theorem Goes.of_leads {h h' : History} {φ : α → Nat → Prop} {r : EStateM.Result CheckError History α}
    (hlead : h.Leads h') (hr : Goes h' φ r) : Goes h φ r := by
  cases hr with
  | ok hlead' ha => exact .ok (hlead.trans hlead') ha
  | error hlead' => exact .error (hlead.trans hlead')

theorem Goes.leads {h : History} {φ : α → Nat → Prop} {r : EStateM.Result CheckError History α} (hr : Goes h φ r) :
    h.Leads (final r) := by
  cases hr with
  | ok hlead _ | error hlead => exact hlead

namespace StaysFresh

variable {m : HistoryM α} {φ : α → Nat → Prop}

theorem bind {k : α → HistoryM β} {ψ : β → Nat → Prop} (hm : StaysFresh n m φ)
    (hk : ∀ a n', n ≤ n' → φ a n' → StaysFresh n' (k a) ψ) : StaysFresh n (m >>= k) ψ := by
  intro h hh hn
  have hrun := hm h hh hn
  simp only [Bind.bind, EStateM.bind]
  generalize m h = r at hrun ⊢
  cases hrun with
  | ok hlead ha => exact (hk _ _ (hn.trans hlead.counter) ha _ hlead.fresh (Nat.le_refl _)).of_leads hlead
  | error hlead => exact .error hlead

theorem pure {a : α} (ha : ∀ k, n ≤ k → φ a k) : StaysFresh n (pure a) φ := fun _ hh hn => .ok hh.leads_self (ha _ hn)

theorem throw (e : CheckError) : StaysFresh n (throw e) φ := fun _ hh _ => .error hh.leads_self

theorem of_get {k : History → HistoryM α} (hk : ∀ h : History, h.Fresh → n ≤ h.counter → Goes h φ (k h h)) :
    StaysFresh n (get >>= k) φ :=
  hk

theorem ite {q : History → Bool} {k : HistoryM α} (hm : StaysFresh n m φ) (hk : StaysFresh n k φ) :
    StaysFresh n (do if q (← get) then m else k) φ := by
  refine .of_get fun h hh hn => ?_
  split
  · exact hm h hh hn
  · exact hk h hh hn

theorem withScope (hm : StaysFresh n m φ) (label : String) (binders : List String) :
    StaysFresh n (withScope label binders m) φ := by
  intro h hh hn
  have hopen : h.Leads (h.next (h.now.context.openScope label binders) []) :=
    hh.next ⟨.openScope label binders, hh.now.openScope label binders⟩ (by simp)
  have hclose {h' : History} (hh' : h'.Fresh) : h'.Leads (h'.next h'.now.context.closeScope []) := by
    refine hh'.next ⟨.closeScope, ?_⟩ (by simp)
    rw [Context.counter_closeScope hh'.rollback]
    exact hh'.now.closeScope
  have hrun := hm _ hopen.fresh hn
  rw [HistoryM.withScope]
  generalize m (h.next _ []) = r at hrun ⊢
  cases hrun with
  | @ok h' a hlead ha =>
    -- the types that come out of the scope are below the counter as it was in there
    have hcounter : (h'.next h'.now.context.closeScope []).counter = h'.counter :=
      Context.counter_closeScope hlead.fresh.rollback
    exact .ok ((hopen.trans hlead).trans (hclose hlead.fresh)) (hcounter ▸ ha)
  | error hlead => exact .error ((hopen.trans hlead).trans (hclose hlead.fresh))

theorem step {types : α → List OpenTy} {m : CheckM α}
    (hm : ∀ c : Context, c.Among (Below c.counter) → n ≤ c.counter →
      Ends (m c) (fun a d => c.Proceeds d ∧ (∀ t ∈ types a, t.Among (Below d.counter)) ∧ φ a d.counter)
        fun _ d => c.Proceeds d) :
    StaysFresh n (step types m) φ := by
  intro h hh hn
  have hrun := hm h.now.context hh.now hn
  rw [HistoryM.step]
  cases hr : m h.now.context with
  | ok a d =>
    rw [hr] at hrun
    exact .ok (hh.next hrun.1 hrun.2.1) hrun.2.2
  | error e d =>
    rw [hr] at hrun
    exact .error (hh.next hrun (by simp))

end StaysFresh

theorem fresh_act {m : CheckM Unit}
    (hm : ∀ c : Context, c.Among (Below c.counter) → n ≤ c.counter →
      Ends (m c) (fun _ d => c.Proceeds d) fun _ d => c.Proceeds d) :
    StaysFresh n (act m) fun _ _ => True :=
  .step fun c hc hn => (hm c hc hn).mono (fun _ _ hd => ⟨hd, by simp, trivial⟩) fun _ _ hd => hd

theorem fresh_find {m : CheckM OpenTy}
    (hm : ∀ c : Context, c.Among (Below c.counter) → n ≤ c.counter →
      Ends (m c) (fun t d => c.Proceeds d ∧ t.Among (Below d.counter)) fun _ d => d = c) :
    StaysFresh n (find m) fun t k => t.Among (Below k) := by
  refine .step fun c hc hn => (hm c hc hn).mono (fun t d hd => ⟨hd.1, ?_, hd.2⟩) ?_
  · simpa using hd.2
  · rintro _ _ rfl
    exact .trace hc _

theorem fresh_emit (phase message : String) : StaysFresh n (act (emit phase message)) fun _ _ => True :=
  fresh_act fun _ hc _ => .trace hc _

theorem fresh_enter (phase message : String) : StaysFresh n (act (enter phase message)) fun _ _ => True :=
  fresh_act fun _ hc _ => .trace hc _

theorem fresh_leave (phase message : String) : StaysFresh n (act (leave phase message)) fun _ _ => True :=
  fresh_act fun _ hc _ => .trace hc _

theorem fresh_newUnknown : StaysFresh n (find newUnknown) fun t k => t.Among (Below k) := by
  refine fresh_find fun c hc _ => ?_
  have hnext := hc.mono (Below.mono (Nat.le_succ c.counter))
  exact ⟨⟨.count _, hnext.store, hnext.judgments, hnext.scopes⟩, unknownName_mem_below c.counter⟩

theorem fresh_resolve {t : OpenTy} (ht : t.Among (Below n)) :
    StaysFresh n (find (resolve t)) fun t k => t.Among (Below k) := by
  refine fresh_find fun c hc hn => ?_
  rw [resolve_run]
  cases hr : c.store.resolve t with
  | ok a => exact ⟨.trace hc _, hc.store.resolve (ht.below hn) hr⟩
  | error e => exact rfl

theorem fresh_resolveTy {t : Ty} (ht : t.embed.Among (Below n)) :
    StaysFresh n (find (resolveTy t)) fun t k => t.Among (Below k) := by
  have hrun : resolveTy t = resolve t.embed := by
    funext c
    rw [resolveTy_run, resolve_run, Store.resolveTy_eq_resolve]
  rw [hrun]
  exact fresh_resolve ht

theorem fresh_typeOf (e : Term) : StaysFresh n (find (typeOf e)) fun t k => t.Among (Below k) := by
  refine fresh_find fun c hc _ => ?_
  rw [typeOf_run]
  cases hj : c.judgment? e with
  | some j =>
    dsimp only
    cases hr : c.store.resolve j.type with
    | ok a => exact ⟨.trace hc _, hc.store.resolve (hc.judgment? hj) hr⟩
    | error err => exact rfl
  | none => exact rfl

theorem fresh_bindUnknown {x : String} {t : OpenTy} (hx : x ∈ Below n) (ht : t.Among (Below n)) :
    StaysFresh n (act (bindUnknown x t)) fun _ _ => True := by
  refine fresh_act fun c hc hn => ?_
  rw [bindUnknown_run]
  cases hb : c.store.binding x t with
  | error e => exact .trace hc _
  | ok b =>
    cases hs : c.store.insert c.options.strictOccurs b with
    | error e =>
      simp only [hs]
      exact .trace hc _
    | ok s =>
      simp only [hs]
      have hstore : s.Among (Below c.counter) := hc.store.insert (Below.mono hn hx) (ht.below hn) hb hs
      obtain ⟨-, rfl⟩ := Store.insert_eq_ok hs
      exact ⟨.bind _ b, hstore, hc.judgments, hc.scopes⟩

theorem fresh_carryOut {u : OpenTy → OpenTy → HistoryM Unit}
    (hu : ∀ {n a b}, a.Among (Below n) → b.Among (Below n) → StaysFresh n (u a b) fun _ _ => True)
    {a b : OpenTy} (ha : a.Among (Below n)) (hb : b.Among (Below n)) {p : Plan} (hp : p.Among (Below n)) :
    StaysFresh n (carryOut u a b p) fun _ _ => True := by
  cases p with
  | bind x t => exact fresh_bindUnknown hp.1 hp.2
  | parts p q p' q' => exact (hu hp.1.1 hp.1.2).bind fun _ _ hn _ => hu (hp.2.1.below hn) (hp.2.2.below hn)
  | quantified e f p q =>
    exact (fresh_typeOf e).bind fun r _ hn hr => (fresh_typeOf f).bind fun s _ hn' hs =>
      (hu (hr.below hn') hs).bind fun _ _ hn'' _ =>
        hu (hp.1.below (hn.trans (hn'.trans hn''))) (hp.2.below (hn.trans (hn'.trans hn'')))
  | indexed p q e f =>
    exact (hu hp.1 hp.2).bind fun _ _ _ _ => (fresh_typeOf e).bind fun r _ _ hr =>
      (fresh_typeOf f).bind fun s _ hn hs => hu (hr.below hn) hs
  | swap => exact hu hb ha
  | clash => exact .throw _

theorem fresh_unifyWithin (d : Nat) {a b : OpenTy} (ha : a.Among (Below n)) (hb : b.Among (Below n)) :
    StaysFresh n (unifyWithin d a b) fun _ _ => True := by
  induction d generalizing n a b with
  | zero => exact .throw _
  | succ d ih =>
    refine (fresh_resolve ha).bind fun a n₁ hn₁ ha => (fresh_resolve (hb.below hn₁)).bind fun b n₂ hn₂ hb => ?_
    refine .ite (q := fun h => a.same h.now.context.options.budget b) (.pure fun _ _ => trivial) ?_
    refine (fresh_enter _ _).bind fun _ n₃ hn₃ _ => ?_
    have ha := ha.below (hn₂.trans hn₃)
    have hb := hb.below hn₃
    exact (fresh_carryOut ih ha hb (ha.plan hb)).bind fun _ _ _ _ => fresh_leave _ _

theorem fresh_unify {a b : OpenTy} (ha : a.Among (Below n)) (hb : b.Among (Below n)) :
    StaysFresh n (unify a b) fun _ _ => True :=
  fun h hh hn => fresh_unifyWithin h.now.context.options.depth ha hb h hh hn

theorem fresh_declare (e : Term) {t : OpenTy} (ht : t.Among (Below n)) :
    StaysFresh n (declare e t) fun _ _ => True := by
  refine (fresh_resolve ht).bind fun t _ _ ht => (fresh_emit _ _).bind fun _ _ hle _ => .of_get fun h hh hn => ?_
  have ht := ht.below (hle.trans hn)
  cases hj : h.now.context.judgment? e with
  | some j => exact fresh_unify ht (hh.now.judgment? hj) h hh (Nat.le_refl _)
  | none =>
    refine .ok (hh.next ⟨.judge ⟨e, t⟩, hh.now.store, ?_, hh.now.scopes⟩ (by simp)) trivial
    exact List.forall_mem_cons.mpr ⟨ht, hh.now.judgments⟩

theorem fresh_judged (e : Term) {m : HistoryM Unit} (hm : ∀ {n}, StaysFresh n m fun _ _ => True) :
    StaysFresh n (judged e m) fun t k => t.Among (Below k) :=
  (fresh_enter _ _).bind fun _ _ _ _ => hm.bind fun _ _ _ _ => (fresh_typeOf e).bind fun _ _ _ ht =>
    (fresh_leave _ _).bind fun _ _ hn _ => .pure fun _ hk => ht.below (hn.trans hk)

theorem fresh_checkVar (x : String) (l : Option Location) :
    StaysFresh n (checkVar x l) fun t k => t.Among (Below k) := by
  have hdeclare {n : Nat} : StaysFresh n (do declare (.var x l) (← find newUnknown)) fun _ _ => True :=
    fresh_newUnknown.bind fun _ _ _ ht => fresh_declare _ ht
  exact fresh_judged _ (.ite (q := fun h => h.now.context.binds x) hdeclare
    ((fresh_typeOf _).bind fun _ _ _ _ => hdeclare))

theorem fresh_checkTerm (e : Term) : StaysFresh n (checkTerm e) fun t k => t.Among (Below k) := by
  induction e generalizing n with
  | var x l => exact fresh_checkVar x l
  | lit v => exact fresh_judged _ (fresh_declare _ (OpenTy.among_ground _))
  | lam x b ih =>
    have hbody {n : Nat} : StaysFresh n (do let b ← checkTerm b; let a ← checkVar x none; return (a, b))
        fun p k => p.1.Among (Below k) ∧ p.2.Among (Below k) :=
      ih.bind fun _ _ _ hb => (fresh_checkVar x none).bind fun _ _ hn ha =>
        .pure fun _ hk => ⟨ha.below hk, hb.below (hn.trans hk)⟩
    exact fresh_judged _ ((hbody.withScope _ _).bind fun _ _ _ h => fresh_declare _ h)
  | app f a ihf iha =>
    refine fresh_judged _ (ihf.bind fun _ _ _ hf => iha.bind fun _ _ hn ha => fresh_newUnknown.bind
      fun _ _ hn' hr => ?_)
    refine (fresh_unify (b := .fn _ _) (hf.below (hn.trans hn')) ⟨ha.below hn', hr⟩).bind fun _ _ hn _ => ?_
    exact fresh_declare _ (hr.below hn)
  | recur f x b ih =>
    have hbody {n : Nat} : StaysFresh n (do let b ← checkTerm b; let a ← checkVar x none; let c ← checkVar f none
                                            return (a, b, c))
        fun p k => p.1.Among (Below k) ∧ p.2.1.Among (Below k) ∧ p.2.2.Among (Below k) :=
      ih.bind fun _ _ _ hb => (fresh_checkVar x none).bind fun _ _ hn ha => (fresh_checkVar f none).bind
        fun _ _ hn' hc => .pure fun _ hk => ⟨ha.below (hn'.trans hk), hb.below (hn.trans (hn'.trans hk)), hc.below hk⟩
    refine fresh_judged _ ((hbody.withScope _ _).bind fun _ _ _ h => (fresh_unify h.2.1 h.2.2).bind fun _ _ hn _ => ?_)
    exact fresh_declare _ ⟨h.1.below hn, h.2.1.below hn⟩

theorem fresh_checkStmtBody {s : Stmt} (hs : ∀ x ∈ s.typeNames, x ∈ Below n) :
    StaysFresh n (checkStmtBody s) fun _ _ => True := by
  cases s with
  | define m t e =>
    exact (fresh_resolveTy (OpenTy.among_embed hs)).bind fun _ _ _ ht =>
      ((fresh_checkTerm e).withScope _ _).bind fun _ _ hn hs => (fresh_unify (ht.below hn) hs).bind
        fun _ _ hn' _ => fresh_declare _ (ht.below (hn.trans hn'))
  | fix m t e =>
    exact (fresh_resolveTy (OpenTy.among_embed hs)).bind fun _ _ _ ht => (fresh_declare _ ht).bind fun _ _ hn _ =>
      ((fresh_checkTerm e).withScope _ _).bind fun _ _ hn' hs => fresh_unify (ht.below (hn.trans hn')) hs
  | assume m t => exact (fresh_resolveTy (OpenTy.among_embed hs)).bind fun _ _ _ ht => fresh_declare _ ht
  | synonym x t =>
    obtain ⟨hx, ht⟩ := List.forall_mem_cons.mp hs
    exact (fresh_resolveTy (OpenTy.among_embed ht)).bind fun _ _ hn ht => fresh_bindUnknown (Below.mono hn hx) ht
  | primitive x =>
    have hx := hs x (List.mem_singleton_self x)
    exact (fresh_emit _ _).bind fun _ _ hn _ => fresh_bindUnknown (Below.mono hn hx) (OpenTy.among_ground _)
  | group m l body => exact .throw _

theorem fresh_checkStmts {p : Program} (hp : ∀ x ∈ p.typeNames, x ∈ Below n) :
    StaysFresh n (checkStmts p) fun _ _ => True := by
  induction p generalizing n with
  | nil => exact .pure fun _ _ => trivial
  | cons s p ih =>
    obtain ⟨hs, hp⟩ := List.forall_mem_append.mp hp
    have hstmt : StaysFresh n (checkStmt s) fun _ _ => True :=
      (fresh_enter _ _).bind fun _ _ hn _ => (fresh_checkStmtBody fun x hx => Below.mono hn (hs x hx)).bind
        fun _ _ _ _ => fresh_leave _ _
    exact hstmt.bind fun _ _ hn _ => ih fun x hx => Below.mono hn (hp x hx)

theorem fresh_checkAll {p : Program} (hp : ∀ x ∈ p.typeNames, x ∈ Below n) :
    StaysFresh n (checkAll p) fun _ _ => True :=
  (fresh_enter _ _).bind fun _ _ hn _ => (fresh_checkStmts fun x hx => Below.mono hn (hp x hx)).bind
    fun _ _ _ _ => fresh_leave _ _

theorem found_of_act {m : CheckM Unit} {h h' : History} (hrun : act m h = .ok () h') : h'.now.found = h.now.found := by
  rw [act, step] at hrun
  cases hr : m h.now.context with
  | ok _ c =>
    rw [hr] at hrun
    cases hrun
    rfl
  | error e c =>
    rw [hr] at hrun
    cases hrun

theorem mem_found_of_find {m : CheckM OpenTy} {h h' : History} {t : OpenTy} (hrun : find m h = .ok t h') :
    t ∈ h'.now.found := by
  rw [find, step] at hrun
  cases hr : m h.now.context with
  | ok a c =>
    rw [hr] at hrun
    cases hrun
    exact List.mem_cons_self
  | error e c =>
    rw [hr] at hrun
    cases hrun

theorem mem_found_of_judged {e : Term} {m : HistoryM Unit} {h h' : History} {t : OpenTy}
    (hrun : judged e m h = .ok t h') : t ∈ h'.now.found := by
  obtain ⟨_, _, -, hrun⟩ := bind_eq_ok hrun
  obtain ⟨_, _, -, hrun⟩ := bind_eq_ok hrun
  obtain ⟨_, _, htype, hrun⟩ := bind_eq_ok hrun
  obtain ⟨_, _, hleave, hrun⟩ := bind_eq_ok hrun
  cases hrun
  rw [found_of_act hleave]
  exact mem_found_of_find htype

theorem mem_found_of_checkTerm {e : Term} {h h' : History} {t : OpenTy} (hrun : checkTerm e h = .ok t h') :
    t ∈ h'.now.found := by
  cases e with
  | var | lit | lam | app | recur => exact mem_found_of_judged hrun

end HistoryM

theorem History.fresh_start {options : Options} (hroll : options.rollback = false) (trace : Trace) :
    (History.start (.new options trace)).Fresh where
  rollback := hroll
  linked := .singleton _
  self m hm := by
    cases List.mem_singleton.mp hm
    refine ⟨⟨?_, ?_, ?_⟩, ?_⟩ <;> simp [History.start, Context.new, Store.Over]
  earlier := List.pairwise_singleton _ _

/-- If numbers are never taken back and no type of the program is named like an unknown, then at every moment of a run,
accepted or not, new unknowns are new to that moment and to all moments before it. The moments are those of `checkAll`,
one action apart, and the types found up to them include all that terms have been checked to have. -/
theorem check_newUnknown_fresh (options : Options) (trace : Trace) {p : Program} (hroll : options.rollback = false)
    (hp : ∀ x ∈ p.typeNames, ∀ i, x ≠ unknownName i) :
    let run := HistoryM.checkAll p (.start (.new options trace))
    let h := HistoryM.final run
    HistoryM.forget run = checkAll p (.new options trace) ∧ h.Linked ∧
      (∃ ms, h.moments = ms ++ [⟨.new options trace, []⟩]) ∧
      (∀ e s t s', HistoryM.checkTerm e s = .ok t s' → t ∈ s'.now.found) ∧
      ∀ later m earlier, h.moments = later ++ m :: earlier →
        (∀ m' ∈ m :: earlier, ∀ i ≥ m.context.counter, unknownName i ∉ m'.unknowns) ∧
        ∃ x d, newUnknown m.context = .ok (.unknown x) d ∧ m.context.store.Unbound x ∧
          ∀ m' ∈ m :: earlier, x ∉ m'.unknowns := by
  intro run h
  have hstays := HistoryM.fresh_checkAll (n := 0) fun x hx i _ => hp x hx i
  have hlead := (hstays _ (History.fresh_start hroll trace) (Nat.zero_le _)).leads
  obtain ⟨ms, hms⟩ := hlead.suffix
  refine ⟨HistoryM.follows_checkAll p _, hlead.fresh.linked, ⟨ms, hms.symm⟩, ?_, ?_⟩
  · exact fun _ _ _ _ => HistoryM.mem_found_of_checkTerm
  intro later m earlier hsplit
  have hamong {m' : Moment} : m' ∈ m :: earlier → m'.Among (Below m.context.counter) :=
    hlead.fresh.among_of_split hsplit
  have hnew : ∀ m' ∈ m :: earlier, ∀ i ≥ m.context.counter, unknownName i ∉ m'.unknowns :=
    fun m' hm' i hi hmem => (hamong hm').mem hmem i hi rfl
  refine ⟨hnew, unknownName m.context.counter, _, newUnknown_run m.context, fun b hb hname => ?_, fun m' hm' => ?_⟩
  · exact ((hamong List.mem_cons_self).context.store b hb).1 _ (Nat.le_refl _) hname
  · exact hnew m' hm' _ (Nat.le_refl _)

theorem check_newUnknown_fresh_nested :
    let p : Program := [.primitive "A", .define "f" (.fn (.name "A") (.fn (.name "A") (.name "A")))
      (.lam "x" (.lam "y" (.var "x" none)))]
    let h := HistoryM.final (HistoryM.checkAll p (.start (.new {} (.new false))))
    (∀ x ∈ p.typeNames, ∀ i, x ≠ unknownName i) ∧ h.moments.any (·.context.scopes.length == 3) = true ∧
      h.counter = 3 ∧ ∀ m ∈ h.moments, "t3" ∉ m.unknowns := by
  intro p h
  have hp : ∀ x ∈ p.typeNames, ∀ i, x ≠ unknownName i := by
    intro x hx i hxi
    have hlist := congrArg String.toList hxi
    simp only [p, Program.typeNames, Stmt.typeNames, Ty.names, List.append_nil, List.mem_append, List.mem_singleton,
      or_self] at hx
    simp [hx, unknownName] at hlist
  have hcounter : h.counter = 3 := by decide +kernel
  refine ⟨hp, by decide +kernel, hcounter, fun m hm => ?_⟩
  have hfresh := (check_newUnknown_fresh {} (.new false) rfl hp).2.2.2.2 [] h.now h.past rfl
  exact hfresh.1 m hm 3 (Nat.le_of_eq hcounter)

end IndexedTyping
