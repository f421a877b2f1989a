import IndexedTyping.Proofs.Unify.Strict

namespace IndexedTyping

open OpenTy CheckM

structure Context.Retained (c d : Context) : Prop where
  options : d.options = c.options
  store : c.store <+: d.store
  judgments : ∀ e j, c.judgment? e = some j → d.judgment? e = some j

namespace Context

variable {c d e : Context}

theorem Retained.refl (c : Context) : c.Retained c := ⟨rfl, List.prefix_rfl, fun _ _ h => h⟩

theorem Retained.trans (hcd : c.Retained d) (hde : d.Retained e) : c.Retained e :=
  ⟨hde.options.trans hcd.options, hcd.store.trans hde.store, fun f j h => hde.judgments f j (hcd.judgments f j h)⟩

theorem Later.retained (h : c.Later d) : c.Retained d := ⟨h.options, h.store, h.judgments⟩

end Context

namespace CheckM

def Idles (m : CheckM Unit) (c : Context) : Prop :=
  Ends (m c) (fun _ d => ∃ t, d = { c with trace := t }) fun _ _ => False

namespace Idles

variable {m k : CheckM Unit} {c : Context} {a b : OpenTy} {n : Nat}

theorem eq_ok (h : Idles m c) : ∃ t, m c = .ok () { c with trace := t } := by
  rw [Idles] at h
  cases hr : m c with
  | ok _ d =>
    rw [hr] at h
    obtain ⟨t, rfl⟩ := h
    exact ⟨t, rfl⟩
  | error err d =>
    rw [hr] at h
    exact h.elim

theorem seq (hm : Idles m c) (hk : ∀ t, Idles k { c with trace := t }) : Idles (do m; k) c := by
  refine ends_bind.mpr (hm.mono ?_ fun _ _ h => h)
  rintro _ _ ⟨t, rfl⟩
  exact hk t

theorem unifyWithin_of_same (hc : c.Strict) (n : Nat)
    (h : (c.store.apply a).same c.options.budget (c.store.apply b) = true) : Idles (unifyWithin (n + 1) a b) c := by
  rw [Idles, hc.triangular.unifyWithin_succ]
  simp only [h, if_true]
  exact ⟨c.trace, rfl⟩

theorem unifyWithin_of_plan (hc : c.Strict)
    (h : ∀ t, Idles (carryOut (unifyWithin n) (c.store.apply a) (c.store.apply b)
      ((c.store.apply a).plan (c.store.apply b))) { c with trace := t }) : Idles (unifyWithin (n + 1) a b) c := by
  refine hc.ends_unifyWithin n a b (fun _ => ⟨c.trace, rfl⟩) fun _ t => (h t).mono ?_ fun _ _ h => h
  rintro _ _ ⟨_, rfl⟩ t'
  exact ⟨t', rfl⟩

theorem unifyWithin_congr (hc : c.Strict) (h : Idles (unifyWithin n a b) c) {a' b' : OpenTy}
    (ha : c.store.apply a' = c.store.apply a) (hb : c.store.apply b' = c.store.apply b) :
    Idles (unifyWithin n a' b') c := by
  cases n with
  | zero => exact h.elim
  | succ n =>
    rw [Idles, hc.unifyWithin_congr n ha hb]
    exact h

end Idles

end CheckM

def StableWithin (n : Nat) : Prop :=
  ∀ {a b c d e}, c.Strict → unifyWithin n a b c = .ok () d → e.Strict → d.Retained e → Idles (unifyWithin n a b) e

namespace StableWithin

variable {n : Nat} {c d e : Context} (hn : StableWithin n)
include hn

theorem unify {p q : OpenTy} (hc : c.Strict) (h : unifyWithin n p q c = .ok () d) (he : e.Strict) (hde : d.Retained e) :
    Idles (unifyWithin n (e.store.apply p) (e.store.apply q)) e :=
  (hn hc h he hde).unifyWithin_congr he (he.triangular.apply_apply p) (he.triangular.apply_apply q)

theorem unifyTypes {f g : Term} (hc : c.Strict) (h : CheckM.unifyTypes (unifyWithin n) f g c = .ok () d)
    (he : e.Strict) (hde : d.Retained e) : Idles (CheckM.unifyTypes (unifyWithin n) f g) e := by
  obtain ⟨i, j, hi, hj, h⟩ := hc.unifyTypes_eq_ok h
  have hce := (hc.unifyWithin h).2.retained.trans hde
  have happly := hc.triangular.apply_apply_of_prefix hce.store
  have hidle := hn.unify hc h he hde
  rw [happly, happly] at hidle
  rw [Idles, he.unifyTypes_run _ (hce.judgments f i hi) (hce.judgments g j hj)]
  exact hidle

theorem carryOut {a b : OpenTy} {P : Plan} (hP : ∀ x t, P ≠ .bind x t) (hc : c.Strict)
    (h : CheckM.carryOut (unifyWithin n) a b P c = .ok () d) (he : e.Strict) (hde : d.Retained e) :
    Idles (CheckM.carryOut (unifyWithin n) (e.store.apply a) (e.store.apply b) (P.map e.store.apply)) e := by
  have htrace : ∀ t, d.Retained { e with trace := t } := fun _ => ⟨hde.options, hde.store, hde.judgments⟩
  cases P with
  | bind x t => exact absurd rfl (hP x t)
  | parts p q p' q' =>
    obtain ⟨_, c₁, hfirst, hsecond⟩ := bind_eq_ok h
    obtain ⟨hc₁, -⟩ := hc.unifyWithin hfirst
    obtain ⟨-, hlater⟩ := hc₁.unifyWithin hsecond
    refine (hn.unify hc hfirst he (hlater.retained.trans hde)).seq fun t => ?_
    exact hn.unify hc₁ hsecond (he.trace t) (htrace t)
  | quantified f g p q =>
    rw [carryOut_quantified] at h
    rw [Plan.map, carryOut_quantified]
    obtain ⟨_, c₁, hfirst, hsecond⟩ := bind_eq_ok h
    obtain ⟨_, _, _, _, htypes⟩ := hc.unifyTypes_eq_ok hfirst
    obtain ⟨hc₁, -⟩ := hc.unifyWithin htypes
    obtain ⟨-, hlater⟩ := hc₁.unifyWithin hsecond
    refine (hn.unifyTypes hc hfirst he (hlater.retained.trans hde)).seq fun t => ?_
    exact hn.unify hc₁ hsecond (he.trace t) (htrace t)
  | indexed p q f g =>
    rw [carryOut_indexed] at h
    rw [Plan.map, carryOut_indexed]
    obtain ⟨_, c₁, hfirst, hsecond⟩ := bind_eq_ok h
    obtain ⟨hc₁, -⟩ := hc.unifyWithin hfirst
    obtain ⟨_, _, _, _, htypes⟩ := hc₁.unifyTypes_eq_ok hsecond
    obtain ⟨-, hlater⟩ := hc₁.unifyWithin htypes
    refine (hn.unify hc hfirst he (hlater.retained.trans hde)).seq fun t => ?_
    exact hn.unifyTypes hc₁ hsecond (he.trace t) (htrace t)
  | swap => exact hn.unify hc h he hde
  | clash => cases h

end StableWithin

theorem stableWithin (n : Nat) : StableWithin n := by
  induction n with
  | zero =>
    intro a b c d e _ h
    cases h
  | succ n ih =>
    intro a b c d e hc h he hde
    have hce := (hc.unifyWithin h).2.retained.trans hde
    have happly := hc.triangular.apply_apply_of_prefix hce.store
    by_cases hx : ∃ x, c.store.apply a = .unknown x ∨ c.store.apply b = .unknown x
    · -- an unknown has been bound to the other type, and the two are the same ever after
      have heq := Store.apply_eq_of_prefix hde.store (hc.equates_of_unknown hx h).equal
      exact .unifyWithin_of_same he n (heq ▸ same_refl _ _)
    · simp only [not_exists, not_or, forall_and] at hx
      rcases hc.unifyWithin_eq_ok h with ⟨hsame, rfl⟩ | ⟨-, t, t', d', hrun, rfl⟩
      · have hsame := e.store.same_apply hsame
        rw [happly, happly, ← hce.options] at hsame
        exact .unifyWithin_of_same he n hsame
      · refine .unifyWithin_of_plan he fun t => ?_
        rw [← happly a, ← happly b, e.store.plan_apply hx.1 hx.2]
        refine ih.carryOut (plan_ne_bind hx.1 hx.2) (hc.trace _) hrun (he.trace t) ?_
        exact ⟨hde.options, hde.store, hde.judgments⟩

/-- `d` comes from `c` by operations, whether they succeed or fail, under which what was open in `c` stays open. -/
inductive Onward (c : Context) : Context → Prop
  | refl : Onward c c
  | after (op : Operation) : Onward c d → c.scopes.length ≤ (op.after d).scopes.length → Onward c (op.after d)

namespace Onward

variable {c d : Context}

theorem reachable (h : Onward c d) (hc : Reachable c) : Reachable d := by
  induction h with
  | refl => exact hc
  | after op _ _ ih => exact ih.after op

structure Keeps (c d : Context) : Prop where
  retained : c.Retained d
  scopes : ∃ opened, d.scopes = opened ++ c.scopes ∧ ∀ s ∈ opened, c.store <+: s.store ∧
    ∀ e j, c.judgment? e = some j → s.judgments.find? (fun i => e.same i.term) = some j

theorem Keeps.openScope (h : Keeps c d) (label : String) (binders : List String) :
    Keeps c (d.openScope label binders) := by
  obtain ⟨opened, hscopes, hopened⟩ := h.scopes
  refine ⟨⟨h.retained.options, h.retained.store, h.retained.judgments⟩, _ :: opened, congrArg _ hscopes, ?_⟩
  exact List.forall_mem_cons.mpr ⟨⟨h.retained.store, h.retained.judgments⟩, hopened⟩

theorem Keeps.closeScope (h : Keeps c d) (hlength : c.scopes.length ≤ d.closeScope.scopes.length) :
    Keeps c d.closeScope := by
  obtain ⟨opened, hscopes, hopened⟩ := h.scopes
  obtain ⟨options, trace, counter, store, judgments, scopes⟩ := d
  cases scopes with
  | nil => exact h
  | cons s outer =>
    cases opened with
    | nil =>
      rw [List.nil_append] at hscopes
      rw [← hscopes] at hlength
      exact absurd hlength (Nat.not_succ_le_self _)
    | cons s' opened =>
      obtain ⟨rfl, rfl⟩ := List.cons.inj hscopes
      obtain ⟨hs, hopened⟩ := List.forall_mem_cons.mp hopened
      exact ⟨⟨h.retained.options, hs.1, hs.2⟩, opened, rfl, hopened⟩

theorem keeps (h : Onward c d) : Keeps c d := by
  induction h with
  | refl => exact ⟨.refl c, [], rfl, by simp⟩
  | @after d op _ hlength ih =>
    cases hop : op.isScope with
    | false =>
      have hlater := Operation.after_of_obeys (Context.Later.law.obeys_run_of_not_isScope hop) d
      exact ⟨ih.retained.trans hlater.retained, hlater.scopes ▸ ih.scopes⟩
    | true =>
      cases op with
      | openScope label binders => exact ih.openScope label binders
      | closeScope => exact ih.closeScope hlength
      | _ => cases hop

end Onward

/-- Under the strict occurs check, two types of any shape that have been unified in a reachable context can be unified
again in every context that operations lead to from there, unless they close a scope that was open. Doing so binds
nothing. To unify a type with itself binds nothing from the start. -/
theorem unify_stable {c : Context} (hc : Reachable c) (hstrict : c.options.strictOccurs = true) :
    (∀ a b d, unify a b c = .ok () d → ∀ e, Onward d e → ∃ t, unify a b e = .ok () { e with trace := t }) ∧
      (0 < c.options.depth → ∀ a, unify a a c = .ok () c) := by
  have hcs := Context.Strict.of_reachable hc hstrict
  refine ⟨fun a b d h e hde => ?_, fun hdepth a => ?_⟩
  · obtain ⟨hd, hlater⟩ := hcs.unifyWithin h
    have hreach : Reachable d := by
      have hafter : (Operation.unify a b).after c = d := by rw [Operation.after, Operation.run, h]
      exact hafter ▸ hc.after _
    have hretained := hde.keeps.retained
    have hoptions := hretained.options.trans hlater.options
    have he : e.Strict := .of_reachable (hde.reachable hreach) (hoptions ▸ hstrict)
    have hdepth : unify a b e = unifyWithin c.options.depth a b e := by rw [unify_run, hoptions]
    rw [hdepth]
    exact (stableWithin _ hcs h he hretained).eq_ok
  · obtain ⟨n, hn⟩ := Nat.exists_eq_add_of_lt hdepth
    rw [unify_run, hn, Nat.zero_add, hcs.triangular.unifyWithin_succ]
    simp

theorem unify_stable_vector :
    let nat : OpenTy := .ground (.prim .nat)
    let c := (Operation.declare (.var "j" none) nat).after ((Operation.declare (.var "k" none) (.unknown "i")).after
      (.new { strictOccurs := true } (.new false)))
    let a : OpenTy := .fn (.unknown "p") (.indexed (.unknown "h") (.var "k" none))
    let b : OpenTy := .fn (.fn (.unknown "q") nat) (.ground (.indexed (.name "Vec") (.var "j" none)))
    let d := (Operation.unify a b).after c
    let e := (Operation.checkTerm (.lam "x" (.var "k" none))).after
      ((Operation.openScope "scope" ["x"]).after ((Operation.bindUnknown "q" (.ground (.name "Nat"))).after d))
    Reachable c ∧ unify a b c = .ok () d ∧ d.store.names = ["p", "h", "i"] ∧ Onward d e ∧
      e.store.names = ["p", "h", "i", "q"] ∧ (∃ t, unify a b e = .ok () { e with trace := t }) ∧
      unify a a c = .ok () c := by
  intro nat c a b d e
  have hc : Reachable c := .after _ (.after _ (.new _ _))
  have hd : unify a b c = .ok () d := by
    obtain ⟨_, d', h⟩ : ∃ u d', unify a b c = .ok u d' := exists_ok_of_isSome (by decide +kernel)
    have hafter : d = d' := by rw [show d = (Operation.unify a b).after c from rfl, Operation.after, Operation.run, h]
    rw [hafter]
    exact h
  have hde : Onward d e :=
    .after _ (.after _ (.after _ .refl (by decide +kernel)) (by decide +kernel)) (by decide +kernel)
  obtain ⟨hstable, hrefl⟩ := unify_stable hc (by decide +kernel)
  exact ⟨hc, hd, by decide +kernel, hde, by decide +kernel, hstable a b d hd e hde, hrefl (by decide +kernel) a⟩

end IndexedTyping
