import IndexedTyping.Proofs.Check.Nesting
import IndexedTyping.Proofs.Unify.Strict

namespace IndexedTyping

open OpenTy CheckM

def Plan.flip : Plan → Plan
  | bind x t => bind x t
  | parts p q p' q' => parts q p q' p'
  | quantified e f p q => quantified f e q p
  | indexed p q e f => indexed q p f e
  | swap => swap
  | clash => clash

theorem OpenTy.plan_comm {a b : OpenTy} (hbind : ∀ x t, a.plan b ≠ .bind x t) (hswap : a.plan b ≠ .swap)
    (hclash : a.plan b ≠ .clash) : b.plan a = (a.plan b).flip ∨ b.plan a = .swap ∨
      b.plan a = .clash ∧ (∃ x l p, b = .all x l p) ∧ ∃ y k t, a = .ground (.all y k t) := by
  cases a with
  | unknown x => exact absurd (plan_unknown x b) (hbind x b)
  | ground t =>
    cases b with
    | unknown x => exact absurd rfl (hbind x (.ground t))
    | _ => cases t <;> simp_all [plan, Plan.flip, isComposite]
  | _ => cases b <;> simp_all [plan, Plan.flip, isComposite]

/-- Two contexts that differ in which of two equal unknowns is bound to the other. -/
structure Context.Twins (c d : Context) : Prop where
  left : c.Strict
  right : d.Strict
  options : d.options = c.options
  judgments : d.judgments = c.judgments
  satisfies : c.store.Satisfies d.store
  satisfied : d.store.Satisfies c.store

namespace Context.Twins

variable {c d : Context} (h : c.Twins d)
include h

theorem symm : d.Twins c := ⟨h.right, h.left, h.options.symm, h.judgments.symm, h.satisfied, h.satisfies⟩

theorem trace (t t' : Trace) : Twins { c with trace := t } { d with trace := t' } :=
  ⟨h.left.trace t, h.right.trace t', h.options, h.judgments, h.satisfies, h.satisfied⟩

theorem judgment? (e : Term) : d.judgment? e = c.judgment? e := by
  rw [Context.judgment?, Context.judgment?, h.judgments]

theorem apply_apply (t : OpenTy) : d.store.apply (c.store.apply t) = d.store.apply t := h.satisfied.apply_apply t

theorem exists_unknown {x : String} {t : OpenTy} (ht : c.store.apply t = .unknown x) :
    ∃ y, d.store.apply t = .unknown y := by
  rw [← h.symm.apply_apply] at ht
  exact Store.exists_unknown_of_apply ht

theorem same {a b : OpenTy} (hsame : (c.store.apply a).same c.options.budget (c.store.apply b) = true) :
    (d.store.apply a).same d.options.budget (d.store.apply b) = true := by
  have hsame := d.store.same_apply hsame
  rwa [h.apply_apply, h.apply_apply, ← h.options] at hsame

theorem plan {a b : OpenTy} (ha : ∀ x, c.store.apply a ≠ .unknown x) (hb : ∀ x, c.store.apply b ≠ .unknown x) :
    (d.store.apply a).plan (d.store.apply b) = ((c.store.apply a).plan (c.store.apply b)).map d.store.apply := by
  rw [← d.store.plan_apply ha hb, h.apply_apply, h.apply_apply]

end Context.Twins

def Store.Pairs (s : Store) (a b p q : OpenTy) : Prop :=
  s.apply p = s.apply a ∧ s.apply q = s.apply b ∨ s.apply p = s.apply b ∧ s.apply q = s.apply a

theorem Store.Pairs.apply_eq_iff {s r : Store} {a b p q : OpenTy} (h : s.Pairs a b p q) (hr : r.Satisfies s) :
    r.apply p = r.apply q ↔ r.apply a = r.apply b := by
  rw [← hr.apply_apply p, ← hr.apply_apply q]
  rcases h with ⟨hp, hq⟩ | ⟨hp, hq⟩
  · rw [hp, hq, hr.apply_apply, hr.apply_apply]
  · rw [hp, hq, hr.apply_apply, hr.apply_apply]
    exact eq_comm

theorem Store.Pairs.mono {s r : Store} {a b p q : OpenTy} (h : s.Pairs a b p q) (hr : r.Satisfies s) :
    r.Pairs a b p q := by
  rw [Pairs, ← hr.apply_apply a, ← hr.apply_apply b, ← hr.apply_apply p, ← hr.apply_apply q]
  exact h.imp (And.imp (congrArg _) (congrArg _)) (And.imp (congrArg _) (congrArg _))

def CheckError.OneSided (e : CheckError) : Prop :=
  (∃ a b, e = .tooDeep a b) ∨
    ∃ x l a b, e = .mismatch (.all x l a) b ∧ ((∃ y, b = .unknown y) ∨ ∃ y k t, b = .ground (.all y k t))

namespace Context.Strict

variable {c : Context} {a b : OpenTy} {r : Store}

theorem ends_bindUnknown (hc : c.Strict) {x : String} (hx : c.store.apply (.unknown x) = .unknown x)
    (ha : c.store.apply a = a) (hne : a ≠ .unknown x) (hr : r.apply (.unknown x) = r.apply a) :
    Ends (bindUnknown x a c) (fun _ _ => True) fun _ _ => False := by
  have hb : c.store.binding x a = .ok ⟨x, a⟩ := by
    rw [Store.binding, hc.resolve, hc.resolve, hx, ha]
    rfl
  rw [bindUnknown_run, hb]
  dsimp only
  cases hs : c.store.insert c.options.strictOccurs ⟨x, a⟩ with
  | ok s => trivial
  | error e =>
    obtain ⟨hrefuses, -⟩ := Store.insert_eq_error hs
    have hmem : x ∈ a.unknowns := Store.loops_of_refuses hrefuses
    refine not_agree_bind_of_mem (fun y => r.apply (.unknown y)) hmem hne ?_
    rw [← r.apply_eq_bind, ← hr]
    exact .refl _

theorem oneSided_of_unknown (hc : c.Strict) (hx : ∃ x, c.store.apply a = .unknown x ∨ c.store.apply b = .unknown x)
    (hr : r.Satisfies c.store) (hab : r.apply a = r.apply b) (n : Nat) :
    Ends (CheckM.unifyWithin n a b c) (fun _ _ => True) fun e _ => e.OneSided := by
  induction n generalizing a b c with
  | zero => exact .inl ⟨_, _, rfl⟩
  | succ n ih =>
    refine hc.ends_unifyWithin n a b (fun _ => trivial) fun hne t => ?_
    have hne : c.store.apply a ≠ c.store.apply b := fun h => hne (h ▸ same_refl _ _)
    have hfixed := hc.triangular.apply_apply
    have hab : r.apply (c.store.apply a) = r.apply (c.store.apply b) := by rw [hr.apply_apply, hr.apply_apply, hab]
    obtain ⟨x, hx | hx⟩ := hx
    · have hxx : c.store.apply (.unknown x) = .unknown x := hx ▸ hfixed a
      rw [hx] at hne hab ⊢
      rw [plan_unknown]
      have hbind := (hc.trace t).ends_bindUnknown hxx (hfixed b) hne.symm hab
      exact hbind.mono (fun _ _ _ _ => trivial) fun _ _ h => h.elim
    · have hxx : c.store.apply (.unknown x) = .unknown x := hx ▸ hfixed b
      have hbind := (hc.trace t).ends_bindUnknown hxx (hfixed a) (hx ▸ hne) (hx ▸ hab.symm)
      have hswap := ih (hc.trace t) ⟨x, .inl hxx⟩ hr (hx ▸ hab.symm)
      rw [hx] at hne hab ⊢
      cases ha : c.store.apply a with
      | unknown y =>
        have hyy : c.store.apply (.unknown y) = .unknown y := ha ▸ hfixed a
        rw [ha] at hne hab
        exact ((hc.trace t).ends_bindUnknown hyy hxx hne.symm hab).mono (fun _ _ _ _ => trivial) fun _ _ h => h.elim
      | ground _ =>
        rw [ha] at hbind
        exact hbind.mono (fun _ _ _ _ => trivial) fun _ _ h => h.elim
      | fn _ _ | app _ _ | indexed _ _ =>
        rw [ha] at hswap
        exact hswap.mono (fun _ _ _ _ => trivial) fun _ _ h => h
      | all y l s => exact .inr ⟨y, l, s, _, rfl, .inl ⟨x, rfl⟩⟩

end Context.Strict

namespace Context.Twins

variable {c c' d d' : Context} {a b p q : OpenTy} {n m : Nat} (h : c.Twins c')
include h

theorem unifyWithin (hrun : CheckM.unifyWithin n a b c = .ok () d) (hrun' : CheckM.unifyWithin m p q c' = .ok () d')
    (hs : d.store.Satisfies d'.store) (hs' : d'.store.Satisfies d.store) : d.Twins d' := by
  obtain ⟨hd, hlater⟩ := h.left.unifyWithin hrun
  obtain ⟨hd', hlater'⟩ := h.right.unifyWithin hrun'
  refine ⟨hd, hd', ?_, ?_, hs, hs'⟩
  · rw [hlater.options, hlater'.options, h.options]
  · rw [(frame_law.obeys_unifyWithin n a b).of_ok hrun, (frame_law.obeys_unifyWithin m p q).of_ok hrun']
    exact h.judgments

theorem ends_of_unknown (hx : ∃ x, c.store.apply a = .unknown x ∨ c.store.apply b = .unknown x)
    (hrun : CheckM.unifyWithin n a b c = .ok () d) (hpq : c'.store.Pairs a b p q) (m : Nat) :
    Ends (CheckM.unifyWithin m p q c') (fun _ d' => d.Twins d') fun e _ => e.OneSided := by
  have hx' : ∃ x, c'.store.apply p = .unknown x ∨ c'.store.apply q = .unknown x := by
    obtain ⟨x, hx | hx⟩ := hx
    · obtain ⟨y, hy⟩ := h.exists_unknown hx
      rcases hpq with ⟨hp, -⟩ | ⟨-, hq⟩
      · exact ⟨y, .inl (hp.trans hy)⟩
      · exact ⟨y, .inr (hq.trans hy)⟩
    · obtain ⟨y, hy⟩ := h.exists_unknown hx
      rcases hpq with ⟨-, hq⟩ | ⟨hp, -⟩
      · exact ⟨y, .inr (hq.trans hy)⟩
      · exact ⟨y, .inl (hp.trans hy)⟩
  have hequates := h.left.equates_of_unknown hx hrun
  have hsat : d.store.Satisfies c'.store := h.satisfies.of_prefix (h.left.unifyWithin hrun).2.store
  have hdpq := (hpq.apply_eq_iff hsat).mpr hequates.equal
  have hends := h.right.oneSided_of_unknown hx' hsat hdpq m
  cases hrun' : CheckM.unifyWithin m p q c' with
  | error e d' => rwa [hrun'] at hends
  | ok _ d' =>
    have hequates' := h.right.equates_of_unknown hx' hrun'
    have hprefix := (h.right.unifyWithin hrun').2.store
    refine h.unifyWithin hrun hrun' (hequates'.least _ hsat hdpq) ?_
    refine hequates.least _ (h.satisfied.of_prefix hprefix) ?_
    exact (hpq.apply_eq_iff (h.right.triangular.satisfies.of_prefix hprefix)).mp hequates'.equal

end Context.Twins

/-- If a call within the depth `n` succeeds, so do those with the two types in either order, up to a one-sided failure,
and they end in twins. -/
def SymmetricWithin (n : Nat) : Prop :=
  ∀ {a b c d c' p q}, c.Twins c' → unifyWithin n a b c = .ok () d → c'.store.Pairs a b p q → ∀ m,
    Ends (unifyWithin m p q c') (fun _ d' => d.Twins d') fun e _ => e.OneSided

namespace SymmetricWithin

variable {n : Nat} {c c' d : Context} {p q p' q' r s r' s' : OpenTy} {e f e' f' : Term} (hn : SymmetricWithin n)
include hn

theorem parts (h : c.Twins c') (hrun : (do unifyWithin n p q; unifyWithin n p' q' : CheckM Unit) c = .ok () d)
    (hrs : c'.store.Pairs p q r s) (hrs' : c'.store.Pairs p' q' r' s') (m : Nat) :
    Ends ((do unifyWithin m r s; unifyWithin m r' s' : CheckM Unit) c') (fun _ d' => d.Twins d')
      fun e _ => e.OneSided := by
  obtain ⟨_, c₁, hfirst, hsecond⟩ := bind_eq_ok hrun
  have hsat := h.satisfies.of_prefix (h.left.unifyWithin hfirst).2.store
  refine ends_bind.mpr ((hn h hfirst hrs m).mono (fun _ c₁' h₁ => ?_) fun _ _ he => he)
  exact hn h₁ hsecond (hrs'.mono (h₁.satisfied.trans hsat)) m

theorem types (h : c.Twins c') (hrun : unifyTypes (unifyWithin n) e f c = .ok () d)
    (hef : e' = e ∧ f' = f ∨ e' = f ∧ f' = e) (m : Nat) :
    Ends (unifyTypes (unifyWithin m) e' f' c') (fun _ d' => d.Twins d') fun e _ => e.OneSided := by
  obtain ⟨i, j, hi, hj, htypes⟩ := h.left.unifyTypes_eq_ok hrun
  have happly : ∀ t, c'.store.apply (c'.store.apply t) = c'.store.apply (c.store.apply t) := fun t => by
    rw [h.right.triangular.apply_apply, h.apply_apply]
  rw [← h.judgment?] at hi hj
  rcases hef with ⟨rfl, rfl⟩ | ⟨rfl, rfl⟩
  · rw [h.right.unifyTypes_run _ hi hj]
    exact hn h htypes (.inl ⟨happly _, happly _⟩) m
  · rw [h.right.unifyTypes_run _ hj hi]
    exact hn h htypes (.inr ⟨happly _, happly _⟩) m

theorem quantified (h : c.Twins c')
    (hrun : (do unifyTypes (unifyWithin n) e f; unifyWithin n p q : CheckM Unit) c = .ok () d)
    (hef : e' = e ∧ f' = f ∨ e' = f ∧ f' = e) (hrs : c'.store.Pairs p q r s) (m : Nat) :
    Ends ((do unifyTypes (unifyWithin m) e' f'; unifyWithin m r s : CheckM Unit) c') (fun _ d' => d.Twins d')
      fun e _ => e.OneSided := by
  obtain ⟨_, c₁, hfirst, hsecond⟩ := bind_eq_ok hrun
  obtain ⟨_, _, _, _, htypes⟩ := h.left.unifyTypes_eq_ok hfirst
  have hsat := h.satisfies.of_prefix (h.left.unifyWithin htypes).2.store
  refine ends_bind.mpr ((hn.types h hfirst hef m).mono (fun _ c₁' h₁ => ?_) fun _ _ he => he)
  exact hn h₁ hsecond (hrs.mono (h₁.satisfied.trans hsat)) m

theorem indexed (h : c.Twins c')
    (hrun : (do unifyWithin n p q; unifyTypes (unifyWithin n) e f : CheckM Unit) c = .ok () d)
    (hrs : c'.store.Pairs p q r s) (hef : e' = e ∧ f' = f ∨ e' = f ∧ f' = e) (m : Nat) :
    Ends ((do unifyWithin m r s; unifyTypes (unifyWithin m) e' f' : CheckM Unit) c') (fun _ d' => d.Twins d')
      fun e _ => e.OneSided := by
  obtain ⟨_, c₁, hfirst, hsecond⟩ := bind_eq_ok hrun
  refine ends_bind.mpr ((hn h hfirst hrs m).mono (fun _ c₁' h₁ => ?_) fun _ _ he => he)
  exact hn.types h₁ hsecond hef m

theorem carryOut (h : c.Twins c') {a b : OpenTy} {P : Plan} (hbind : ∀ x t, P ≠ .bind x t)
    (hrun : CheckM.carryOut (unifyWithin n) a b P c = .ok () d) (m : Nat) :
    Ends (CheckM.carryOut (unifyWithin m) (c'.store.apply a) (c'.store.apply b) (P.map c'.store.apply) c')
      (fun _ d' => d.Twins d') fun e _ => e.OneSided := by
  have hpairs : ∀ p q, c'.store.Pairs p q (c'.store.apply p) (c'.store.apply q) := fun _ _ =>
    .inl ⟨h.right.triangular.apply_apply _, h.right.triangular.apply_apply _⟩
  cases P with
  | bind x t => exact absurd rfl (hbind x t)
  | parts p q p' q' => exact hn.parts h hrun (hpairs p q) (hpairs p' q') m
  | quantified e f p q =>
    rw [carryOut_quantified] at hrun
    rw [Plan.map, carryOut_quantified]
    exact hn.quantified h hrun (.inl ⟨rfl, rfl⟩) (hpairs p q) m
  | indexed p q e f => exact hn.indexed h hrun (hpairs p q) (.inl ⟨rfl, rfl⟩) m
  | swap => exact hn h hrun (hpairs b a) m
  | clash => cases hrun

theorem carryOut_flip (h : c.Twins c') {a b : OpenTy} {P : Plan} (hbind : ∀ x t, P ≠ .bind x t) (hswap : P ≠ .swap)
    (hrun : CheckM.carryOut (unifyWithin n) a b P c = .ok () d) (m : Nat) :
    Ends (CheckM.carryOut (unifyWithin m) (c'.store.apply b) (c'.store.apply a) (P.flip.map c'.store.apply) c')
      (fun _ d' => d.Twins d') fun e _ => e.OneSided := by
  have hpairs : ∀ p q, c'.store.Pairs p q (c'.store.apply q) (c'.store.apply p) := fun _ _ =>
    .inr ⟨h.right.triangular.apply_apply _, h.right.triangular.apply_apply _⟩
  cases P with
  | bind x t => exact absurd rfl (hbind x t)
  | parts p q p' q' => exact hn.parts h hrun (hpairs p q) (hpairs p' q') m
  | quantified e f p q =>
    rw [carryOut_quantified] at hrun
    rw [Plan.flip, Plan.map, carryOut_quantified]
    exact hn.quantified h hrun (.inr ⟨rfl, rfl⟩) (hpairs p q) m
  | indexed p q e f => exact hn.indexed h hrun (hpairs p q) (.inr ⟨rfl, rfl⟩) m
  | swap => exact absurd rfl hswap
  | clash => cases hrun

theorem forth (h : c.Twins c') {a b : OpenTy} (ha : ∀ x, c.store.apply a ≠ .unknown x)
    (hb : ∀ x, c.store.apply b ≠ .unknown x)
    (hne : ¬(c.store.apply a).same c.options.budget (c.store.apply b) = true) {t : Trace}
    (hrun : CheckM.carryOut (unifyWithin n) (c.store.apply a) (c.store.apply b)
      ((c.store.apply a).plan (c.store.apply b)) { c with trace := t } = .ok () d)
    (hp : c'.store.apply p = c'.store.apply a) (hq : c'.store.apply q = c'.store.apply b) (m : Nat) :
    Ends (unifyWithin m p q c') (fun _ d' => d.Twins d') fun e _ => e.OneSided := by
  cases m with
  | zero => exact .inl ⟨_, _, rfl⟩
  | succ m =>
    refine h.right.ends_unifyWithin m p q (fun hsame => ?_) fun _ t' => ?_
    · rw [hp, hq] at hsame
      exact absurd (h.symm.same hsame) hne
    · have hcarry := hn.carryOut (h.trace t t') (plan_ne_bind ha hb) hrun m
      rw [hp, hq, h.plan ha hb]
      rw [h.apply_apply, h.apply_apply] at hcarry
      exact hcarry.mono (fun _ _ hd t'' => hd.trace d.trace t'') fun _ _ he => he

theorem back (h : c.Twins c') {a b : OpenTy} (ha : ∀ x, c.store.apply a ≠ .unknown x)
    (hb : ∀ x, c.store.apply b ≠ .unknown x)
    (hne : ¬(c.store.apply a).same c.options.budget (c.store.apply b) = true) {t : Trace}
    (hrun : CheckM.carryOut (unifyWithin n) (c.store.apply a) (c.store.apply b)
      ((c.store.apply a).plan (c.store.apply b)) { c with trace := t } = .ok () d)
    (hp : c'.store.apply p = c'.store.apply b) (hq : c'.store.apply q = c'.store.apply a) (m : Nat) :
    Ends (unifyWithin m p q c') (fun _ d' => d.Twins d') fun e _ => e.OneSided := by
  have hbind := plan_ne_bind ha hb
  by_cases hswap : (c.store.apply a).plan (c.store.apply b) = .swap
  · -- the first call goes on the way this one starts
    rw [hswap] at hrun
    refine hn (h.trace t c'.trace) hrun (.inl ⟨?_, ?_⟩) m
    · exact hp.trans (h.apply_apply b).symm
    · exact hq.trans (h.apply_apply a).symm
  have hclash : (c.store.apply a).plan (c.store.apply b) ≠ .clash := by
    intro hclash
    rw [hclash] at hrun
    cases hrun
  cases m with
  | zero => exact .inl ⟨_, _, rfl⟩
  | succ m =>
    refine h.right.ends_unifyWithin m p q (fun hsame => ?_) fun _ t' => ?_
    · rw [hp, hq, same_comm] at hsame
      exact absurd (h.symm.same hsame) hne
    · rw [hp, hq, h.plan hb ha]
      rcases plan_comm hbind hswap hclash with hplan | hplan | ⟨hplan, ⟨x, l, r, hall⟩, y, k, s, hground⟩
      · have hcarry := hn.carryOut_flip (h.trace t t') hbind hswap hrun m
        rw [h.apply_apply, h.apply_apply] at hcarry
        rw [hplan]
        exact hcarry.mono (fun _ _ hd t'' => hd.trace d.trace t'') fun _ _ he => he
      · have hforth := hn.forth (h.trace c.trace t') ha hb hne hrun (h.right.triangular.apply_apply a)
          (h.right.triangular.apply_apply b) m
        rw [hplan]
        exact hforth.mono (fun _ _ hd t'' => hd.trace d.trace t'') fun _ _ he => he
      · rw [hplan, ← h.apply_apply a, ← h.apply_apply b, hall, hground, Store.apply_all, Store.apply_ground]
        exact .inr ⟨x, l, _, _, rfl, .inr ⟨y, k, s, rfl⟩⟩

end SymmetricWithin

theorem symmetricWithin (n : Nat) : SymmetricWithin n := by
  induction n with
  | zero =>
    intro a b c d c' p q _ h
    cases h
  | succ n ih =>
    intro a b c d c' p q h hrun hpq m
    by_cases hx : ∃ x, c.store.apply a = .unknown x ∨ c.store.apply b = .unknown x
    · exact h.ends_of_unknown hx hrun hpq m
    simp only [not_exists, not_or, forall_and] at hx
    rcases h.left.unifyWithin_eq_ok hrun with ⟨hsame, rfl⟩ | ⟨hne, t, t', d', hcarry, rfl⟩
    · have hsame := h.same hsame
      cases m with
      | zero => exact .inl ⟨_, _, rfl⟩
      | succ m =>
        refine h.right.ends_unifyWithin m p q (fun _ => h) fun hne => absurd ?_ hne
        rcases hpq with ⟨hp, hq⟩ | ⟨hp, hq⟩
        · rwa [hp, hq]
        · rwa [hp, hq, same_comm]
    · have hends : Ends (unifyWithin m p q c') (fun _ e => d'.Twins e) fun e _ => e.OneSided := by
        rcases hpq with ⟨hp, hq⟩ | ⟨hp, hq⟩
        · exact ih.forth h hx.1 hx.2 hne hcarry hp hq m
        · exact ih.back h hx.1 hx.2 hne hcarry hp hq m
      exact hends.mono (fun _ e he => he.trace t' e.trace) fun _ _ he => he

def OpenTy.Unquantified : OpenTy → Prop
  | ground _ | unknown _ => True
  | fn a b | app a b => a.Unquantified ∧ b.Unquantified
  | all .. => False
  | indexed a _ => a.Unquantified

theorem OpenTy.Unquantified.hereditary : Hereditary Unquantified where
  unknown _ := trivial
  prim _ := trivial
  fn ha hb := ⟨ha, hb⟩
  part {p a} ha hp := by
    revert ha hp
    fun_cases parts a <;> simp +contextual [Unquantified, or_imp]
  bind {t θ} ht hθ := by
    induction t with
    | ground _ => trivial
    | unknown x => exact hθ x (List.mem_singleton_self x)
    | fn a b iha ihb | app a b iha ihb =>
      exact ⟨iha ht.1 fun x hx => hθ x (List.mem_append_left _ hx),
        ihb ht.2 fun x hx => hθ x (List.mem_append_right _ hx)⟩
    | all _ _ _ => exact ht.elim
    | indexed a _ ih => exact ih ht hθ

namespace Context.Strict

variable {c d : Context} {a b : OpenTy} (hc : c.Strict)
include hc

theorem twins : c.Twins c := ⟨hc, hc, rfl, rfl, hc.triangular.satisfies, hc.triangular.satisfies⟩

theorem ends_unify_flip (h : CheckM.unify a b c = .ok () d) :
    Ends (CheckM.unify b a c) (fun _ d' => d.Twins d') fun e _ => e.OneSided :=
  symmetricWithin _ hc.twins h (.inr ⟨rfl, rfl⟩) _

theorem exists_unify_flip (hU : c.Throughout Unquantified) (ha : a.Unquantified) (hb : b.Unquantified)
    (hdeep : ∀ p q d, CheckM.unify b a c ≠ .error (.tooDeep p q) d) (h : CheckM.unify a b c = .ok () d) :
    ∃ d', CheckM.unify b a c = .ok () d' := by
  have hflip := hc.ends_unify_flip h
  have hblames := Unquantified.hereditary.blames_unifyWithin c.options.depth hb ha c hU
  rw [← unify_run] at hblames
  cases hr : CheckM.unify b a c with
  | ok _ d' => exact ⟨d', rfl⟩
  | error e d' =>
    rw [hr] at hflip hblames
    rcases hflip with ⟨p, q, rfl⟩ | ⟨x, l, p, q, rfl, -⟩
    · exact absurd hr (hdeep p q d')
    · exact (hblames _ _ rfl).1.elim

end Context.Strict

/-- Under the strict occurs check, if two types can be unified in a reachable context then they can be unified the other
way round with the same result, but for the choice of which unknown is bound to which, unless that call comes to a
quantified type with parts of its own on its left, and on its right to an unknown or a ground quantified type. Where no
quantified type with parts of its own is in the two types, the store and the judgments, it makes no difference which of
the two comes first. Calls that go deeper than allowed are left out. -/
theorem unify_comm {c : Context} (hc : Reachable c) (hstrict : c.options.strictOccurs = true) {a b : OpenTy}
    (hab : ∀ p q d, unify a b c ≠ .error (.tooDeep p q) d) (hba : ∀ p q d, unify b a c ≠ .error (.tooDeep p q) d) :
    (∀ d, unify a b c = .ok () d → (∃ d', unify b a c = .ok () d' ∧ d.Twins d') ∨
      ∃ x l p q d', unify b a c = .error (.mismatch (.all x l p) q) d' ∧
        ((∃ y, q = .unknown y) ∨ ∃ y k t, q = .ground (.all y k t))) ∧
    (a.Unquantified → b.Unquantified → (∀ bd ∈ c.store, bd.value.Unquantified) →
      (∀ j ∈ c.judgments, j.type.Unquantified) →
      ((∃ d, unify a b c = .ok () d) ↔ ∃ d, unify b a c = .ok () d)) := by
  have hcs := Context.Strict.of_reachable hc hstrict
  refine ⟨fun d h => ?_, fun ha hb hstore hjudgments => ?_⟩
  · have hflip := hcs.ends_unify_flip h
    cases hr : unify b a c with
    | ok _ d' =>
      rw [hr] at hflip
      exact .inl ⟨d', rfl, hflip⟩
    | error e d' =>
      rw [hr] at hflip
      rcases hflip with ⟨p, q, rfl⟩ | ⟨x, l, p, q, rfl, hq⟩
      · exact absurd hr (hba p q d')
      · exact .inr ⟨x, l, p, q, d', rfl, hq⟩
  · have hU := Context.Throughout.of_reachable hc hstore hjudgments
    refine ⟨?_, ?_⟩
    · rintro ⟨d, h⟩
      exact hcs.exists_unify_flip hU ha hb hba h
    · rintro ⟨d, h⟩
      exact hcs.exists_unify_flip hU hb ha hab h

theorem unify_comm_vector :
    let nat : OpenTy := .ground (.prim .nat)
    let c := (Operation.declare (.var "j" none) nat).after ((Operation.declare (.var "k" none) (.unknown "i")).after
      (.new { strictOccurs := true } (.new false)))
    let a : OpenTy := .fn (.unknown "p") (.indexed (.unknown "h") (.var "k" none))
    let b : OpenTy := .fn (.unknown "q") (.ground (.indexed (.name "Vec") (.var "j" none)))
    Reachable c ∧ ((Operation.unify a b).after c).store.names = ["p", "h", "i"] ∧
      ((Operation.unify b a).after c).store.names = ["q", "h", "i"] ∧
      ((∃ d, unify a b c = .ok () d) ↔ ∃ d, unify b a c = .ok () d) ∧
      ∃ d d', unify a b c = .ok () d ∧ unify b a c = .ok () d' ∧ d.Twins d' := by
  intro nat c a b
  have hc : Reachable c := .after _ (.after _ (.new _ _))
  obtain ⟨_, d, hd⟩ : ∃ u d, unify a b c = .ok u d := exists_ok_of_isSome (by decide +kernel)
  obtain ⟨_, d', hd'⟩ : ∃ u d, unify b a c = .ok u d := exists_ok_of_isSome (by decide +kernel)
  have hstore : c.store = [] := by decide +kernel
  have hjudgments : c.judgments = [⟨.var "j" none, nat⟩, ⟨.var "k" none, .unknown "i"⟩] := by decide +kernel
  obtain ⟨hflip, hiff⟩ := unify_comm hc (by decide +kernel) (a := a) (b := b)
    (fun _ _ _ h => by rw [hd] at h; cases h) fun _ _ _ h => by rw [hd'] at h; cases h
  refine ⟨hc, by decide +kernel, by decide +kernel, hiff ⟨trivial, trivial⟩ ⟨trivial, trivial⟩ ?_ ?_, d, d', hd, hd',
    ?_⟩
  · simp [hstore]
  · simp [hjudgments, nat, Unquantified]
  · rcases hflip d hd with ⟨_, h, htwins⟩ | ⟨_, _, _, _, _, h, -⟩
    · rw [hd'] at h
      cases h
      exact htwins
    · rw [hd'] at h
      cases h

/-- A quantified type with a part of its own is taken on the right and not on the left, be it beside an unknown or
beside the same type as a ground one. -/
theorem unify_not_comm :
    let nat : OpenTy := .ground (.prim .nat)
    let c := (Operation.declare (.var "n" none) nat).after (.new { strictOccurs := true } (.new false))
    let a : OpenTy := .unknown "x"
    let a' : OpenTy := .ground (.all "n" none (.prim .nat))
    let b : OpenTy := .all "n" none nat
    Reachable c ∧ (∃ d, unify a b c = .ok () d) ∧ (∃ d, unify b a c = .error (.mismatch b a) d) ∧
      (∃ d, unify a' b c = .ok () d) ∧ ∃ d, unify b a' c = .error (.mismatch b a') d := by
  intro nat c a a' b
  exact ⟨.after _ (.new _ _), ⟨_, rfl⟩, ⟨_, rfl⟩, ⟨_, rfl⟩, ⟨_, rfl⟩⟩

end IndexedTyping
