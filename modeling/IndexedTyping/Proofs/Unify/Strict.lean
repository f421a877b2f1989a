import IndexedTyping.Proofs.Check.Later
import IndexedTyping.Proofs.Check.Reachable
import IndexedTyping.Proofs.OpenTy.Equality
import IndexedTyping.Proofs.Unify.Plan
import IndexedTyping.Proofs.Unify.Solution

namespace IndexedTyping

open OpenTy

def Plan.map (f : OpenTy → OpenTy) : Plan → Plan
  | bind x t => bind x (f t)
  | parts p q p' q' => parts (f p) (f q) (f p') (f q')
  | quantified e e' p q => quantified e e' (f p) (f q)
  | indexed p q e e' => indexed (f p) (f q) e e'
  | swap => swap
  | clash => clash

theorem OpenTy.plan_ne_bind {a b : OpenTy} (ha : ∀ x, a ≠ .unknown x) (hb : ∀ x, b ≠ .unknown x) (x : String)
    (t : OpenTy) : a.plan b ≠ .bind x t := by
  cases a with
  | unknown y => exact absurd rfl (ha y)
  | ground s =>
    cases b with
    | unknown y => exact absurd rfl (hb y)
    | _ => cases s <;> simp [plan, isComposite]
  | _ =>
    cases b with
    | unknown y => exact absurd rfl (hb y)
    | _ => simp [plan, isComposite]

namespace Store

theorem same_apply (s : Store) {budget : Nat} {a b : OpenTy} (h : a.same budget b = true) :
    (s.apply a).same budget (s.apply b) = true := by
  rw [s.apply_eq_bind, s.apply_eq_bind b]
  exact same_bind h _

theorem plan_apply (s : Store) {a b : OpenTy} (ha : ∀ x, a ≠ .unknown x) (hb : ∀ x, b ≠ .unknown x) :
    (s.apply a).plan (s.apply b) = (a.plan b).map s.apply := by
  cases a with
  | unknown x => exact absurd rfl (ha x)
  | ground t =>
    cases b with
    | unknown x => exact absurd rfl (hb x)
    | _ => cases t <;> simp [plan, Plan.map, isComposite]
  | _ =>
    cases b with
    | unknown x => exact absurd rfl (hb x)
    | _ => simp [plan, Plan.map, isComposite]

/-- `r` makes `a` and `b` equal on top of `s`, and nothing else. -/
structure Equates (s : Store) (a b : OpenTy) (r : Store) : Prop where
  equal : r.apply a = r.apply b
  least : ∀ q : Store, q.Satisfies s → q.apply a = q.apply b → q.Satisfies r

theorem Equates.symm {s r : Store} {a b : OpenTy} (h : s.Equates a b r) : s.Equates b a r :=
  ⟨h.equal.symm, fun q hq hab => h.least q hq hab.symm⟩

theorem Triangular.equates_of_resolved {s r : Store} (hs : Triangular true s) (hr : s <+: r) {a b : OpenTy}
    (h : s.Equates (s.apply a) (s.apply b) r) : s.Equates a b r where
  equal := by
    have heq := h.equal
    rwa [hs.apply_apply_of_prefix hr, hs.apply_apply_of_prefix hr] at heq
  least q hq hab := h.least q hq (by rw [hq.apply_apply, hq.apply_apply, hab])

end Store

structure Context.Strict (c : Context) : Prop where
  strict : c.options.strictOccurs = true
  grown : c.Grown

namespace Context.Strict

open CheckM

variable {c d : Context} {a b : OpenTy} {n : Nat}

theorem of_reachable (hc : Reachable c) (h : c.options.strictOccurs = true) : c.Strict := ⟨h, .of_reachable hc⟩

theorem triangular (hc : c.Strict) : c.store.Triangular true := hc.strict ▸ hc.grown.store

theorem trace (hc : c.Strict) (t : Trace) : Strict { c with trace := t } :=
  ⟨hc.strict, ⟨hc.grown.store, hc.grown.scopes⟩⟩

theorem unifyWithin (hc : c.Strict) (h : unifyWithin n a b c = .ok () d) : d.Strict ∧ c.Later d := by
  have hlater := (Later.law.obeys_unifyWithin n a b).of_ok h
  exact ⟨⟨hlater.options ▸ hc.strict, (Grown.law.obeys_unifyWithin n a b).of_ok h hc.grown⟩, hlater⟩

theorem resolve (hc : c.Strict) (t : OpenTy) : c.store.resolve t = .ok (c.store.apply t) :=
  hc.triangular.resolve_eq_apply t

theorem typeOf (hc : c.Strict) {e : Term} {j : Judgment} (hj : c.judgment? e = some j) :
    typeOf e c = .ok (c.store.apply j.type) c := by
  rw [typeOf_run, hj]
  simp only [hc.resolve]
  rfl

theorem typeOf_eq_ok (hc : c.Strict) {e : Term} (h : CheckM.typeOf e c = .ok a d) :
    d = c ∧ ∃ j, c.judgment? e = some j ∧ a = c.store.apply j.type := by
  obtain ⟨rfl, j, hj, hr⟩ := CheckM.typeOf_eq_ok h
  exact ⟨rfl, j, hj, Except.ok.inj (hr.symm.trans (hc.resolve _))⟩

theorem unifyTypes_run (hc : c.Strict) (unify : OpenTy → OpenTy → CheckM Unit) {e f : Term} {i j : Judgment}
    (he : c.judgment? e = some i) (hf : c.judgment? f = some j) :
    unifyTypes unify e f c = unify (c.store.apply i.type) (c.store.apply j.type) c := by
  rw [unifyTypes, bind_ok (hc.typeOf he), bind_ok (hc.typeOf hf)]

theorem unifyTypes_eq_ok (hc : c.Strict) {unify : OpenTy → OpenTy → CheckM Unit} {e f : Term}
    (h : unifyTypes unify e f c = .ok () d) : ∃ i j, c.judgment? e = some i ∧ c.judgment? f = some j ∧
      unify (c.store.apply i.type) (c.store.apply j.type) c = .ok () d := by
  obtain ⟨r, _, hr, h⟩ := bind_eq_ok h
  obtain ⟨rfl, i, hi, rfl⟩ := hc.typeOf_eq_ok hr
  obtain ⟨s, _, hs, h⟩ := bind_eq_ok h
  obtain ⟨rfl, j, hj, rfl⟩ := hc.typeOf_eq_ok hs
  exact ⟨i, j, hi, hj, h⟩

theorem equates_bindUnknown (hc : c.Strict) {x : String} {t : OpenTy} (h : bindUnknown x t c = .ok () d) :
    c.store.Equates (.unknown x) t d.store := by
  obtain ⟨bd, r, tr, hbd, hr, rfl⟩ := CheckM.bindUnknown_eq_ok h
  refine ⟨hc.triangular.apply_insert hbd (hc.strict ▸ hr), fun s hs hxt => ?_⟩
  obtain ⟨hname, hvalue⟩ := Store.binding_eq_ok hbd
  obtain ⟨-, rfl⟩ := Store.insert_eq_ok hr
  have hname : c.store.apply (.unknown x) = .unknown bd.name := Except.ok.inj ((hc.resolve _).symm.trans hname)
  have hvalue : c.store.apply t = bd.value := Except.ok.inj ((hc.resolve _).symm.trans hvalue)
  have hnew : s.apply (.unknown bd.name) = s.apply bd.value := by
    rw [← hname, ← hvalue, hs.apply_apply, hs.apply_apply, hxt]
  exact List.forall_mem_append.mpr ⟨hs, by simpa using hnew⟩

theorem unifyWithin_eq_ok (hc : c.Strict) (h : CheckM.unifyWithin (n + 1) a b c = .ok () d) :
    let a' := c.store.apply a
    let b' := c.store.apply b
    a'.same c.options.budget b' = true ∧ d = c ∨ ¬a'.same c.options.budget b' = true ∧
      ∃ t t' d', carryOut (CheckM.unifyWithin n) a' b' (a'.plan b') { c with trace := t } = .ok () d' ∧
        d = { d' with trace := t' } := by
  intro a' b'
  obtain ⟨_, _, ha, hb, h⟩ := CheckM.unifyWithin_eq_ok h
  cases (hc.resolve a).symm.trans ha
  cases (hc.resolve b).symm.trans hb
  exact h

theorem equates_of_unknown (hc : c.Strict)
    (hx : ∃ x, c.store.apply a = .unknown x ∨ c.store.apply b = .unknown x)
    (h : CheckM.unifyWithin n a b c = .ok () d) : c.store.Equates a b d.store := by
  induction n generalizing a b c d with
  | zero => cases h
  | succ n ih =>
    refine hc.triangular.equates_of_resolved (hc.unifyWithin h).2.store ?_
    obtain ⟨x, hx⟩ := hx
    rcases hc.unifyWithin_eq_ok h with ⟨hsame, rfl⟩ | ⟨-, t, t', d', hrun, rfl⟩
    · have heq : d.store.apply a = d.store.apply b := by
        rcases hx with hx | hx
        · rw [hx] at hsame ⊢
          exact (same_iff (a := .unknown x) trivial).mp hsame
        · rw [hx, same_comm] at hsame
          rw [hx]
          exact ((same_iff (a := .unknown x) trivial).mp hsame).symm
      exact ⟨by rw [heq], fun _ hs _ => hs⟩
    · change c.store.Equates _ _ d'.store
      rcases hx with hx | hx
      · rw [hx, plan_unknown] at hrun
        rw [hx]
        exact (hc.trace t).equates_bindUnknown hrun
      · have hfixed : c.store.apply (.unknown x) = .unknown x := by rw [← hx, hc.triangular.apply_apply]
        rw [hx] at hrun ⊢
        cases ha : c.store.apply a with
        | unknown _ =>
          rw [ha] at hrun
          exact (hc.trace t).equates_bindUnknown hrun
        | ground _ =>
          rw [ha] at hrun
          exact ((hc.trace t).equates_bindUnknown hrun).symm
        | fn _ _ | app _ _ | indexed _ _ =>
          -- the two change sides
          rw [ha] at hrun
          exact (ih (hc.trace t) ⟨x, .inl hfixed⟩ hrun).symm
        | all _ _ _ =>
          rw [ha] at hrun
          cases hrun

theorem ends_unifyWithin (hc : c.Strict) {Q : Context → Prop} {E : CheckError → Prop} (n : Nat) (a b : OpenTy)
    (hsame : (c.store.apply a).same c.options.budget (c.store.apply b) = true → Q c)
    (hplan : ¬(c.store.apply a).same c.options.budget (c.store.apply b) = true → ∀ t,
      Ends (carryOut (CheckM.unifyWithin n) (c.store.apply a) (c.store.apply b)
        ((c.store.apply a).plan (c.store.apply b)) { c with trace := t }) (fun _ d => ∀ t', Q { d with trace := t' })
        fun e _ => E e) :
    Ends (CheckM.unifyWithin (n + 1) a b c) (fun _ d => Q d) fun e _ => E e :=
  CheckM.ends_unifyWithin (hc.resolve a) (hc.resolve b) hsame hplan

theorem unifyWithin_congr (hc : c.Strict) (n : Nat) {a' b' : OpenTy} (ha : c.store.apply a' = c.store.apply a)
    (hb : c.store.apply b' = c.store.apply b) :
    CheckM.unifyWithin (n + 1) a' b' c = CheckM.unifyWithin (n + 1) a b c := by
  rw [hc.triangular.unifyWithin_succ, hc.triangular.unifyWithin_succ, ha, hb]

end Context.Strict

end IndexedTyping
