import IndexedTyping.Proofs.Check.Action

namespace IndexedTyping

/-- * `bind`: an unknown is bound.
* `parts`: two pairs of parts are unified, one after the other.
* `quantified`, `indexed`: a pair of parts is unified, and the types of two terms, which come first if they are
  quantified names and second if they are indices.
* `swap`: the two types change sides.
* `clash`: they cannot be made equal. -/
inductive Plan
  | bind (x : String) (t : OpenTy)
  | parts (p q p' q' : OpenTy)
  | quantified (e f : Term) (p q : OpenTy)
  | indexed (p q : OpenTy) (e f : Term)
  | swap
  | clash

def OpenTy.plan : OpenTy → OpenTy → Plan
  | ground t, unknown x => .bind x (ground t)
  | ground (.fn t s), fn a b | ground (.app t s), app a b => .parts (ground t) a (ground s) b
  | ground (.all x l t), all y k a => .quantified (.var x l) (.var y k) (ground t) a
  | ground (.indexed t e), indexed a f => .indexed (ground t) a e f
  | unknown x, b => .bind x b
  | fn a b, fn c d | app a b, app c d => .parts a c b d
  | indexed a e, indexed b f => .indexed a b e f
  | a, b => if a.isComposite && !b.isComposite then .swap else .clash

@[simp] theorem OpenTy.plan_unknown (x : String) (b : OpenTy) : (OpenTy.unknown x).plan b = .bind x b := by
  cases b <;> rfl

namespace CheckM

def carryOut (unify : OpenTy → OpenTy → CheckM Unit) (a b : OpenTy) : Plan → CheckM Unit
  | .bind x t => bindUnknown x t
  | .parts p q p' q' => do unify p q; unify p' q'
  | .quantified e f p q => do
    let r ← typeOf e
    let s ← typeOf f
    unify r s
    unify p q
  | .indexed p q e f => do
    unify p q
    let r ← typeOf e
    let s ← typeOf f
    unify r s
  | .swap => unify b a
  | .clash => throw (.mismatch a b)

def unifyTypes (unify : OpenTy → OpenTy → CheckM Unit) (e f : Term) : CheckM Unit := do
  let r ← typeOf e
  let s ← typeOf f
  unify r s

theorem carryOut_quantified (unify : OpenTy → OpenTy → CheckM Unit) (a b : OpenTy) (e f : Term) (p q : OpenTy) :
    carryOut unify a b (.quantified e f p q) = (do unifyTypes unify e f; unify p q) := by
  simp only [carryOut, unifyTypes, bind_assoc]

theorem carryOut_indexed (unify : OpenTy → OpenTy → CheckM Unit) (a b p q : OpenTy) (e f : Term) :
    carryOut unify a b (.indexed p q e f) = (do unify p q; unifyTypes unify e f) := rfl

theorem unifyStep_eq_carryOut (unify : OpenTy → OpenTy → CheckM Unit) (a b : OpenTy) :
    unifyStep unify a b = carryOut unify a b (a.plan b) := by
  cases a with
  | ground t => cases t <;> cases b <;> rfl
  | _ => cases b <;> rfl

variable {a b a' b' : OpenTy} {c d : Context} {n : Nat}

theorem unifyWithin_succ (ha : c.store.resolve a = .ok a') (hb : c.store.resolve b = .ok b') (n : Nat) :
    unifyWithin (n + 1) a b c = if a'.same c.options.budget b' then .ok () c else (do
      enter "Begin Unify" (a'.render ++ " <~> " ++ b'.render)
      carryOut (unifyWithin n) a' b' (a'.plan b')
      leave "End Unify" (a'.render ++ " <~> " ++ b'.render) : CheckM Unit) c := by
  have hresolve : ∀ {t r}, c.store.resolve t = .ok r → resolve t c = .ok r c := fun h => by
    rw [resolve_run, h]
    rfl
  rw [unifyWithin, bind_ok (hresolve ha), bind_ok (hresolve hb), ← unifyStep_eq_carryOut]
  exact apply_ite (fun m : CheckM Unit => m c) _ _ _

theorem unifyWithin_eq_ok (h : unifyWithin (n + 1) a b c = .ok () d) :
    ∃ a' b', c.store.resolve a = .ok a' ∧ c.store.resolve b = .ok b' ∧
      (a'.same c.options.budget b' = true ∧ d = c ∨ ¬a'.same c.options.budget b' = true ∧
        ∃ t t' d', carryOut (unifyWithin n) a' b' (a'.plan b') { c with trace := t } = .ok () d' ∧
          d = { d' with trace := t' }) := by
  obtain ⟨a', _, ha, hrest⟩ := bind_eq_ok h
  obtain ⟨rfl, ha⟩ := resolve_eq_ok ha
  obtain ⟨b', _, hb, -⟩ := bind_eq_ok hrest
  obtain ⟨rfl, hb⟩ := resolve_eq_ok hb
  refine ⟨a', b', ha, hb, ?_⟩
  rw [unifyWithin_succ ha hb] at h
  split at h
  · next hsame =>
    cases h
    exact .inl ⟨hsame, rfl⟩
  · next hsame =>
    obtain ⟨_, _, henter, hrest⟩ := bind_eq_ok h
    cases henter
    obtain ⟨_, d', hstep, hleave⟩ := bind_eq_ok hrest
    cases hleave
    exact .inr ⟨hsame, _, _, d', hstep, rfl⟩

theorem ends_unifyWithin {Q : Context → Prop} {E : CheckError → Prop} (ha : c.store.resolve a = .ok a')
    (hb : c.store.resolve b = .ok b') (hsame : a'.same c.options.budget b' = true → Q c)
    (hplan : ¬a'.same c.options.budget b' = true → ∀ t,
      Ends (carryOut (unifyWithin n) a' b' (a'.plan b') { c with trace := t })
        (fun _ d => ∀ t', Q { d with trace := t' }) fun e _ => E e) :
    Ends (unifyWithin (n + 1) a b c) (fun _ d => Q d) fun e _ => E e := by
  rw [unifyWithin_succ ha hb]
  split
  · next h => exact hsame h
  · next h =>
    refine ends_bind.mpr (ends_bind.mpr ?_)
    exact (hplan h _).mono (fun _ d hd => hd _) fun _ _ he => he

end CheckM

end IndexedTyping
