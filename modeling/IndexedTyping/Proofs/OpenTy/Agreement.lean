import IndexedTyping.Proofs.OpenTy.Substitution

namespace IndexedTyping

namespace Term

def unplaced : Term → Term
  | var x _ => var x none
  | lit v => lit v
  | lam x b => lam x b.unplaced
  | app f a => app f.unplaced a.unplaced
  | recur f x b => recur f x b.unplaced

theorem same_iff {e f : Term} : e.same f = true ↔ e.unplaced = f.unplaced := by
  induction e generalizing f with
  | var x l => cases f <;> simp [same, unplaced]
  | lit v => cases f <;> simp [same, unplaced]
  | lam x b ih => cases f <;> simp [same, unplaced, ih]
  | app f a ihf iha => cases f <;> simp [same, unplaced, ihf, iha]
  | recur f x b ih => cases f <;> simp [same, unplaced, ih, and_assoc]

end Term

namespace Ty

def unplaced : Ty → Ty
  | name x => name x
  | prim p => prim p
  | fn t s => fn t.unplaced s.unplaced
  | app t s => app t.unplaced s.unplaced
  | all x _ t => all x none t.unplaced
  | indexed t e => indexed t.unplaced e.unplaced

def spread : Ty → OpenTy
  | fn t s => .fn t.spread s.spread
  | app t s => .app t.spread s.spread
  | name x => .ground (name x)
  | prim p => .ground (prim p)
  | all x _ t => .ground (all x none t.unplaced)
  | indexed t e => .ground (indexed t.unplaced e.unplaced)

def size : Ty → Nat
  | fn t s => t.size + s.size + 1
  | app t s => t.size + s.size + 1
  | name _ | prim _ | all .. | indexed .. => 1

def FirstOrder : Ty → Prop
  | fn t s => t.FirstOrder ∧ s.FirstOrder
  | app t s => t.FirstOrder ∧ s.FirstOrder
  | name _ | prim _ => True
  | all .. | indexed .. => False

@[simp] theorem unknowns_spread (t : Ty) : t.spread.unknowns = [] := by
  induction t with
  | fn t s iht ihs => simp [spread, OpenTy.unknowns, iht, ihs]
  | app t s iht ihs => simp [spread, OpenTy.unknowns, iht, ihs]
  | _ => rfl

theorem same_iff {budget : Nat} {t s : Ty} (ht : t.FirstOrder) : t.same budget s = true ↔ t = s := by
  induction t generalizing s with
  | name x => cases s <;> simp [same]
  | prim p => cases s <;> simp [same]
  | fn t₁ t₂ ih₁ ih₂ => cases s <;> simp [same, ih₁ ht.1, ih₂ ht.2]
  | app t₁ t₂ ih₁ ih₂ => cases s <;> simp [same, ih₁ ht.1, ih₂ ht.2]
  | all x l t => exact ht.elim
  | indexed t e => exact ht.elim

theorem ground?_spread {t : Ty} (ht : t.FirstOrder) : t.spread.ground? = some t := by
  induction t with
  | name x => rfl
  | prim p => rfl
  | fn t s iht ihs => simp [spread, OpenTy.ground?, iht ht.1, ihs ht.2]
  | app t s iht ihs => simp [spread, OpenTy.ground?, iht ht.1, ihs ht.2]
  | all x l t => exact ht.elim
  | indexed t e => exact ht.elim

theorem spread_inj {t s : Ty} (ht : t.FirstOrder) (hs : s.FirstOrder) (h : t.spread = s.spread) : t = s := by
  rw [← Option.some_inj, ← ground?_spread ht, ← ground?_spread hs, h]

end Ty

namespace OpenTy

def spread : OpenTy → OpenTy
  | ground t => t.spread
  | unknown x => unknown x
  | fn a b => fn a.spread b.spread
  | app a b => app a.spread b.spread
  | all x _ a => all x none a.spread
  | indexed a e => indexed a.spread e.unplaced

def Agree (a b : OpenTy) : Prop := a.spread = b.spread

instance : DecidableRel Agree := fun a b => inferInstanceAs (Decidable (a.spread = b.spread))

theorem Agree.refl (a : OpenTy) : Agree a a := rfl

theorem Agree.symm {a b : OpenTy} (h : Agree a b) : Agree b a := Eq.symm h

theorem Agree.trans {a b c : OpenTy} (h : Agree a b) (h' : Agree b c) : Agree a c := Eq.trans h h'

theorem agree_fn {a b a' b' : OpenTy} : Agree (fn a b) (fn a' b') ↔ Agree a a' ∧ Agree b b' := by
  simp [Agree, spread]

theorem agree_app {a b a' b' : OpenTy} : Agree (app a b) (app a' b') ↔ Agree a a' ∧ Agree b b' := by
  simp [Agree, spread]

theorem agree_ground_fn {t s : Ty} {a b : OpenTy} :
    Agree (ground (.fn t s)) (fn a b) ↔ Agree (ground t) a ∧ Agree (ground s) b := by
  simp [Agree, spread, Ty.spread]

theorem agree_ground_app {t s : Ty} {a b : OpenTy} :
    Agree (ground (.app t s)) (app a b) ↔ Agree (ground t) a ∧ Agree (ground s) b := by
  simp [Agree, spread, Ty.spread]

theorem spread_bind (θ : String → OpenTy) (t : OpenTy) :
    (t.bind θ).spread = t.spread.bind fun x => (θ x).spread := by
  induction t with
  | ground t =>
    rw [bind, spread, bind_eq_self]
    simp
  | unknown x => rfl
  | fn a b iha ihb => simp [bind, spread, iha, ihb]
  | app a b iha ihb => simp [bind, spread, iha, ihb]
  | all x l a ih => simp [bind, spread, ih]
  | indexed a e ih => simp [bind, spread, ih]

theorem unknowns_spread (t : OpenTy) : t.spread.unknowns = t.unknowns := by
  induction t with
  | ground t => exact t.unknowns_spread
  | unknown x => rfl
  | fn a b iha ihb => simp [spread, unknowns, iha, ihb]
  | app a b iha ihb => simp [spread, unknowns, iha, ihb]
  | all x l a ih => simp [spread, unknowns, ih]
  | indexed a e ih => simp [spread, unknowns, ih]

theorem agree_bind {θ τ : String → OpenTy} {t : OpenTy} (h : ∀ x ∈ t.unknowns, Agree (θ x) (τ x)) :
    Agree (t.bind θ) (t.bind τ) := by
  rw [Agree, spread_bind, spread_bind]
  refine bind_congr fun x hx => h x ?_
  rwa [unknowns_spread] at hx

def size : OpenTy → Nat
  | ground t => t.size
  | unknown _ => 1
  | fn a b => a.size + b.size + 1
  | app a b => a.size + b.size + 1
  | all _ _ a => a.size + 1
  | indexed a _ => a.size + 1

theorem size_spread (a : OpenTy) : a.spread.size = a.size := by
  have hty : ∀ t : Ty, t.spread.size = t.size := by
    intro t
    induction t with
    | fn t s iht ihs => simp [Ty.spread, size, Ty.size, iht, ihs]
    | app t s iht ihs => simp [Ty.spread, size, Ty.size, iht, ihs]
    | _ => rfl
  induction a with
  | ground t => exact hty t
  | unknown x => rfl
  | fn a b iha ihb => simp [spread, size, iha, ihb]
  | app a b iha ihb => simp [spread, size, iha, ihb]
  | all x l a ih => simp [spread, size, ih]
  | indexed a e ih => simp [spread, size, ih]

theorem Agree.size_eq {a b : OpenTy} (h : Agree a b) : a.size = b.size := by
  rw [← a.size_spread, ← b.size_spread, h]

theorem size_le_size_bind (θ : String → OpenTy) {x : String} {t : OpenTy} (h : x ∈ t.unknowns) :
    (θ x).size ≤ (t.bind θ).size := by
  induction t with
  | ground t => cases h
  | unknown y =>
    cases List.mem_singleton.mp h
    exact Nat.le_refl _
  | fn a b iha ihb =>
    rw [bind, size]
    rcases List.mem_append.mp h with h | h
    · have := iha h
      omega
    · have := ihb h
      omega
  | app a b iha ihb =>
    rw [bind, size]
    rcases List.mem_append.mp h with h | h
    · have := iha h
      omega
    · have := ihb h
      omega
  | all y l a ih => exact Nat.le_succ_of_le (ih h)
  | indexed a e ih => exact Nat.le_succ_of_le (ih h)

/-- The reason for the occurs check: what an unknown stands for is smaller than anything it occurs in. -/
theorem not_agree_bind_of_mem (θ : String → OpenTy) {x : String} {t : OpenTy} (h : x ∈ t.unknowns)
    (ht : t ≠ unknown x) : ¬Agree (θ x) (t.bind θ) := by
  intro ha
  have hsize := ha.size_eq
  cases t with
  | ground t => cases h
  | unknown y =>
    cases List.mem_singleton.mp h
    exact ht rfl
  | fn a b =>
    rw [bind, size] at hsize
    rcases List.mem_append.mp h with h | h
    · have := size_le_size_bind θ h
      omega
    · have := size_le_size_bind θ h
      omega
  | app a b =>
    rw [bind, size] at hsize
    rcases List.mem_append.mp h with h | h
    · have := size_le_size_bind θ h
      omega
    · have := size_le_size_bind θ h
      omega
  | all y l a =>
    rw [bind, size] at hsize
    have := size_le_size_bind (t := a) θ h
    omega
  | indexed a e =>
    rw [bind, size] at hsize
    have := size_le_size_bind (t := a) θ h
    omega

def FirstOrder : OpenTy → Prop
  | ground t => t.FirstOrder
  | unknown _ => True
  | fn a b => a.FirstOrder ∧ b.FirstOrder
  | app a b => a.FirstOrder ∧ b.FirstOrder
  | all .. | indexed .. => False

theorem FirstOrder.bind {θ : String → OpenTy} {t : OpenTy} (ht : t.FirstOrder)
    (h : ∀ x ∈ t.unknowns, (θ x).FirstOrder) : (t.bind θ).FirstOrder := by
  induction t with
  | ground t => exact ht
  | unknown x => exact h x List.mem_cons_self
  | fn a b iha ihb =>
    simp only [unknowns, List.mem_append] at h
    exact ⟨iha ht.1 fun x hx => h x (.inl hx), ihb ht.2 fun x hx => h x (.inr hx)⟩
  | app a b iha ihb =>
    simp only [unknowns, List.mem_append] at h
    exact ⟨iha ht.1 fun x hx => h x (.inl hx), ihb ht.2 fun x hx => h x (.inr hx)⟩
  | all x l a => exact ht.elim
  | indexed a e => exact ht.elim

theorem same_iff {budget : Nat} {a b : OpenTy} (ha : a.FirstOrder) : a.same budget b = true ↔ a = b := by
  induction a generalizing b with
  | ground t => cases b <;> simp [same, Ty.same_iff ha]
  | unknown x => cases b <;> simp [same]
  | fn a₁ a₂ ih₁ ih₂ => cases b <;> simp [same, ih₁ ha.1, ih₂ ha.2]
  | app a₁ a₂ ih₁ ih₂ => cases b <;> simp [same, ih₁ ha.1, ih₂ ha.2]
  | all x l a => exact ha.elim
  | indexed a e => exact ha.elim

end OpenTy

end IndexedTyping
