import IndexedTyping.Proofs.Store.Resolution

namespace IndexedTyping

namespace Ty

def keys : Ty → List Term
  | name _ | prim _ => []
  | fn t s => t.keys ++ s.keys
  | app t s => t.keys ++ s.keys
  | all x l t => .var x l :: t.keys
  | indexed t e => e :: t.keys

def Over (K : Term → Prop) : Ty → Prop
  | name _ | prim _ => True
  | fn t s => t.Over K ∧ s.Over K
  | app t s => t.Over K ∧ s.Over K
  | all x l t => K (.var x l) ∧ t.Over K
  | indexed t e => K e ∧ t.Over K

theorem over_iff {K : Term → Prop} {t : Ty} : t.Over K ↔ ∀ e ∈ t.keys, K e := by
  induction t <;> simp [Over, keys, or_imp, forall_and, *]

end Ty

namespace OpenTy

def keys : OpenTy → List Term
  | ground t => t.keys
  | unknown _ => []
  | fn a b => a.keys ++ b.keys
  | app a b => a.keys ++ b.keys
  | all x l a => .var x l :: a.keys
  | indexed a e => e :: a.keys

def Over (K : Term → Prop) (U : String → Prop) : OpenTy → Prop
  | ground t => t.Over K
  | unknown x => U x
  | fn a b => a.Over K U ∧ b.Over K U
  | app a b => a.Over K U ∧ b.Over K U
  | all x l a => K (.var x l) ∧ a.Over K U
  | indexed a e => K e ∧ a.Over K U

variable {K K' : Term → Prop} {U U' : String → Prop}

theorem over_iff {t : OpenTy} : t.Over K U ↔ (∀ e ∈ t.keys, K e) ∧ ∀ x ∈ t.unknowns, U x := by
  induction t with
  | ground t => simp [Over, keys, unknowns, Ty.over_iff]
  | unknown x => simp [Over, keys, unknowns]
  | fn a b iha ihb => simp [Over, keys, unknowns, or_imp, forall_and, iha, ihb, and_and_and_comm]
  | app a b iha ihb => simp [Over, keys, unknowns, or_imp, forall_and, iha, ihb, and_and_and_comm]
  | all x l a ih => simp [Over, keys, unknowns, ih, and_assoc]
  | indexed a e ih => simp [Over, keys, unknowns, ih, and_assoc]

theorem over_true (t : OpenTy) : t.Over (fun _ => True) fun _ => True := over_iff.mpr (by simp)

theorem Over.mono {t : OpenTy} (h : t.Over K U) (hK : ∀ e, K e → K' e) (hU : ∀ x, U x → U' x) : t.Over K' U' := by
  rw [over_iff] at h ⊢
  exact ⟨fun e he => hK e (h.1 e he), fun x hx => hU x (h.2 x hx)⟩

theorem Over.bind {t : OpenTy} (h : t.Over K U') {θ : String → OpenTy} (hθ : ∀ x ∈ t.unknowns, (θ x).Over K U) :
    (t.bind θ).Over K U := by
  induction t with
  | ground t => exact h
  | unknown x => exact hθ x List.mem_cons_self
  | fn a b iha ihb | app a b iha ihb =>
    simp only [unknowns, List.mem_append] at hθ
    exact ⟨iha h.1 fun x hx => hθ x (.inl hx), ihb h.2 fun x hx => hθ x (.inr hx)⟩
  | all x l a ih => exact ⟨h.1, ih h.2 hθ⟩
  | indexed a e ih => exact ⟨h.1, ih h.2 hθ⟩

theorem mem_keys_bind {θ : String → OpenTy} {t : OpenTy} {e : Term} :
    e ∈ (t.bind θ).keys ↔ e ∈ t.keys ∨ ∃ x ∈ t.unknowns, e ∈ (θ x).keys := by
  induction t with
  | ground t => simp [bind, keys, unknowns]
  | unknown x => simp [bind, keys, unknowns]
  | fn a b iha ihb | app a b iha ihb =>
    simp only [bind, keys, unknowns, List.mem_append, iha, ihb, or_and_right, exists_or]
    exact or_or_or_comm
  | all x l a ih => simp [bind, keys, unknowns, ih, or_assoc]
  | indexed a f ih => simp [bind, keys, unknowns, ih, or_assoc]

theorem keys_embed (t : Ty) : t.embed.keys = t.keys := by
  induction t <;> simp [Ty.embed, keys, Ty.keys, *]

theorem over_embed {t : Ty} (h : t.Over K) : t.embed.Over K fun _ => True := by
  induction t with
  | name x => trivial
  | prim p => trivial
  | fn t s iht ihs => exact ⟨iht h.1, ihs h.2⟩
  | app t s iht ihs => exact ⟨iht h.1, ihs h.2⟩
  | all x l t ih => exact ⟨h.1, ih h.2⟩
  | indexed t e ih => exact ⟨h.1, ih h.2⟩

end OpenTy

namespace Store

def Over (K : Term → Prop) (U : String → Prop) (s : Store) : Prop := ∀ b ∈ s, U b.name ∧ b.value.Over K U

namespace Over

variable {K K' : Term → Prop} {U U' : String → Prop} {s : Store}

theorem mono (hs : s.Over K U) (hK : ∀ e, K e → K' e) (hU : ∀ x, U x → U' x) : s.Over K' U' :=
  fun b hb => ⟨hU _ (hs b hb).1, (hs b hb).2.mono hK hU⟩

theorem resolveName (hs : s.Over K U) {n : Nat} {seen : List String} {x : String} {r : OpenTy} (hx : U x)
    (h : s.resolveName n seen x = .ok r) : r.Over K U := by
  induction n generalizing seen x r with
  | zero =>
    cases h
    exact hx
  | succ n ih =>
    rw [Store.resolveName] at h
    split at h
    · cases h
      exact hx
    · next b hb =>
      split at h
      · cases h
      · obtain ⟨hok, rfl⟩ := OpenTy.bindM_eq_ok_iff.mp h
        have hmem : b ∈ s.bindingsOf x := hb ▸ List.mem_singleton_self b
        have hvalue := (hs b (mem_bindingsOf.mp hmem).1).2
        exact hvalue.bind fun y hy => ih ((OpenTy.over_iff.mp hvalue).2 y hy) (hok y hy)
    · cases h

theorem resolve (hs : s.Over K U) {t r : OpenTy} (ht : t.Over K U) (h : s.resolve t = .ok r) : r.Over K U := by
  obtain ⟨hok, rfl⟩ := OpenTy.bindM_eq_ok_iff.mp h
  exact ht.bind fun x hx => hs.resolveName ((OpenTy.over_iff.mp ht).2 x hx) (hok x hx)

theorem insert (hs : s.Over K U) {strict : Bool} {x : String} {t : OpenTy} {b : Binding} {s' : Store} (hx : U x)
    (ht : t.Over K U) (hb : s.binding x t = .ok b) (h : s.insert strict b = .ok s') : s'.Over K U := by
  obtain ⟨-, rfl⟩ := insert_eq_ok h
  obtain ⟨hname, hvalue⟩ := binding_eq_ok hb
  intro c hc
  rcases List.mem_append.mp hc with hc | hc
  · exact hs c hc
  · cases List.mem_singleton.mp hc
    exact ⟨hs.resolve (t := .unknown x) hx hname, hs.resolve ht hvalue⟩

end Over

end Store

end IndexedTyping
