import IndexedTyping.Proofs.Check.Action
import IndexedTyping.Proofs.OpenTy.Keys

namespace IndexedTyping

namespace OpenTy

def parts : OpenTy → List OpenTy
  | ground (.fn t s) | ground (.app t s) => [ground t, ground s]
  | ground (.all _ _ t) | ground (.indexed t _) => [ground t]
  | fn a b | app a b => [a, b]
  | all _ _ a | indexed a _ => [a]
  | ground (.name _) | ground (.prim _) | unknown _ => []

theorem keys_subset_of_mem_parts {p a : OpenTy} (h : p ∈ a.parts) : p.keys ⊆ a.keys := by
  revert h
  fun_cases parts a <;> simp +contextual [keys, Ty.keys, or_imp]

theorem unknowns_subset_of_mem_parts {p a : OpenTy} (h : p ∈ a.parts) : p.unknowns ⊆ a.unknowns := by
  revert h
  fun_cases parts a <;> simp +contextual [unknowns, or_imp]

theorem sizeOf_lt_of_mem_parts {p a : OpenTy} (h : p ∈ a.parts) : sizeOf p < sizeOf a := by
  revert h
  fun_cases parts a <;> simp +contextual [or_imp] <;> omega

theorem Over.of_mem_parts {K : Term → Prop} {U : String → Prop} {p a : OpenTy} (ha : a.Over K U) (h : p ∈ a.parts) :
    p.Over K U := by
  rw [over_iff] at ha ⊢
  exact ⟨fun e he => ha.1 e (keys_subset_of_mem_parts h he), fun x hx => ha.2 x (unknowns_subset_of_mem_parts h hx)⟩

end OpenTy

namespace CheckM

inductive Move (a b : OpenTy) : ((OpenTy → OpenTy → CheckM Unit) → CheckM Unit) → Prop
  | left : a = .unknown x → Move a b fun _ => bindUnknown x b
  | right : b = .unknown x → Move a b fun _ => bindUnknown x a
  | parts : p ∈ a.parts → q ∈ b.parts → p' ∈ a.parts → q' ∈ b.parts → Move a b fun u => do u p q; u p' q'
  | quantified : e ∈ a.keys → f ∈ b.keys → p ∈ a.parts → q ∈ b.parts →
    Move a b fun u => do let r ← typeOf e; let s ← typeOf f; u r s; u p q
  | indexed : e ∈ a.keys → f ∈ b.keys → p ∈ a.parts → q ∈ b.parts →
    Move a b fun u => do u p q; let r ← typeOf e; let s ← typeOf f; u r s
  | swap : a.isComposite = true → b.isComposite = false → Move a b fun u => u b a
  | clash : Move a b fun _ => throw (.mismatch a b)

theorem unifyStep_move (a b : OpenTy) : Move a b fun u => unifyStep u a b := by
  have first : ∀ {p : OpenTy} {ps : List OpenTy}, p ∈ p :: ps := List.mem_cons_self
  have second : ∀ {p q : OpenTy}, q ∈ [p, q] := by simp
  -- which case it is does not depend on what the rest is left to
  fun_cases unifyStep (fun _ _ => pure ()) a b with
  | case1 t x => exact .right rfl
  | case2 | case3 | case7 | case8 => exact .parts first first second second
  | case4 => exact .quantified List.mem_cons_self List.mem_cons_self first first
  | case5 | case9 => exact .indexed List.mem_cons_self List.mem_cons_self first first
  | case6 x b => exact .left rfl
  | case10 a b _ _ _ _ _ _ _ _ _ h =>
    simp only [unifyStep, h, if_true]
    rw [Bool.and_eq_true, Bool.not_eq_true'] at h
    exact .swap h.1 h.2
  | case11 a b _ _ _ _ _ _ _ _ _ h =>
    simp only [unifyStep, h]
    exact .clash

/-- A relation between actions that bears the ways in which unification puts them together, as long as it is about
keys in `K` and unknowns in `U`. -/
structure Congruence (K : Term → Prop) (U : String → Prop) (P : CheckM Unit → CheckM Unit → Prop) : Prop where
  mismatch (a b : OpenTy) : P (throw (.mismatch a b)) (throw (.mismatch a b))
  bindUnknown {x : String} {t : OpenTy} : U x → t.Over K U → P (bindUnknown x t) (bindUnknown x t)
  seq {m m' k k' : CheckM Unit} : P m m' → P k k' → P (do m; k) (do m'; k')
  typeOf {e : Term} {k k' : OpenTy → CheckM Unit} : K e → (∀ t, t.Over K U → P (k t) (k' t)) →
    P (typeOf e >>= k) (typeOf e >>= k')
  resolve {t : OpenTy} {k k' : OpenTy → CheckM Unit} : t.Over K U → (∀ r, r.Over K U → P (k r) (k' r)) →
    P (resolve t >>= k) (resolve t >>= k')
  differ {a b : OpenTy} {m m' : CheckM Unit} : P m m' →
    P (do unless a.same (← get).options.budget b do m) (do unless a.same (← get).options.budget b do m')
  enter (phase message : String) : P (enter phase message) (enter phase message)
  leave (phase message : String) : P (leave phase message) (leave phase message)

namespace Congruence

variable {K : Term → Prop} {U : String → Prop} {P : CheckM Unit → CheckM Unit → Prop} (h : Congruence K U P)
include h

theorem move {u u' : OpenTy → OpenTy → CheckM Unit}
    (hu : ∀ {a b}, a.Over K U → b.Over K U → P (u a b) (u' a b)) {a b : OpenTy} (ha : a.Over K U) (hb : b.Over K U)
    {m : (OpenTy → OpenTy → CheckM Unit) → CheckM Unit} (hm : Move a b m) : P (m u) (m u') := by
  have part : ∀ {p q}, p ∈ a.parts → q ∈ b.parts → P (u p q) (u' p q) := fun hp hq =>
    hu (ha.of_mem_parts hp) (hb.of_mem_parts hq)
  have ask : ∀ {e f : Term} {k k' : OpenTy → OpenTy → CheckM Unit}, e ∈ a.keys → f ∈ b.keys →
      (∀ {r s}, r.Over K U → s.Over K U → P (k r s) (k' r s)) →
      P (do let r ← CheckM.typeOf e; let s ← CheckM.typeOf f; k r s)
        (do let r ← CheckM.typeOf e; let s ← CheckM.typeOf f; k' r s) := fun he hf hk =>
    h.typeOf ((OpenTy.over_iff.mp ha).1 _ he) fun _ hr => h.typeOf ((OpenTy.over_iff.mp hb).1 _ hf) fun _ hs => hk hr hs
  cases hm with
  | left hx =>
    subst hx
    exact h.bindUnknown ha hb
  | right hx =>
    subst hx
    exact h.bindUnknown hb ha
  | parts hp hq hp' hq' => exact h.seq (part hp hq) (part hp' hq')
  | quantified he hf hp hq => exact ask he hf fun hr hs => h.seq (hu hr hs) (part hp hq)
  | indexed he hf hp hq => exact h.seq (part hp hq) (ask he hf hu)
  | swap => exact hu hb ha
  | clash => exact h.mismatch a b

theorem unifyWithin_succ (n n' : Nat)
    (ih : ∀ {a b}, a.Over K U → b.Over K U → P (unifyWithin n a b) (unifyWithin n' a b)) {a b : OpenTy}
    (ha : a.Over K U) (hb : b.Over K U) : P (unifyWithin (n + 1) a b) (unifyWithin (n' + 1) a b) :=
  h.resolve ha fun a ha => h.resolve hb fun b hb =>
    h.differ (h.seq (h.enter _ _) (h.seq (h.move ih ha hb (unifyStep_move a b)) (h.leave _ _)))

end Congruence

end CheckM

end IndexedTyping
