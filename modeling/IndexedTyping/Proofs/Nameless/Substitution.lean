import IndexedTyping.Proofs.Nameless.Comparison
import IndexedTyping.Text.Integer
import Mathlib.Data.List.Nodup
import Mathlib.Data.List.Perm.Subperm

/-!
Substitution captures nothing: on nameless forms it is the substitution that has no names to capture.

What happens at a binder is said once, for `Subst.enter`: inside, the binder's own name stands for the name it has
taken, every other name for what it stood for outside, and in that the name taken is not free.
-/

namespace IndexedTyping

namespace Subst

theorem numbered_injective (base : String) : Function.Injective (numbered base) := by
  intro i j h
  exact Text.repr_injective ((String.append_right_inj _).mp h)

theorem numbered_mem_of_freshFrom {base : String} {avoid : List String} {n i : Nat}
    (h : freshFrom base avoid n i ∈ avoid) {k : Nat} (hk : k ≤ n) : numbered base (i + k) ∈ avoid := by
  induction n generalizing i k with
  | zero =>
    cases Nat.le_zero.mp hk
    exact h
  | succ n ih =>
    rw [freshFrom] at h
    split at h
    · next hi =>
      cases k with
      | zero => exact hi
      | succ k =>
        rw [Nat.add_comm k 1, ← Nat.add_assoc]
        exact ih h (Nat.le_of_succ_le_succ hk)
    · next hi => exact absurd h hi

theorem fresh_notMem (base : String) (avoid : List String) : fresh base avoid ∉ avoid := by
  intro h
  -- one more name than there are names to avoid
  let tried := (List.range (avoid.length + 1)).map fun k => numbered base (1 + k)
  have hnodup : tried.Nodup := List.nodup_range.map fun i j hij => Nat.add_left_cancel (numbered_injective base hij)
  have hsubset : tried ⊆ avoid := by
    intro x hx
    obtain ⟨k, hk, rfl⟩ := List.mem_map.mp hx
    exact numbered_mem_of_freshFrom h (Nat.le_of_lt_succ (List.mem_range.mp hk))
  have hlen := (hnodup.subperm hsubset).length_le
  rw [List.length_map, List.length_range] at hlen
  exact Nat.not_succ_le_self _ hlen

def image (σ : Subst) (x : String) : Term := (σ.lookup x).getD (.var x none)

theorem image_nil (x : String) : image [] x = .var x none := rfl

theorem lookup_erase (σ : Subst) (x y : String) : (σ.erase x).lookup y = if y = x then none else σ.lookup y := by
  induction σ with
  | nil => simp [erase]
  | cons p σ ih =>
    obtain ⟨z, e⟩ := p
    simp only [erase, List.filter_cons, bne_iff_ne, ne_eq] at ih ⊢
    split
    · rw [List.lookup_cons, List.lookup_cons, ih]
      split <;> grind
    · rw [List.lookup_cons, ih]
      split <;> grind

theorem notMem_names_iff {σ : Subst} {x : String} : x ∉ σ.names ↔ σ.lookup x = none := by
  simp only [names, List.mem_map, not_exists, not_and, List.lookup_eq_none_iff, bne_iff_ne]
  exact forall₂_congr fun p _ => ne_comm

theorem lookup_bind (σ : Subst) (x y : String) (e : Term) :
    (σ.bind x e).lookup y = if y = x then some e else σ.lookup y := by
  rw [bind, List.lookup_cons, lookup_erase]
  split <;> grind

theorem image_bind (σ : Subst) (x y : String) (e : Term) :
    (σ.bind x e).image y = if y = x then e else σ.image y := by
  rw [image, lookup_bind]
  split <;> rfl

section enter

variable (σ : Subst) (b : Term) (taken : List String) (x : String)

theorem lookup_enter_of_ne {y : String} (h : y ≠ x) : (σ.enter b taken x).2.lookup y = σ.lookup y := by
  rw [enter]
  split
  · exact (lookup_bind ..).trans (if_neg h)
  · rfl

theorem image_enter_of_ne {y : String} (h : y ≠ x) : (σ.enter b taken x).2.image y = σ.image y := by
  rw [image, lookup_enter_of_ne σ b taken x h, image]

theorem image_enter_self (h : σ.captures b x = true ∨ σ.lookup x = none) :
    (σ.enter b taken x).2.image x = .var (σ.enter b taken x).1 none := by
  rw [enter]
  split
  · simp [image_bind]
  · next hc => simp [image, h.resolve_left hc]

theorem enter_notMem_incoming : (σ.enter b taken x).1 ∉ σ.incoming b := by
  rw [enter]
  split
  · intro h
    exact fresh_notMem x _ (List.mem_append_left _ (List.mem_append_left _ (List.mem_append_left _ h)))
  · next hc => exact fun h => hc (captures_iff_mem_incoming.mpr h)

theorem enter_eq_of_mem_freeVars (h : (σ.enter b taken x).1 ∈ b.freeVars) : (σ.enter b taken x).1 = x := by
  rw [enter] at h ⊢
  split at h
  · exact absurd (List.mem_append_left _ (List.mem_append_left _ (List.mem_append_right _ h))) (fresh_notMem x _)
  · next hc => rw [if_neg hc]

theorem notMem_freeVars_enter {y : String} (hy : y ∈ b.freeVars) (h : y ≠ x) :
    (σ.enter b taken x).1 ∉ (σ.image y).freeVars := by
  intro hmem
  rw [image] at hmem
  cases hl : σ.lookup y with
  | none =>
    rw [hl] at hmem
    obtain rfl := List.mem_singleton.mp hmem
    exact h (enter_eq_of_mem_freeVars σ b taken x hy)
  | some t =>
    rw [hl] at hmem
    obtain ⟨l, r, rfl, -⟩ := List.lookup_eq_some_iff.mp hl
    apply enter_notMem_incoming _ b taken x
    refine List.mem_flatMap.mpr ⟨(y, t), List.mem_filter.mpr ⟨by simp, ?_⟩, hmem⟩
    exact Term.mentions_iff_mem_freeVars.mpr hy

/-- A name without an entry has none after a binder is entered, unless the binder was renamed and had this very name,
and then a second binder of the name is renamed as well. -/
theorem captures_or_lookup_enter (f : String) (hx : σ.lookup x = none) :
    (σ.enter b taken f).2.captures b x = true ∨ (σ.enter b taken f).2.lookup x = none := by
  by_cases hxf : x = f
  · subst hxf
    rw [enter]
    split
    · next hc =>
      obtain ⟨p, hp, hcap⟩ := List.any_eq_true.mp hc
      have hkept : p ∈ σ.erase x := List.mem_filter.mpr ⟨hp, bne_comm.trans (List.lookup_eq_none_iff.mp hx p hp)⟩
      exact .inl (List.any_eq_true.mpr ⟨p, List.mem_cons_of_mem _ hkept, hcap⟩)
    · exact .inr hx
  · exact .inr ((lookup_enter_of_ne σ b taken f hxf).trans hx)

variable (S : String → Prop)

theorem namelessIn_image_enter {ρ ρ' : Naming} {θ : Ref → Nameless} (hx : σ.captures b x = true ∨ σ.lookup x = none)
    (h : ∀ y ∈ b.freeVars, S y → y ≠ x → (σ.image y).namelessIn ρ' = θ (ρ y)) :
    ∀ y ∈ b.freeVars, S y → ((σ.enter b taken x).2.image y).namelessIn (ρ'.enter (σ.enter b taken x).1) =
      Nameless.upSub θ (ρ.enter x y) := by
  intro y hy hS
  by_cases hyx : y = x
  · subst hyx
    rw [image_enter_self σ b taken y hx]
    simp [Term.namelessIn]
  · rw [image_enter_of_ne σ b taken x hyx, Term.namelessIn_enter (notMem_freeVars_enter σ b taken x hy hyx),
      h y hy hS hyx, ρ.enter_of_ne hyx, Nameless.upSub_under]

theorem mem_freeVars_image_enter (hx : σ.captures b x = true ∨ σ.lookup x = none) (z : String) :
    (∃ y ∈ b.freeVars, S y ∧ z ∈ ((σ.enter b taken x).2.image y).freeVars) ∧ z ≠ (σ.enter b taken x).1 ↔
      ∃ y ∈ b.freeVars, (S y ∧ y ≠ x) ∧ z ∈ (σ.image y).freeVars := by
  constructor
  · rintro ⟨⟨y, hy, hS, hz⟩, hne⟩
    by_cases hyx : y = x
    · subst hyx
      rw [image_enter_self σ b taken y hx] at hz
      exact absurd (List.mem_singleton.mp hz) hne
    · rw [image_enter_of_ne σ b taken x hyx] at hz
      exact ⟨y, hy, ⟨hS, hyx⟩, hz⟩
  · rintro ⟨y, hy, ⟨hS, hyx⟩, hz⟩
    refine ⟨⟨y, hy, hS, (image_enter_of_ne σ b taken x hyx).symm ▸ hz⟩, ?_⟩
    rintro rfl
    exact notMem_freeVars_enter σ b taken x hy hyx hz

end enter

theorem image_erase_of_ne (σ : Subst) {x y : String} (h : y ≠ x) : (σ.erase x).image y = σ.image y := by
  rw [image, lookup_erase, if_neg h, image]

theorem lookup_erase_self (σ : Subst) (x : String) : (σ.erase x).lookup x = none := by
  simp [lookup_erase]

theorem lookup_erase_erase (σ : Subst) (f x : String) : ((σ.erase f).erase x).lookup f = none := by
  simp [lookup_erase]

def nameless (σ : Subst) : Ref → Nameless
  | .bound i => .var (.bound i)
  | .free x =>
    match σ.lookup x with
    | some t => t.nameless
    | none => .var (.free x)

theorem nameless_image (σ : Subst) (x : String) : (σ.image x).nameless = σ.nameless (.free x) := by
  rw [image, nameless]
  cases σ.lookup x <;> rfl

theorem nameless_congr {σ τ : Subst}
    (h : ∀ x, Option.Rel (fun t s => t.alphaEq s = true) (σ.lookup x) (τ.lookup x)) : σ.nameless = τ.nameless := by
  funext v
  cases v with
  | bound i => rfl
  | free x =>
    have hx := h x
    rw [nameless, nameless]
    generalize σ.lookup x = s, τ.lookup x = t at hx
    cases hx with
    | some hts => exact Term.alphaEq_iff.mp hts
    | none => rfl

end Subst

namespace Term

open Subst

theorem namelessIn_subst {e : Term} {σ : Subst} {ρ ρ' : Naming} {θ : Ref → Nameless}
    (h : ∀ y ∈ e.freeVars, (σ.image y).namelessIn ρ' = θ (ρ y)) :
    (e.subst σ).namelessIn ρ' = (e.namelessIn ρ).subst θ := by
  induction e generalizing σ ρ ρ' θ with
  | var x l =>
    rw [subst, namelessIn, Nameless.subst, ← h x (by simp [freeVars]), image]
    cases σ.lookup x <;> rfl
  | lit v => rfl
  | app f a ihf iha =>
    rw [subst, namelessIn, namelessIn, Nameless.subst, ihf fun y hy => h y (by simp [freeVars, hy]),
      iha fun y hy => h y (by simp [freeVars, hy])]
  | lam x b ih =>
    rw [subst, namelessIn, namelessIn, Nameless.subst]
    congr 1
    apply ih
    intro y hy
    refine namelessIn_image_enter (σ.erase x) b [] x (fun _ => True) (.inr (lookup_erase_self σ x)) ?_ y hy trivial
    intro y hy _ hyx
    rw [image_erase_of_ne σ hyx]
    exact h y (mem_freeVars_lam.mpr ⟨hy, hyx⟩)
  | recur f x b ih =>
    rw [subst, namelessIn, namelessIn, Nameless.subst]
    congr 1
    apply ih
    intro y hy
    -- the argument's name is settled by the inner binder only
    refine namelessIn_image_enter _ b _ x (fun _ => True) ?_ ?_ y hy trivial
    · exact captures_or_lookup_enter _ b [] x f (lookup_erase_self _ x)
    · intro y hy _ hyx
      refine namelessIn_image_enter _ b [] f (· ≠ x) (.inr (lookup_erase_erase σ f x)) ?_ y hy hyx
      intro y hy hyx hyf
      rw [image_erase_of_ne _ hyx, image_erase_of_ne _ hyf]
      exact h y (mem_freeVars_recur.mpr ⟨hy, hyf, hyx⟩)

theorem mem_freeVars_subst {e : Term} {σ : Subst} {z : String} :
    z ∈ (e.subst σ).freeVars ↔ ∃ y ∈ e.freeVars, z ∈ (σ.image y).freeVars := by
  induction e generalizing σ z with
  | var x l =>
    rw [subst, freeVars]
    cases h : σ.lookup x <;> simp [image, h, freeVars]
  | lit v => simp [subst, freeVars]
  | app f a ihf iha => simp [subst, freeVars, ihf, iha, or_and_right, exists_or]
  | lam x b ih =>
    have hbinder := mem_freeVars_image_enter (σ.erase x) b [] x (fun _ => True) (.inr (lookup_erase_self σ x)) z
    simp only [true_and] at hbinder
    rw [subst, mem_freeVars_lam, ih, hbinder]
    refine exists_congr fun y => ?_
    rw [mem_freeVars_lam, and_assoc]
    exact and_congr_right fun _ => and_congr_right fun hyx => by rw [image_erase_of_ne σ hyx]
  | recur f x b ih =>
    have houter := mem_freeVars_image_enter _ b [] f (· ≠ x) (.inr (lookup_erase_erase σ f x)) z
    have hinner := mem_freeVars_image_enter _ b [(((σ.erase f).erase x).enter b [] f).1] x (fun _ => True)
      (captures_or_lookup_enter _ b [] x f (lookup_erase_self (σ.erase f) x)) z
    simp only [true_and] at hinner
    rw [subst, mem_freeVars_recur, ih, and_comm (a := z ≠ _), ← and_assoc, hinner, houter]
    refine exists_congr fun y => ?_
    rw [mem_freeVars_recur, and_assoc, and_assoc]
    refine and_congr_right fun _ => ?_
    rw [← and_assoc, and_comm (a := y ≠ x)]
    exact and_congr_right fun hy => by rw [image_erase_of_ne _ hy.2, image_erase_of_ne _ hy.1]

theorem nameless_subst (e : Term) (σ : Subst) : (e.subst σ).nameless = e.nameless.subst σ.nameless :=
  namelessIn_subst fun x _ => σ.nameless_image x

theorem namelessIn_beta (ρ : Naming) (x : String) (b a : Term) :
    (b.subst (Subst.bind [] x a)).namelessIn ρ = (b.namelessIn (ρ.enter x)).instantiate (a.namelessIn ρ) := by
  apply namelessIn_subst
  intro y _
  by_cases hyx : y = x
  · simp [image_bind, hyx]
  · simp [image_bind, image_nil, hyx, namelessIn]

theorem namelessIn_unroll (ρ : Naming) (f x : String) (b a : Term) :
    (b.subst (Subst.bind (Subst.bind [] f (recur f x b)) x a)).namelessIn ρ =
      (b.namelessIn ((ρ.enter f).enter x)).unroll (a.namelessIn ρ) := by
  apply namelessIn_subst
  intro y _
  by_cases hyx : y = x
  · simp [image_bind, hyx]
  · by_cases hyf : y = f
    · subst hyf
      simp [image_bind, hyx, namelessIn]
    · simp [image_bind, image_nil, hyx, hyf, namelessIn]

/-- Substitution is that of nameless forms. So it goes from terms that differ in the names of binders to terms that do,
and free in its result is what is free in the term and not replaced, or free in what replaces something. -/
theorem subst_captureAvoiding (e : Term) (σ : Subst) :
    (e.subst σ).nameless = e.nameless.subst σ.nameless ∧
    (∀ (f : Term) (τ : Subst), e.alphaEq f = true →
      (∀ x, Option.Rel (fun t s => t.alphaEq s = true) (σ.lookup x) (τ.lookup x)) →
      (e.subst σ).alphaEq (f.subst τ) = true) ∧
    ∀ z, z ∈ (e.subst σ).freeVars ↔
      z ∈ e.freeVars ∧ z ∉ σ.names ∨ ∃ x ∈ e.freeVars, ∃ t, σ.lookup x = some t ∧ z ∈ t.freeVars := by
  refine ⟨nameless_subst e σ, fun f τ hef hστ => ?_, fun z => ?_⟩
  · rw [alphaEq_iff, nameless_subst, nameless_subst, alphaEq_iff.mp hef, nameless_congr hστ]
  · rw [mem_freeVars_subst]
    constructor
    · rintro ⟨x, hx, hz⟩
      rw [image] at hz
      cases hl : σ.lookup x with
      | none =>
        rw [hl] at hz
        obtain rfl := List.mem_singleton.mp hz
        exact .inl ⟨hx, notMem_names_iff.mpr hl⟩
      | some t =>
        rw [hl] at hz
        exact .inr ⟨x, hx, t, hl, hz⟩
    · rintro (⟨hz, hnames⟩ | ⟨x, hx, t, hl, hz⟩)
      · exact ⟨z, hz, by simp [image, notMem_names_iff.mp hnames, freeVars]⟩
      · exact ⟨x, hx, by simpa [image, hl] using hz⟩

-- the first new name is that of the second binder, which has to give way in turn
example : (recur "f" "f'1" (app (var "f" none) (var "y" none))).subst [("y", var "f" none)] =
    recur "f'1" "f'1'1" (app (var "f'1" none) (var "f" none)) := by decide

end Term

end IndexedTyping
