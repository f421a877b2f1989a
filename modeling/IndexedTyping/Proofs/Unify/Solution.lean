import IndexedTyping.Proofs.OpenTy.Agreement
import IndexedTyping.Proofs.Store.Substitution
import IndexedTyping.Proofs.Unify.Depth
import IndexedTyping.Proofs.Unify.Plan
import Mathlib.Data.Finset.Card

namespace IndexedTyping

open OpenTy

namespace Store

def SolvedBy (s : Store) (θ : String → OpenTy) : Prop := ∀ b ∈ s, Agree (θ b.name) (b.value.bind θ)

def FirstOrder (s : Store) : Prop := ∀ b ∈ s, b.value.FirstOrder

def Within (V : Set String) (s : Store) : Prop := ∀ b ∈ s, b.name ∈ V ∧ ∀ y ∈ b.value.unknowns, y ∈ V

theorem solvedBy_append {s : Store} {b : Binding} {θ : String → OpenTy} :
    SolvedBy (s ++ [b]) θ ↔ s.SolvedBy θ ∧ Agree (θ b.name) (b.value.bind θ) := by
  simp [SolvedBy, or_imp, forall_and]

theorem SolvedBy.agree_apply {s : Store} {θ : String → OpenTy} (h : s.SolvedBy θ) (t : OpenTy) :
    Agree ((s.apply t).bind θ) (t.bind θ) := by
  induction s generalizing t with
  | nil => exact .refl _
  | cons b s ih =>
    rw [apply_cons]
    refine (ih (fun c hc => h c (List.mem_cons_of_mem b hc)) _).trans ?_
    rw [Binding.replace, bind_bind]
    refine agree_bind fun x _ => ?_
    split
    · next hx =>
      subst hx
      exact (h b List.mem_cons_self).symm
    · exact .refl _

theorem FirstOrder.apply {s : Store} (hs : s.FirstOrder) {t : OpenTy} (ht : t.FirstOrder) : (s.apply t).FirstOrder := by
  induction s generalizing t with
  | nil => exact ht
  | cons b s ih =>
    refine ih (fun c hc => hs c (List.mem_cons_of_mem b hc)) (ht.bind fun x _ => ?_)
    split
    · exact hs b List.mem_cons_self
    · trivial

theorem FirstOrder.append {s : Store} {b : Binding} (hs : s.FirstOrder) (hb : b.value.FirstOrder) :
    FirstOrder (s ++ [b]) := by
  intro c hc
  rcases List.mem_append.mp hc with hc | hc
  · exact hs c hc
  · cases List.mem_singleton.mp hc
    exact hb

theorem Within.mono {V W : Set String} {s : Store} (h : s.Within V) (hVW : V ⊆ W) : s.Within W :=
  fun b hb => ⟨hVW (h b hb).1, fun y hy => hVW ((h b hb).2 y hy)⟩

theorem Within.mem_apply {V : Set String} {s : Store} (hs : s.Within V) {t : OpenTy} (ht : ∀ x ∈ t.unknowns, x ∈ V) :
    ∀ x ∈ (s.apply t).unknowns, x ∈ V := by
  induction s generalizing t with
  | nil => exact ht
  | cons b s ih =>
    refine ih (fun c hc => hs c (List.mem_cons_of_mem b hc)) fun x hx => ?_
    obtain ⟨y, hy, hxy⟩ := mem_unknowns_bind.mp hx
    split at hxy
    · exact (hs b List.mem_cons_self).2 x hxy
    · exact List.mem_singleton.mp hxy ▸ ht y hy

theorem Triangular.solvedBy_apply {s : Store} (h : Triangular true s) : s.SolvedBy fun x => s.apply (.unknown x) := by
  intro b hb
  rw [← apply_eq_bind]
  exact congrArg spread (h.apply_name hb)

theorem Triangular.unifyWithin_succ {c : Context} (hc : c.store.Triangular true) (n : Nat) (a b : OpenTy) :
    CheckM.unifyWithin (n + 1) a b c =
      let a := c.store.apply a
      let b := c.store.apply b
      let message := a.render ++ " <~> " ++ b.render
      if a.same c.options.budget b then .ok () c
      else (do
        CheckM.enter "Begin Unify" message
        CheckM.unifyStep (CheckM.unifyWithin n) a b
        CheckM.leave "End Unify" message : CheckM Unit) c := by
  simp only [CheckM.unifyStep_eq_carryOut]
  exact CheckM.unifyWithin_succ (hc.resolve_eq_apply a) (hc.resolve_eq_apply b) n

end Store

structure Context.Regular (c : Context) : Prop where
  strict : c.options.strictOccurs = true
  triangular : c.store.Triangular true
  firstOrder : c.store.FirstOrder

theorem Context.Regular.copy {c d : Context} (h : c.Regular) (hoptions : d.options = c.options)
    (hstore : d.store = c.store) : d.Regular :=
  ⟨hoptions ▸ h.strict, hstore ▸ h.triangular, hstore ▸ h.firstOrder⟩

/-- From `c` to `d` the solutions are narrowed down to those that satisfy `P`, by bindings within `V`. -/
structure Narrows (V : Finset String) (P : (String → OpenTy) → Prop) (c d : Context) : Prop where
  regular : d.Regular
  solvedBy_iff : ∀ θ, d.store.SolvedBy θ ↔ c.store.SolvedBy θ ∧ P θ
  grows : ∃ new : Store, d.store = c.store ++ new ∧ new.Within V

def CheckError.Clash (e : CheckError) : Prop := (∃ a b, e = .mismatch a b) ∨ ∃ b, e = .cyclic b

structure Refutes (P : (String → OpenTy) → Prop) (c : Context) (e : CheckError) : Prop where
  clash : e.Clash
  unsolvable : ∀ θ, c.store.SolvedBy θ → ¬P θ

section

variable {V W : Finset String} {P P' : (String → OpenTy) → Prop} {c d e : Context} {err : CheckError}

theorem Narrows.refl (hc : c.Regular) (hP : ∀ θ, c.store.SolvedBy θ → P θ) : Narrows V P c c :=
  ⟨hc, fun θ => ⟨fun h => ⟨h, hP θ h⟩, And.left⟩, [], by simp, by simp [Store.Within]⟩

theorem Narrows.trans (h : Narrows V P c d) (h' : Narrows V P' d e) : Narrows V (fun θ => P θ ∧ P' θ) c e := by
  obtain ⟨new, hnew, hwithin⟩ := h.grows
  obtain ⟨new', hnew', hwithin'⟩ := h'.grows
  refine ⟨h'.regular, fun θ => ?_, new ++ new', by rw [hnew', hnew, List.append_assoc], ?_⟩
  · rw [h'.solvedBy_iff, h.solvedBy_iff, and_assoc]
  · intro b hb
    exact (List.mem_append.mp hb).elim (hwithin b) (hwithin' b)

theorem Narrows.mono (h : Narrows V P c d) (hVW : V ⊆ W) : Narrows W P c d := by
  obtain ⟨new, hnew, hwithin⟩ := h.grows
  exact ⟨h.regular, h.solvedBy_iff, new, hnew, hwithin.mono hVW⟩

theorem Narrows.congr (h : Narrows V P c d) (hP : ∀ θ, c.store.SolvedBy θ → (P θ ↔ P' θ)) : Narrows V P' c d :=
  ⟨h.regular, fun θ => (h.solvedBy_iff θ).trans (and_congr_right (hP θ)), h.grows⟩

theorem Refutes.of_narrows (h : Narrows V P c d) (h' : Refutes P' d err) : Refutes (fun θ => P θ ∧ P' θ) c err :=
  ⟨h'.clash, fun θ hθ hP => h'.unsolvable θ ((h.solvedBy_iff θ).mpr ⟨hθ, hP.1⟩) hP.2⟩

theorem Refutes.congr (h : Refutes P c err) (hP : ∀ θ, c.store.SolvedBy θ → (P θ ↔ P' θ)) : Refutes P' c err :=
  ⟨h.clash, fun θ hθ hP' => h.unsolvable θ hθ ((hP θ hθ).mpr hP')⟩

end

namespace CheckM

def Decides (V : Finset String) (P : (String → OpenTy) → Prop) (m : Nat → CheckM Unit) (c : Context) : Prop :=
  Settles m c (fun _ d => Narrows V P c d) fun e _ => Refutes P c e

section

variable {V W : Finset String} {P P' : (String → OpenTy) → Prop} {m k : Nat → CheckM Unit} {c : Context}

theorem Decides.mono (h : Decides V P m c) (hVW : V ⊆ W) : Decides W P m c :=
  Settles.mono h (fun _ _ hd => hd.mono hVW) fun _ _ he => he

theorem Decides.congr (h : Decides V P m c) (hP : ∀ θ, c.store.SolvedBy θ → (P θ ↔ P' θ)) : Decides V P' m c :=
  Settles.mono h (fun _ _ hd => hd.congr hP) fun _ _ he => he.congr hP

theorem Decides.seq (h : Decides V P m c) (hk : ∀ d, Narrows V P c d → Decides V P' k d) :
    Decides V (fun θ => P θ ∧ P' θ) (fun n => do m n; k n) c := by
  refine Settles.bind (Settles.mono h (fun _ d hd => ?_) fun e d he => ?_)
  · exact Settles.mono (hk d hd) (fun _ _ he => hd.trans he) fun _ _ he => he.of_narrows hd
  · exact ⟨he.clash, fun θ hθ hP => he.unsolvable θ hθ hP.1⟩

theorem Decides.traced (h : ∀ t, Decides V P m { c with trace := t }) (phase phase' message : String) :
    Decides V P (fun n => do enter phase message; m n; leave phase' message) c := by
  refine Settles.bind (settles_of_ends (m := enter phase message) ?_)
  refine Settles.bind (Settles.mono (h _) (fun _ d hd => settles_of_ends ?_) fun e d he => ?_)
  · exact ⟨hd.regular.copy rfl rfl, hd.solvedBy_iff, hd.grows⟩
  · exact ⟨he.clash, he.unsolvable⟩

theorem decides_of_agree (hc : c.Regular) (hP : ∀ θ, c.store.SolvedBy θ → P θ) : Decides V P (fun _ => pure ()) c :=
  ⟨0, .ok () c, fun _ _ => rfl, .refl hc hP⟩

theorem decides_of_clash {e : CheckError} (he : e.Clash) (hP : ∀ θ, ¬P θ) :
    Decides V P (fun _ => throw e) c :=
  ⟨0, .error e c, fun _ _ => rfl, he, fun θ _ => hP θ⟩

end

end CheckM

end IndexedTyping
