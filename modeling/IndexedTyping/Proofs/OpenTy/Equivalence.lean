import IndexedTyping.Proofs.OpenTy.Equality
import IndexedTyping.Proofs.Reduction.Conversion
import IndexedTyping.Proofs.Reduction.Renaming

namespace IndexedTyping

/-- A comparison that takes fuel: an equivalence for every amount of it, and what is equal stays so with more. -/
structure FuelEquality {α : Type} (eq : Int → α → α → Bool) : Prop where
  equivalence (fuel : Int) : Equivalence fun a b => eq fuel a b = true
  mono {fuel more : Int} {a b : α} : fuel ≤ more → eq fuel a b = true → eq more a b = true

theorem FuelEquality.of_join {α : Type} {eq : Nat → α → α → Bool} (hrefl : ∀ n a, eq n a a = true)
    (hcomm : ∀ n a b, eq n a b = eq n b a)
    (hjoin : ∀ {n m k a b c}, n ≤ k → m ≤ k → eq n a b = true → eq m b c = true → eq k a c = true) :
    FuelEquality fun fuel => eq (budgetOf fuel) where
  equivalence _ :=
    { refl := hrefl _
      symm := fun h => hcomm _ _ _ ▸ h
      trans := hjoin (Nat.le_refl _) (Nat.le_refl _) }
  mono hle h := hjoin (Int.toNat_le_toNat hle) (Nat.le_refl _) h (hrefl _ _)

namespace Term

variable {e f g : Term} {n m k : Nat}

theorem nameless_normalize_congr (h : e.nameless = f.nameless) (n : Nat) :
    (e.normalize n).term.nameless = (f.normalize n).term.nameless :=
  (blind_leftmost.reducesWithin @Leftmost.unique @Leftmost.not_normal (reducesWithin_normalize n e)
    (reducesWithin_normalize n f) h).1

theorem term_normalize_add (n m : Nat) (e : Term) :
    (e.normalize (n + m)).term = ((e.normalize n).term.normalize m).term := by
  have hn := reducesWithin_normalize n e
  have hunique : ∀ r, ReducesWithin Leftmost Normal (n + m) e r → e.normalize (n + m) = r := fun r hr =>
    (reducesWithin_normalize (n + m) e).unique @Leftmost.unique @Leftmost.not_normal hr
  by_cases hleft : (e.normalize n).left = 0
  · have hsteps : Steps Leftmost (n + m - m) e (e.normalize n).term := by
      simpa [Reduct.steps, hleft] using hn.steps
    rw [hunique _ (.trans (Nat.le_add_left m n) hsteps (reducesWithin_normalize m _))]
  · -- the smaller budget was enough for a normal form, and the larger one changes nothing
    have hnormal := hn.done_of_left hleft
    have hreduct : ReducesWithin Leftmost Normal (n + m) e ⟨(e.normalize n).term, (e.normalize n).left + m⟩ :=
      { left_le := Nat.add_le_add_right hn.left_le m
        steps := by simpa [Reduct.steps, Nat.add_sub_add_right] using hn.steps
        done := fun _ => hnormal }
    rw [hunique _ hreduct, term_normalize_of_normal hnormal]

theorem convertible_iff : e.convertible n f = true ↔ (e.normalize n).term.nameless = (f.normalize n).term.nameless := by
  rw [convertible, Bool.or_eq_true, alphaEq_iff, alphaEq_iff]
  exact or_iff_right_of_imp fun h => nameless_normalize_congr h n

theorem convertible_mono (h : n ≤ m) (hef : e.convertible n f = true) : e.convertible m f = true := by
  obtain ⟨k, rfl⟩ := Nat.exists_eq_add_of_le h
  rw [convertible_iff, term_normalize_add, term_normalize_add]
  exact nameless_normalize_congr (convertible_iff.mp hef) k

theorem convertible_join (hn : n ≤ k) (hm : m ≤ k) (hef : e.convertible n f = true) (hfg : f.convertible m g = true) :
    e.convertible k g = true := by
  have heq := convertible_iff.mp (convertible_mono hn hef)
  exact convertible_iff.mpr (heq.trans (convertible_iff.mp (convertible_mono hm hfg)))

theorem sameIndex_eq_convertible : sameIndex = convertible := by
  funext n e f
  rw [sameIndex, Bool.or_eq_right_iff_imp]
  exact fun h => Bool.or_eq_true_iff.mpr (.inl (alphaEq_of_same h))

theorem sameIndex_join (hn : n ≤ k) (hm : m ≤ k) (hef : e.sameIndex n f = true) (hfg : f.sameIndex m g = true) :
    e.sameIndex k g = true := by
  rw [sameIndex_eq_convertible] at *
  exact convertible_join hn hm hef hfg

end Term

theorem Ty.same_join {n m k : Nat} {t s u : Ty} (hn : n ≤ k) (hm : m ≤ k) (hts : t.same n s = true)
    (hsu : s.same m u = true) : t.same k u = true := by
  induction t generalizing s u with
  | name x => cases s <;> cases u <;> simp_all [same]
  | prim p => cases s <;> cases u <;> simp_all [same]
  | fn a b iha ihb | app a b iha ihb =>
    cases s <;> simp only [same, Bool.and_eq_true, Bool.false_eq_true] at hts
    cases u <;> simp only [same, Bool.and_eq_true, Bool.false_eq_true] at hsu
    simp [same, iha hts.1 hsu.1, ihb hts.2 hsu.2]
  | all x l a ih =>
    cases s <;> simp only [same, Bool.and_eq_true, beq_iff_eq, Bool.false_eq_true] at hts
    cases u <;> simp only [same, Bool.and_eq_true, beq_iff_eq, Bool.false_eq_true] at hsu
    simp [same, hts.1, hsu.1, ih hts.2 hsu.2]
  | indexed a e ih =>
    cases s <;> simp only [same, Bool.and_eq_true, Bool.false_eq_true] at hts
    cases u <;> simp only [same, Bool.and_eq_true, Bool.false_eq_true] at hsu
    simp [same, ih hts.1 hsu.1, Term.sameIndex_join hn hm hts.2 hsu.2]

theorem OpenTy.same_join {n m k : Nat} {a b c : OpenTy} (hn : n ≤ k) (hm : m ≤ k) (hab : a.same n b = true)
    (hbc : b.same m c = true) : a.same k c = true := by
  induction a generalizing b c with
  | ground t =>
    cases b <;> simp only [same, Bool.false_eq_true] at hab
    cases c <;> simp only [same, Bool.false_eq_true] at hbc
    exact Ty.same_join hn hm hab hbc
  | unknown x => cases b <;> cases c <;> simp_all [same]
  | fn a a' iha iha' | app a a' iha iha' =>
    cases b <;> simp only [same, Bool.and_eq_true, Bool.false_eq_true] at hab
    cases c <;> simp only [same, Bool.and_eq_true, Bool.false_eq_true] at hbc
    simp [same, iha hab.1 hbc.1, iha' hab.2 hbc.2]
  | all x l a ih =>
    cases b <;> simp only [same, Bool.and_eq_true, beq_iff_eq, Bool.false_eq_true] at hab
    cases c <;> simp only [same, Bool.and_eq_true, beq_iff_eq, Bool.false_eq_true] at hbc
    simp [same, hab.1, hbc.1, ih hab.2 hbc.2]
  | indexed a e ih =>
    cases b <;> simp only [same, Bool.and_eq_true, Bool.false_eq_true] at hab
    cases c <;> simp only [same, Bool.and_eq_true, Bool.false_eq_true] at hbc
    simp [same, ih hab.1 hbc.1, Term.sameIndex_join hn hm hab.2 hbc.2]

/-- Terms up to reduction, indices of types, types and types with unknowns are compared by equivalences at every fuel,
and with more fuel nothing ceases to be equal. -/
theorem fuelEquality_same :
    FuelEquality (fun fuel => Term.convertible (budgetOf fuel)) ∧
    FuelEquality (fun fuel => Term.sameIndex (budgetOf fuel)) ∧
    FuelEquality (fun fuel => Ty.same (budgetOf fuel)) ∧
    FuelEquality (fun fuel => OpenTy.same (budgetOf fuel)) := by
  have hindex : FuelEquality fun fuel => Term.sameIndex (budgetOf fuel) :=
    .of_join Term.sameIndex_refl Term.sameIndex_comm Term.sameIndex_join
  refine ⟨?_, hindex, .of_join Ty.same_refl Ty.same_comm Ty.same_join,
    .of_join OpenTy.same_refl OpenTy.same_comm OpenTy.same_join⟩
  exact Term.sameIndex_eq_convertible ▸ hindex

end IndexedTyping
