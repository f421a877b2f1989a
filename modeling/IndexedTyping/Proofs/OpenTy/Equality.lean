import IndexedTyping.Proofs.Nameless.Comparison
import IndexedTyping.Proofs.OpenTy.Agreement

namespace IndexedTyping

namespace Term

theorem same_comm (e f : Term) : e.same f = f.same e := by
  rw [Bool.eq_iff_iff, same_iff, same_iff, eq_comm]

theorem alphaEq_comm (e f : Term) : e.alphaEq f = f.alphaEq e := by
  rw [Bool.eq_iff_iff, alphaEq_iff, alphaEq_iff, eq_comm]

@[simp] theorem sameIndex_refl (budget : Nat) (e : Term) : e.sameIndex budget e = true := by
  simp [sameIndex, same_iff]

theorem sameIndex_comm (budget : Nat) (e f : Term) : e.sameIndex budget f = f.sameIndex budget e := by
  simp only [sameIndex, convertible, same_comm e f, alphaEq_comm e f, alphaEq_comm (e.normalize budget).term]

end Term

namespace Ty

@[simp] theorem same_refl (budget : Nat) (t : Ty) : t.same budget t = true := by
  induction t <;> simp [same, *]

theorem same_comm (budget : Nat) (t s : Ty) : t.same budget s = s.same budget t := by
  induction t generalizing s <;> cases s <;> simp [same, Term.sameIndex_comm budget, Bool.beq_comm, *]

end Ty

namespace OpenTy

@[simp] theorem same_refl (budget : Nat) (a : OpenTy) : a.same budget a = true := by
  induction a <;> simp [same, *]

theorem same_comm (budget : Nat) (a b : OpenTy) : a.same budget b = b.same budget a := by
  induction a generalizing b <;> cases b <;>
    simp [same, Ty.same_comm budget, Term.sameIndex_comm budget, Bool.beq_comm, *]

theorem same_bind {budget : Nat} {a b : OpenTy} (h : a.same budget b = true) (θ : String → OpenTy) :
    (a.bind θ).same budget (b.bind θ) = true := by
  induction a generalizing b with
  | ground t => cases b <;> simp_all [same, bind]
  | unknown x => cases b <;> simp_all [same, bind]
  | fn a a' iha iha' | app a a' iha iha' =>
    cases b <;> simp only [same, Bool.and_eq_true, Bool.false_eq_true] at h
    simp [same, bind, iha h.1, iha' h.2]
  | all x l a ih =>
    cases b <;> simp only [same, Bool.and_eq_true, Bool.false_eq_true] at h
    simp [same, bind, ih h.2, beq_iff_eq.mp h.1]
  | indexed a e ih =>
    cases b <;> simp only [same, Bool.and_eq_true, Bool.false_eq_true] at h
    simp [same, bind, ih h.1, h.2]

end OpenTy

end IndexedTyping
