import IndexedTyping.Proofs.Check.Action

namespace IndexedTyping

namespace CheckM

variable {α α' β β' : Type}

def Both (P : α → Context → α' → Context → Prop) :
    EStateM.Result CheckError Context α → EStateM.Result CheckError Context α' → Prop
  | .ok a c, .ok b d => P a c b d
  | .error .., .error .. => True
  | _, _ => False

/-- `R` relates the contexts before and `S` those after. -/
def Lockstep (R S : Context → Context → Prop) (Q : α → α' → Prop) (m : CheckM α) (m' : CheckM α') : Prop :=
  ∀ c d, R c d → Both (fun a c' b d' => Q a b ∧ S c' d') (m c) (m' d)

namespace Lockstep

variable {R S T : Context → Context → Prop} {Q : α → α' → Prop} {P : β → β' → Prop} {m : CheckM α} {m' : CheckM α'}

theorem bind {k : α → CheckM β} {k' : α' → CheckM β'} (hm : Lockstep R S Q m m')
    (hk : ∀ a b, Q a b → Lockstep S T P (k a) (k' b)) : Lockstep R T P (m >>= k) (m' >>= k') := by
  intro c d h
  have hcd := hm c d h
  simp only [Bind.bind, EStateM.bind]
  revert hcd
  cases m c <;> cases m' d <;> intro hcd
  · exact hk _ _ hcd.1 _ _ hcd.2
  · exact False.elim hcd
  · exact False.elim hcd
  · trivial

theorem pre {R' : Context → Context → Prop} (h : Lockstep R S Q m m') (hR : ∀ c d, R' c d → R c d) :
    Lockstep R' S Q m m' :=
  fun c d hcd => h c d (hR c d hcd)

theorem pure {a : α} {b : α'} (h : Q a b) : Lockstep R R Q (pure a) (pure b) := fun _ _ hcd => ⟨h, hcd⟩

theorem throw {e e' : CheckError} : Lockstep R S Q (throw e) (throw e') := fun _ _ _ => trivial

end Lockstep

end CheckM

theorem check_ok_eq_of_both {options : Options} {trace : Trace} {p q : Program}
    {P : Unit → Context → Unit → Context → Prop}
    (h : CheckM.Both P (CheckM.checkAll p (.new options trace)) (CheckM.checkAll q (.new options trace))) :
    (check options trace p).ok = (check options trace q).ok := by
  rw [check, check]
  revert h
  cases CheckM.checkAll p (.new options trace) <;> cases CheckM.checkAll q (.new options trace) <;> intro h
  · rfl
  · exact False.elim h
  · exact False.elim h
  · rfl

end IndexedTyping
