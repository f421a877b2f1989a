import IndexedTyping.Proofs.Unify.Step

namespace IndexedTyping

namespace CheckM

variable {α β : Type}

def Extends (r r' : EStateM.Result CheckError Context α) : Prop :=
  r' = r ∨ ∃ a b d, r = .error (.tooDeep a b) d

def Deepens (m m' : CheckM α) : Prop := ∀ c, Extends (m c) (m' c)

theorem Deepens.refl (m : CheckM α) : Deepens m m := fun _ => .inl rfl

theorem Deepens.trans {m m' m'' : CheckM α} (h : Deepens m m') (h' : Deepens m' m'') : Deepens m m'' := by
  intro c
  rcases h c with hc | hc
  · rw [← hc]
    exact h' c
  · exact .inr hc

theorem Deepens.bind {m m' : CheckM α} {k k' : α → CheckM β} (hm : Deepens m m') (hk : ∀ a, Deepens (k a) (k' a)) :
    Deepens (m >>= k) (m' >>= k') := by
  intro c
  rcases hm c with hc | ⟨a, b, d, hc⟩
  · cases hr : m c with
    | ok a d =>
      rw [bind_ok hr, bind_ok (hc.trans hr)]
      exact hk a d
    | error e d =>
      rw [bind_error hr, bind_error (hc.trans hr)]
      exact .inl rfl
  · exact .inr ⟨a, b, d, bind_error hc⟩

theorem Deepens.congruence : Congruence (fun _ => True) (fun _ => True) Deepens where
  mismatch _ _ := .refl _
  bindUnknown _ _ := .refl _
  seq hm hk := hm.bind fun _ => hk
  typeOf _ hk := (Deepens.refl _).bind fun t => hk t t.over_true
  resolve _ hk := (Deepens.refl _).bind fun t => hk t t.over_true
  differ hm := (Deepens.refl get).bind fun c => by
    split
    · exact .refl _
    · exact hm
  enter _ _ := .refl _
  leave _ _ := .refl _

theorem deepens_unifyWithin_succ (n : Nat) (a b : OpenTy) : Deepens (unifyWithin n a b) (unifyWithin (n + 1) a b) := by
  induction n generalizing a b with
  | zero => exact fun c => .inr ⟨a, b, c, rfl⟩
  | succ n ih => exact Deepens.congruence.unifyWithin_succ n (n + 1) (fun _ _ => ih _ _) a.over_true b.over_true

theorem deepens_unifyWithin {n m : Nat} (h : n ≤ m) (a b : OpenTy) :
    Deepens (unifyWithin n a b) (unifyWithin m a b) := by
  induction h with
  | refl => exact .refl _
  | step _ ih => exact ih.trans (deepens_unifyWithin_succ _ a b)

/-- From some depth on the result is the same, and satisfies `Q` or `E`. -/
def Settles (m : Nat → CheckM α) (c : Context) (Q : α → Context → Prop) (E : CheckError → Context → Prop) : Prop :=
  ∃ N r, (∀ n ≥ N, m n c = r) ∧ Ends r Q E

section

variable {m : Nat → CheckM α} {c : Context} {Q : α → Context → Prop} {E : CheckError → Context → Prop}

theorem settles_of_ends {m : CheckM α} (h : Ends (m c) Q E) : Settles (fun _ => m) c Q E :=
  ⟨0, m c, fun _ _ => rfl, h⟩

theorem Settles.mono {Q' : α → Context → Prop} {E' : CheckError → Context → Prop} (h : Settles m c Q E)
    (hQ : ∀ a d, Q a d → Q' a d) (hE : ∀ e d, E e d → E' e d) : Settles m c Q' E' := by
  obtain ⟨N, r, hr, hend⟩ := h
  exact ⟨N, r, hr, hend.mono hQ hE⟩

theorem Settles.bind {k : Nat → α → CheckM β} {Q : β → Context → Prop}
    (h : Settles m c (fun a d => Settles (fun n => k n a) d Q E) E) : Settles (fun n => m n >>= k n) c Q E := by
  obtain ⟨N, r, hr, hend⟩ := h
  cases r with
  | error e d => exact ⟨N, .error e d, fun n hn => bind_error (hr n hn), hend⟩
  | ok a d =>
    obtain ⟨N', r', hr', hend'⟩ := hend
    refine ⟨max N N', r', fun n hn => ?_, hend'⟩
    have hm := hr n (Nat.le_trans (Nat.le_max_left N N') hn)
    exact (bind_ok hm).trans (hr' n (Nat.le_trans (Nat.le_max_right N N') hn))

theorem Settles.of_succ {m' : Nat → CheckM α} (h : Settles m' c Q E) (hm : ∀ n, m (n + 1) c = m' n c) :
    Settles m c Q E := by
  obtain ⟨N, r, hr, hend⟩ := h
  refine ⟨N + 1, r, fun n hn => ?_, hend⟩
  cases n with
  | zero => exact absurd hn (Nat.not_succ_le_zero N)
  | succ n => exact (hm n).trans (hr n (Nat.le_of_succ_le_succ hn))

end

theorem Settles.ends_unifyWithin {a b : OpenTy} {c : Context} {Q : Unit → Context → Prop}
    {E : CheckError → Context → Prop} (h : Settles (fun n => unifyWithin n a b) c Q E) (n : Nat) :
    Ends (unifyWithin n a b c) Q fun e d => E e d ∨ ∃ l r, e = .tooDeep l r := by
  obtain ⟨N, r, hr, hend⟩ := h
  rcases deepens_unifyWithin (Nat.le_max_right N n) a b c with hc | ⟨l, r', d, hc⟩
  · rw [← hc.symm.trans (hr _ (Nat.le_max_left N n))] at hend
    exact hend.mono (fun _ _ h => h) fun _ _ h => .inl h
  · rw [hc]
    exact .inr ⟨l, r', rfl⟩

end CheckM

end IndexedTyping
