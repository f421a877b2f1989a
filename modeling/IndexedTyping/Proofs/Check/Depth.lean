import IndexedTyping.Proofs.Unify.Termination

/-!
Only unification looks at the limit on the depth, so what checking does can be told for all limits at once: an action
comes to an end if from some limit on it has the same result, but for the limit in the context.
-/

namespace IndexedTyping

def Context.withDepth (n : Nat) (c : Context) : Context := { c with options := { c.options with depth := n } }

namespace Context

@[simp] theorem store_withDepth (n : Nat) (c : Context) : (c.withDepth n).store = c.store := rfl

@[simp] theorem strictOccurs_withDepth (n : Nat) (c : Context) :
    (c.withDepth n).options.strictOccurs = c.options.strictOccurs := rfl

@[simp] theorem judgment?_withDepth (n : Nat) (c : Context) (e : Term) :
    (c.withDepth n).judgment? e = c.judgment? e := rfl

theorem closeScope_withDepth (n : Nat) (c : Context) : (c.withDepth n).closeScope = c.closeScope.withDepth n := by
  obtain ⟨_, _, _, _, _, scopes⟩ := c
  cases scopes <;> rfl

end Context

namespace CheckM

open Context

variable {α β : Type}

def withDepth (n : Nat) : EStateM.Result CheckError Context α → EStateM.Result CheckError Context α
  | .ok a d => .ok a (d.withDepth n)
  | .error e d => .error e (d.withDepth n)

def Oblivious (m : CheckM α) : Prop := ∀ n c, m (c.withDepth n) = withDepth n (m c)

namespace Oblivious

theorem bind {m : CheckM α} {k : α → CheckM β} (hm : Oblivious m) (hk : ∀ a, Oblivious (k a)) :
    Oblivious (m >>= k) := by
  intro n c
  have hrun := hm n c
  cases hr : m c with
  | ok a d =>
    rw [hr] at hrun
    rw [bind_ok hr, bind_ok hrun]
    exact hk a n d
  | error e d =>
    rw [hr] at hrun
    rw [bind_error hr, bind_error hrun]
    rfl

theorem resolve (t : OpenTy) : Oblivious (resolve t) := by
  intro n c
  rw [resolve_run, resolve_run, store_withDepth]
  cases c.store.resolve t <;> rfl

theorem resolveTy (t : Ty) : Oblivious (resolveTy t) := by
  intro n c
  rw [resolveTy_run, resolveTy_run, store_withDepth]
  cases c.store.resolveTy t <;> rfl

theorem typeOf (e : Term) : Oblivious (typeOf e) := by
  intro n c
  rw [typeOf_run, typeOf_run, judgment?_withDepth]
  cases c.judgment? e with
  | none => rfl
  | some j => exact resolve j.type n c

theorem bindUnknown (x : String) (t : OpenTy) : Oblivious (bindUnknown x t) := by
  intro n c
  rw [bindUnknown_run, bindUnknown_run, store_withDepth, strictOccurs_withDepth]
  cases c.store.binding x t with
  | error e => rfl
  | ok b =>
    dsimp only
    cases c.store.insert c.options.strictOccurs b <;> rfl

theorem congruence : Congruence (fun _ => True) (fun _ => True) fun m _ => Oblivious m where
  mismatch _ _ _ _ := rfl
  bindUnknown _ _ := .bindUnknown _ _
  seq hm hk := hm.bind fun _ => hk
  typeOf _ hk := (Oblivious.typeOf _).bind fun t => hk t t.over_true
  resolve _ hk := (Oblivious.resolve _).bind fun t => hk t t.over_true
  differ {a b m _} hm n c := by
    change (if a.same c.options.budget b then pure () else m : CheckM Unit) (c.withDepth n) =
      withDepth n ((if a.same c.options.budget b then pure () else m : CheckM Unit) c)
    split
    · rfl
    · exact hm n c
  enter _ _ _ _ := rfl
  leave _ _ _ _ := rfl

theorem unifyWithin (n : Nat) (a b : OpenTy) : Oblivious (unifyWithin n a b) := by
  induction n generalizing a b with
  | zero => exact fun _ _ => rfl
  | succ n ih => exact congruence.unifyWithin_succ n n (fun _ _ => ih _ _) a.over_true b.over_true

end Oblivious

def Completes (P : Context → Prop) (m : CheckM α) (Q : α → Context → Prop) : Prop :=
  ∀ c, P c → ∃ N r, Ends r Q (fun e _ => e.Proper) ∧ ∀ n ≥ N, m (c.withDepth n) = withDepth n r

namespace Completes

variable {P : Context → Prop} {m : CheckM α} {Q : α → Context → Prop}

theorem of_oblivious (hm : Oblivious m) (h : ∀ c, P c → Ends (m c) Q fun e _ => e.Proper) : Completes P m Q :=
  fun c hc => ⟨0, m c, h c hc, fun n _ => hm n c⟩

theorem bind {R : β → Context → Prop} {k : α → CheckM β} (hm : Completes P m Q) (hk : ∀ a, Completes (Q a) (k a) R) :
    Completes P (m >>= k) R := by
  intro c hc
  obtain ⟨N, r, hend, hr⟩ := hm c hc
  cases r with
  | error e d => exact ⟨N, .error e d, hend, fun n hn => bind_error (hr n hn)⟩
  | ok a d =>
    obtain ⟨N', r', hend', hr'⟩ := hk a d hend
    refine ⟨max N N', r', hend', fun n hn => ?_⟩
    have hfirst : m (c.withDepth n) = .ok a (d.withDepth n) := hr n (Nat.le_trans (Nat.le_max_left N N') hn)
    exact (bind_ok hfirst).trans (hr' n (Nat.le_trans (Nat.le_max_right N N') hn))

theorem andThen {R : β → Context → Prop} {k : α → CheckM β} {φ : α → Prop} {Q : Context → Prop}
    (hm : Completes P m fun a d => Q d ∧ φ a) (hk : ∀ a, φ a → Completes Q (k a) R) : Completes P (m >>= k) R :=
  hm.bind fun a c hc => hk a hc.2 c hc.1

theorem get_bind {k : Context → CheckM α} (hk : ∀ d, Completes (fun c => P c ∧ c = d) (k d) Q)
    (h : ∀ n c, k (c.withDepth n) = k c) : Completes P (get >>= k) Q := by
  intro c hc
  obtain ⟨N, r, hend, hr⟩ := hk c c ⟨hc, rfl⟩
  refine ⟨N, r, hend, fun n hn => ?_⟩
  change k (c.withDepth n) (c.withDepth n) = _
  rw [h, hr n hn]

theorem pre {P' : Context → Prop} (hm : Completes P m Q) (hP : ∀ c, P' c → P c) : Completes P' m Q :=
  fun c hc => hm c (hP c hc)

theorem post {Q' : α → Context → Prop} (hm : Completes P m Q) (hQ : ∀ a d, Q a d → Q' a d) : Completes P m Q' := by
  intro c hc
  obtain ⟨N, r, hend, hr⟩ := hm c hc
  exact ⟨N, r, hend.mono hQ fun _ _ h => h, hr⟩

end Completes

end CheckM

end IndexedTyping
