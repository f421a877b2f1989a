import IndexedTyping.Proofs.Check.Satisfaction
import IndexedTyping.Proofs.OpenTy.Equality

namespace IndexedTyping

open OpenTy CheckM

theorem Ty.atomic_spread {t : Ty} : t.spread.Atomic ↔ t.FirstOrder := by
  induction t with
  | name | prim | all | indexed => exact Iff.rfl
  | fn t s iht ihs => exact and_congr iht ihs
  | app t s iht ihs => exact and_congr iht ihs

theorem OpenTy.Atomic.exists_spread {a : OpenTy} (h : a.Atomic) (hknown : a.unknowns = []) :
    ∃ t : Ty, t.FirstOrder ∧ a = t.spread := by
  fun_induction Atomic a with
  | case1 x => exact ⟨.name x, trivial, rfl⟩
  | case2 p => exact ⟨.prim p, trivial, rfl⟩
  | case3 x => cases hknown
  | case4 a b iha ihb =>
    obtain ⟨ha, hb⟩ := List.append_eq_nil_iff.mp hknown
    obtain ⟨t, ht, rfl⟩ := iha h.1 ha
    obtain ⟨s, hs, rfl⟩ := ihb h.2 hb
    exact ⟨.fn t s, ⟨ht, hs⟩, rfl⟩
  | case5 a b iha ihb =>
    obtain ⟨ha, hb⟩ := List.append_eq_nil_iff.mp hknown
    obtain ⟨t, ht, rfl⟩ := iha h.1 ha
    obtain ⟨s, hs, rfl⟩ := ihb h.2 hb
    exact ⟨.app t s, ⟨ht, hs⟩, rfl⟩
  | _ => cases h

theorem Ty.spread_ne {t : Ty} {a : OpenTy} {x : String} (hx : x ∈ a.unknowns) : t.spread ≠ a := by
  rintro rfl
  rw [unknowns_spread] at hx
  cases hx

theorem Ty.size_pos (t : Ty) : 0 < t.size := by
  cases t <;> simp [size]

namespace Store

@[simp] theorem resolve_spread (s : Store) (t : Ty) : s.resolve t.spread = .ok t.spread :=
  resolve_eq_self (by simp)

theorem resolve_unknown {s : Store} {x : String} (h : s.Unbound x) : s.resolve (.unknown x) = .ok (.unknown x) :=
  resolve_eq_self fun y hy => by rwa [List.mem_singleton.mp hy]

def know (s : Store) (x : String) (t : Ty) : Store := s ++ [⟨x, t.spread⟩]

theorem Triangular.know {s : Store} {strict : Bool} {x : String} (h : s.Triangular strict) (hx : s.Unbound x) (t : Ty) :
    (s.know x t).Triangular strict :=
  h.append hx (by simp) (by simp [refuses])

theorem Triangular.resolve_know {s : Store} {strict : Bool} {x : String} (h : s.Triangular strict) (hx : s.Unbound x)
    (t : Ty) : (s.know x t).resolve (.unknown x) = .ok t.spread := by
  have hlast := (h.know hx t).bindingsOf_eq_singleton (b := ⟨x, t.spread⟩) (by simp [Store.know])
  rw [resolve, OpenTy.bindM, resolveUnknown, resolveName, hlast]
  have hvalue : ∀ f : String → Except CheckError OpenTy, t.spread.bindM f = .ok t.spread := fun f => by
    have hnone : ∀ y ∈ t.spread.unknowns, f y = .ok (.unknown y) := by simp
    rw [OpenTy.bindM_of_ok hnone, OpenTy.bind_unknown]
  exact hvalue _

end Store

namespace CheckM

variable {t s t' s' : Ty} {c : Context} {n : Nat} {x : String} {a : OpenTy}

/-- Calls within the depth `n` on a known type of less than that size tell whether it is the other one. -/
def ComparesWithin (n : Nat) : Prop :=
  ∀ {t s : Ty} {c : Context}, t.FirstOrder → s.FirstOrder → t.size < n →
    Ends (unifyWithin n t.spread s.spread c) (fun _ d => t = s ∧ ∃ tr, d = { c with trace := tr })
      fun e _ => t ≠ s ∧ ∃ a b, e = .mismatch a b

theorem ComparesWithin.parts (hn : ComparesWithin n) (ht : t.FirstOrder ∧ t'.FirstOrder)
    (hs : s.FirstOrder ∧ s'.FirstOrder) (hsize : t.size + t'.size < n) :
    Ends ((do unifyWithin n t.spread s.spread; unifyWithin n t'.spread s'.spread : CheckM Unit) c)
      (fun _ _ => t = s ∧ t' = s') fun e _ => ∃ a b, e = .mismatch a b := by
  refine ends_bind.mpr ((hn ht.1 hs.1 (by omega)).mono ?_ fun e d he => he.2)
  rintro - - ⟨heq, tr, rfl⟩
  exact (hn ht.2 hs.2 (by omega)).mono (fun _ d hd => ⟨heq, hd.1⟩) fun e d he => he.2

theorem comparesWithin (n : Nat) : ComparesWithin n := by
  induction n with
  | zero =>
    intro t s c _ _ hsize
    exact absurd hsize (Nat.not_lt_zero _)
  | succ n ih =>
    intro t s c ht hs hsize
    refine ends_unifyWithin (Q := fun d => t = s ∧ ∃ tr, d = { c with trace := tr }) (c.store.resolve_spread t)
      (c.store.resolve_spread s) (fun h => ?_) fun h tr => ?_
    · exact ⟨Ty.spread_inj ht hs ((same_iff (Ty.atomic_spread.mpr ht).firstOrder).mp h), c.trace, rfl⟩
    have hne : t ≠ s := fun heq => h (heq ▸ same_refl _ _)
    refine Ends.mono (Q := fun _ _ => t = s) (E := fun e _ => ∃ a b, e = .mismatch a b) ?_
      (fun _ _ heq => absurd heq hne) fun _ _ he => ⟨hne, he⟩
    -- a composite type changes sides with one that is not, and only then do they clash
    have hswap : s.size < n → Ends (unifyWithin n s.spread t.spread { c with trace := tr }) (fun _ _ => t = s)
        fun e _ => ∃ a b, e = .mismatch a b :=
      fun hsize => (ih hs ht hsize).mono (fun _ _ heq => heq.1.symm) fun _ _ he => he.2
    cases t with
    | fn t t' =>
      have := t.size_pos
      rw [Ty.size] at hsize
      cases s with
      | fn s s' => exact (ih.parts ht hs (by omega)).mono (fun _ _ heq => by rw [heq.1, heq.2]) fun _ _ he => he
      | app => exact ⟨_, _, rfl⟩
      | name | prim => exact hswap (by rw [Ty.size]; omega)
      | all | indexed => exact hs.elim
    | app t t' =>
      have := t.size_pos
      rw [Ty.size] at hsize
      cases s with
      | fn => exact ⟨_, _, rfl⟩
      | app s s' => exact (ih.parts ht hs (by omega)).mono (fun _ _ heq => by rw [heq.1, heq.2]) fun _ _ he => he
      | name | prim => exact hswap (by rw [Ty.size]; omega)
      | all | indexed => exact hs.elim
    | name | prim =>
      cases s with
      | all | indexed => exact hs.elim
      | _ => exact ⟨_, _, rfl⟩
    | all | indexed => exact ht.elim

theorem bindUnknown_spread (hx : c.store.Unbound x) (t : Ty) :
    ∃ tr, bindUnknown x t.spread c = .ok () { c with store := c.store.know x t, trace := tr } := by
  have hbinding : c.store.binding x t.spread = .ok ⟨x, t.spread⟩ := by
    rw [Store.binding, Store.resolve_unknown hx, Store.resolve_spread]
    rfl
  have hinsert : c.store.insert c.options.strictOccurs ⟨x, t.spread⟩ = .ok (c.store.know x t) := by
    rw [Store.insert, if_neg (by simp [Store.refuses])]
    rfl
  rw [bindUnknown_run, hbinding]
  simp only [hinsert]
  exact ⟨_, rfl⟩

theorem ends_unify_unknown (hx : c.store.Unbound x) (ha : c.store.resolve a = .ok t.spread) (n : Nat) :
    Ends (unifyWithin (n + 1) (.unknown x) a c)
      (fun _ d => ∃ tr, d = { c with store := c.store.know x t, trace := tr }) fun _ _ => False := by
  refine ends_unifyWithin (Q := fun d => ∃ tr, d = { c with store := c.store.know x t, trace := tr })
    (Store.resolve_unknown hx) ha (fun h => ?_) fun _ tr => ?_
  · exact absurd ((same_iff (a := .unknown x) trivial).mp h).symm (Ty.spread_ne List.mem_cons_self)
  · rw [plan_unknown]
    obtain ⟨tr', hrun⟩ := bindUnknown_spread (c := { c with trace := tr }) hx t
    rw [carryOut, hrun]
    exact fun tr'' => ⟨tr'', rfl⟩

theorem ends_unify_spread_unknown (ht : t.FirstOrder) (hx : c.store.Unbound x) (n : Nat) :
    Ends (unifyWithin (n + 2) t.spread (.unknown x) c)
      (fun _ d => ∃ tr, d = { c with store := c.store.know x t, trace := tr }) fun _ _ => False := by
  refine ends_unifyWithin (Q := fun d => ∃ tr, d = { c with store := c.store.know x t, trace := tr })
    (c.store.resolve_spread t) (Store.resolve_unknown hx) (fun h => ?_) fun _ tr => ?_
  · exact absurd ((same_iff (Ty.atomic_spread.mpr ht).firstOrder).mp h) (Ty.spread_ne List.mem_cons_self)
  have hbind : Ends (bindUnknown x t.spread { c with trace := tr })
      (fun _ d => ∀ tr', ∃ tr'', ({ d with trace := tr' } : Context) =
        { c with store := c.store.know x t, trace := tr'' }) fun _ _ => False := by
    obtain ⟨tr', hrun⟩ := bindUnknown_spread (c := { c with trace := tr }) hx t
    rw [hrun]
    exact fun tr'' => ⟨tr'', rfl⟩
  have hswap := ends_unify_unknown (c := { c with trace := tr }) hx (c.store.resolve_spread t) n
  cases t with
  | name | prim => exact hbind
  | fn | app =>
    refine hswap.mono ?_ fun _ _ he => he
    rintro - - ⟨tr', rfl⟩ tr''
    exact ⟨tr'', rfl⟩
  | all | indexed => exact ht.elim

theorem ends_unify_arrow (ht : t.FirstOrder) (hs : s.FirstOrder) (hx : c.store.Unbound x) (hn : t.size + 2 ≤ n) :
    Ends (unifyWithin n t.spread (.fn s.spread (.unknown x)) c)
      (fun _ d => ∃ r tr, t = .fn s r ∧ d = { c with store := c.store.know x r, trace := tr })
      fun e _ => (∀ r, t ≠ .fn s r) ∧ ∃ a b, e = .mismatch a b := by
  obtain ⟨n, rfl⟩ : ∃ m, n = m + 3 := ⟨n - 3, by have := t.size_pos; omega⟩
  have hres : c.store.resolve (.fn s.spread (.unknown x)) = .ok (.fn s.spread (.unknown x)) :=
    Store.resolve_eq_self fun y hy => by
      simp only [unknowns, Ty.unknowns_spread, List.nil_append, List.mem_singleton] at hy
      rwa [hy]
  refine ends_unifyWithin
    (Q := fun d => ∃ r tr, t = .fn s r ∧ d = { c with store := c.store.know x r, trace := tr })
    (c.store.resolve_spread t) hres (fun h => ?_) fun _ tr => ?_
  · exact absurd ((same_iff (Ty.atomic_spread.mpr ht).firstOrder).mp h) (Ty.spread_ne (x := x) (by simp [unknowns]))
  cases t with
  | fn t r =>
    rw [Ty.size] at hn
    refine ends_bind.mpr ((comparesWithin (n + 2) ht.1 hs (by omega)).mono ?_ ?_)
    · rintro - - ⟨rfl, tr', rfl⟩
      refine (ends_unify_spread_unknown (c := { c with trace := tr' }) ht.2 hx n).mono ?_ fun _ _ he => he.elim
      rintro - - ⟨tr'', rfl⟩ tr'''
      exact ⟨r, tr''', rfl, rfl⟩
    · rintro e - ⟨hne, he⟩
      exact ⟨fun r' heq => hne (Ty.fn.inj heq).1, he⟩
  | app | name | prim => exact ⟨fun _ => Ty.noConfusion, _, _, rfl⟩
  | all | indexed => exact ht.elim

end CheckM

end IndexedTyping
