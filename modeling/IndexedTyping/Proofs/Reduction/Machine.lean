import IndexedTyping.Proofs.Reduction.Leftmost

namespace IndexedTyping

namespace Term

theorem applyAll_spine (e : Term) (args : List Term) :
    (e.spine args).1.applyAll (e.spine args).2 = e.applyAll args := by
  induction e generalizing args with
  | app f a ihf _ => exact ihf (a :: args)
  | _ => rfl

theorem HeadNormal.applyAll {e : Term} (h : e.HeadNormal) (ha : ¬e.IsAbstraction) (args : List Term) :
    (e.applyAll args).HeadNormal := by
  induction args generalizing e with
  | nil => exact h
  | cons a args ih => exact ih ⟨ha, h⟩ id

theorem toTerm_applyAll_of_headRedex? {e : Term} {args rest : List Term} {r : Redex}
    (h : e.headRedex? args = some (r, rest)) : e.applyAll args = r.toTerm.applyAll rest := by
  induction e generalizing args with
  | app f a ihf _ => exact ihf h
  | lam x b _ =>
    cases args with
    | nil => cases h
    | cons a args => cases h; rfl
  | recur f x b _ =>
    cases args with
    | nil => cases h
    | cons a args => cases h; rfl
  | _ => cases h

theorem headNormal_of_headRedex? {e : Term} {args : List Term} (h : e.headRedex? args = none) :
    (e.applyAll args).HeadNormal := by
  induction e generalizing args with
  | app f a ihf _ => exact ihf h
  | var x l => exact HeadNormal.applyAll (e := var x l) trivial id args
  | lit v => exact HeadNormal.applyAll (e := lit v) trivial id args
  | lam x b _ =>
    cases args with
    | nil => trivial
    | cons a args => cases h
  | recur f x b _ =>
    cases args with
    | nil => trivial
    | cons a args => cases h

end Term

theorem HeadStep.applyAll {e f : Term} (h : HeadStep e f) (args : List Term) :
    HeadStep (e.applyAll args) (f.applyAll args) := by
  induction args generalizing e f with
  | nil => exact h
  | cons a args ih => exact ih h.app

theorem reducesWithin_whnfWith (n : Nat) (e : Term) (args : List Term) :
    ReducesWithin HeadStep Term.HeadNormal n (e.applyAll args) (e.whnfWith n args) := by
  induction n generalizing e args with
  | zero => exact .refl fun h => absurd rfl h
  | succ n ih =>
    rw [Term.whnfWith]
    split
    · next r rest hr =>
      rw [Term.toTerm_applyAll_of_headRedex? hr]
      exact (ih r.contract rest).step (HeadStep.contract r.contracts |>.applyAll rest)
    · next hr => exact .refl fun _ => Term.headNormal_of_headRedex? hr

theorem reducesWithin_whnf (n : Nat) (e : Term) : ReducesWithin HeadStep Term.HeadNormal n e (e.whnf n) :=
  reducesWithin_whnfWith n e []

theorem Leftmost.applyAll {e f : Term} (h : Leftmost e f) (he : ¬e.IsAbstraction) (args : List Term) :
    Leftmost (e.applyAll args) (f.applyAll args) := by
  induction args generalizing e f with
  | nil => exact h
  | cons a args ih => exact ih (.fn he h) id

theorem ReducesWithin.eq_of_done {n : Nat} {e : Term} {r : Reduct} (h : ReducesWithin Leftmost Term.Normal n e r)
    (he : n ≠ 0 → e.Normal) : r = ⟨e, n⟩ :=
  h.unique @Leftmost.unique @Leftmost.not_normal (.refl he)

namespace Term

/-- The task to reduce `e` within `n` steps comes down to putting its reduct on the results. -/
def Reducible (n : Nat) (e : Term) : Prop :=
  ∀ work results, ∃ r, ReducesWithin Leftmost Normal n e r ∧
    run (.reduce e :: work) results n = run work (r.term :: results) r.left

theorem run_map_reduce {args : List Term} {n : Nat} (ih : ∀ a ∈ args, ∀ m ≤ n, Reducible m a) {g : Term}
    (hg : n ≠ 0 → ¬g.IsAbstraction ∧ g.Normal) (work : List Task) (results : List Term) :
    ∃ args' m, args'.length = args.length ∧
      ReducesWithin Leftmost Normal n (g.applyAll args) ⟨g.applyAll args', m⟩ ∧
      run (args.map .reduce ++ work) results n = run work (args'.reverse ++ results) m := by
  induction args generalizing n g results with
  | nil => exact ⟨[], n, rfl, .refl fun hn => (hg hn).2, rfl⟩
  | cons a args iha =>
    obtain ⟨r, hr, hrun⟩ := ih a List.mem_cons_self n (Nat.le_refl n) (args.map .reduce ++ work) results
    have hle := hr.left_le
    -- with the argument done, `g a` is a head for the arguments after it
    have hg' : r.left ≠ 0 → ¬(app g r.term).IsAbstraction ∧ (app g r.term).Normal := by
      intro hl
      obtain ⟨hga, hgn⟩ := hg (by omega)
      exact ⟨id, hga, hgn, hr.done_of_left hl⟩
    obtain ⟨args', m, hlen, hargs, hrest⟩ :=
      iha (fun b hb k hk => ih b (List.mem_cons_of_mem a hb) k (Nat.le_trans hk hle)) hg' (r.term :: results)
    refine ⟨r.term :: args', m, by simp [hlen], ?_, ?_⟩
    · refine .trans hle ?_ hargs
      -- without a budget nothing is known of `g`, but then no step is taken
      cases n with
      | zero =>
        rw [hr.eq_of_done fun h => absurd rfl h]
        exact .zero
      | succ n =>
        obtain ⟨hga, hgn⟩ := hg (Nat.succ_ne_zero n)
        exact hr.steps.congr fun h => Leftmost.applyAll (.arg hga hgn h) id args
    · rw [List.map_cons, List.cons_append, hrun, hrest]
      simp

theorem HeadNormal.of_applyAll {e : Term} {args : List Term} (h : (e.applyAll args).HeadNormal) : e.HeadNormal := by
  induction args generalizing e with
  | nil => exact h
  | cons a args ih => exact (ih h).2

theorem not_app_spine (e : Term) (args : List Term) (f a : Term) : (e.spine args).1 ≠ app f a := by
  induction e generalizing args with
  | app g b ihg _ => exact ihg (b :: args)
  | _ => exact Term.noConfusion

theorem normal_spine_of_headNormal {f a : Term} (h : (app f a).HeadNormal) :
    ¬(f.spine [a]).1.IsAbstraction ∧ (f.spine [a]).1.Normal := by
  have hspine : ((f.spine [a]).1.applyAll (f.spine [a]).2).HeadNormal := by rwa [applyAll_spine]
  have hlen := length_le_length_spine f [a]
  have happ := not_app_spine f [a]
  generalize f.spine [a] = s at *
  obtain ⟨head, _ | ⟨b, args⟩⟩ := s
  · cases hlen
  · have hhead : ¬head.IsAbstraction := (HeadNormal.of_applyAll (e := app head b) hspine).1
    cases head with
    | var x l => exact ⟨id, trivial⟩
    | lit v => exact ⟨id, trivial⟩
    | app g c => exact absurd rfl (happ g c)
    | lam x c => exact absurd trivial hhead
    | recur g x c => exact absurd trivial hhead

theorem size_head_spine_le (e : Term) (args : List Term) : (e.spine args).1.size ≤ e.size := by
  induction e generalizing args with
  | app f a ihf _ =>
    have := ihf (a :: args)
    simp only [spine, size]
    omega
  | _ => exact Nat.le_refl _

theorem size_of_mem_spine {e b : Term} {args : List Term} (h : b ∈ (e.spine args).2) : b ∈ args ∨ b.size < e.size := by
  induction e generalizing args with
  | app f a ihf _ =>
    simp only [size]
    rcases ihf h with hb | hb
    · rcases List.mem_cons.mp hb with rfl | hb
      · exact .inr (by omega)
      · exact .inl hb
    · exact .inr (by omega)
  | _ => exact .inl h

theorem size_spine_lt (f a : Term) :
    (f.spine [a]).1.size < (app f a).size ∧ ∀ b ∈ (f.spine [a]).2, b.size < (app f a).size := by
  simp only [size]
  refine ⟨by have := size_head_spine_le f [a]; omega, fun b hb => ?_⟩
  rcases size_of_mem_spine hb with h | h
  · cases List.mem_singleton.mp h
    omega
  · omega

theorem run_tasks {t : Term} {n : Nat} (ht : n ≠ 0 → t.HeadNormal)
    (ih : ∀ a m, a.size < t.size → m ≤ n → Reducible m a) (work : List Task) (results : List Term) :
    ∃ r, ReducesWithin Leftmost Normal n t r ∧
      (match t.tasks with
        | [] => run work (t :: results) n
        | x :: xs => run (x :: xs ++ work) results n) = run work (r.term :: results) r.left := by
  cases t with
  | var x l => exact ⟨⟨var x l, n⟩, .refl fun _ => trivial, rfl⟩
  | lit v => exact ⟨⟨lit v, n⟩, .refl fun _ => trivial, rfl⟩
  | lam x b =>
    obtain ⟨r, hr, hrun⟩ := ih b n (Nat.lt_succ_self _) (Nat.le_refl n) (.close (.lam x) :: work) results
    refine ⟨⟨lam x r.term, r.left⟩, ⟨hr.left_le, hr.steps.congr .lam, hr.done⟩, hrun.trans ?_⟩
    rw [run]
    rfl
  | recur f x b =>
    obtain ⟨r, hr, hrun⟩ := ih b n (Nat.lt_succ_self _) (Nat.le_refl n) (.close (.recur f x) :: work) results
    refine ⟨⟨recur f x r.term, r.left⟩, ⟨hr.left_le, hr.steps.congr .recur, hr.done⟩, hrun.trans ?_⟩
    rw [run]
    rfl
  | app f a =>
    obtain ⟨hhead, hargs⟩ := size_spine_lt f a
    have happ : (f.spine [a]).1.applyAll (f.spine [a]).2 = app f a := applyAll_spine f [a]
    have hnormal : n ≠ 0 → ¬(f.spine [a]).1.IsAbstraction ∧ (f.spine [a]).1.Normal :=
      fun hn => normal_spine_of_headNormal (ht hn)
    simp only [tasks, List.cons_append, List.append_assoc, List.nil_append]
    generalize f.spine [a] = s at *
    obtain ⟨head, args⟩ := s
    obtain ⟨r, hr, hrun⟩ := ih head n hhead (Nat.le_refl n) (args.map .reduce ++ .apply args.length :: work) results
    -- the task for the head only moves it over to the results
    cases hr.eq_of_done fun hn => (hnormal hn).2
    obtain ⟨args', m, hlen, hred, hrest⟩ := run_map_reduce (fun b hb k hk => ih b k (hargs b hb) hk) hnormal
      (.apply args.length :: work) (head :: results)
    refine ⟨⟨head.applyAll args', m⟩, happ ▸ hred, ?_⟩
    rw [hrun, hrest, run]
    simp [← hlen]

theorem reducible_of_smaller {n : Nat} {e : Term} (ih : ∀ m a, m < n ∨ m = n ∧ a.size < e.size → Reducible m a) :
    Reducible n e := by
  intro work results
  have hw := (reducesWithin_whnf n e).mono HeadStep.leftmost
  have hsmall : ∀ a m, a.size < (e.whnf n).term.size → m ≤ (e.whnf n).left → Reducible m a := by
    intro a m ha hm
    -- a step at the head may make the term larger, but then there is less budget
    apply ih
    rcases Nat.lt_or_eq_of_le (left_whnf_le n e) with h | h
    · exact .inl (Nat.lt_of_le_of_lt hm h)
    · rw [term_whnf_of_left_eq h] at ha
      omega
  obtain ⟨r, hr, hrun⟩ := run_tasks hw.done_of_left hsmall work results
  refine ⟨r, .trans hw.left_le hw.steps hr, ?_⟩
  rw [← hrun, run]
  split <;> rename_i h <;> simp only [h]

theorem reducible (n : Nat) (e : Term) : Reducible n e :=
  reducible_of_smaller fun m a _ => reducible m a
termination_by (n, e.size)
decreasing_by simpa [Prod.lex_def]

theorem run_eq_normalize (n : Nat) (e : Term) : run [.reduce e] [] n = some (e.normalize n) :=
  (Option.some_get _).symm

theorem reducesWithin_normalize (n : Nat) (e : Term) : ReducesWithin Leftmost Normal n e (e.normalize n) := by
  obtain ⟨r, hr, hrun⟩ := reducible n e [] []
  rw [run_eq_normalize, run] at hrun
  exact Option.some.inj hrun ▸ hr

theorem term_normalize_of_normal {e : Term} (h : e.Normal) (n : Nat) : (e.normalize n).term = e := by
  have stuck : ∀ {k f}, Steps Leftmost k e f → f = e := by
    intro k f hs
    cases hs with
    | zero => rfl
    | succ hstep _ => exact absurd h hstep.not_normal
  exact stuck (reducesWithin_normalize n e).steps

/-- Reduction never lacks a result it is to take, and gives the term that leftmost-outermost steps lead to, up to a
normal form or to the end of the budget; so a budget that is not spent leaves no redex. Reduction at the head does
the same with steps at the head. -/
theorem normalize_leftmost (fuel : Int) (e : Term) :
    run [.reduce e] [] (budgetOf fuel) = some (e.normalize (budgetOf fuel)) ∧
    (∀ r, ReducesWithin Leftmost Normal (budgetOf fuel) e r ↔ r = e.normalize (budgetOf fuel)) ∧
    ((e.normalize (budgetOf fuel)).steps (budgetOf fuel) < fuel → (e.normalize (budgetOf fuel)).term.Normal) ∧
    (∀ r, ReducesWithin HeadStep HeadNormal (budgetOf fuel) e r ↔ r = e.whnf (budgetOf fuel)) ∧
    ((e.whnf (budgetOf fuel)).steps (budgetOf fuel) < fuel → (e.whnf (budgetOf fuel)).term.HeadNormal) := by
  have hn := reducesWithin_normalize (budgetOf fuel) e
  have hw := reducesWithin_whnf (budgetOf fuel) e
  refine ⟨run_eq_normalize _ e, fun r => ⟨fun h => ?_, fun h => h ▸ hn⟩, fun h => hn.done ?_,
    fun r => ⟨fun h => ?_, fun h => h ▸ hw⟩, fun h => hw.done ?_⟩
  · exact h.unique @Leftmost.unique @Leftmost.not_normal hn
  · exact Int.lt_toNat.mpr h
  · exact h.unique @HeadStep.unique @HeadStep.not_headNormal hw
  · exact Int.lt_toNat.mpr h

end Term

end IndexedTyping
