import IndexedTyping.Proofs.Nameless.Translation
import IndexedTyping.Term.Equivalence

/-!
Terms that are found equal up to the names of binders are those with one nameless form.

The comparison counts binders from the outermost and nameless forms count them from the innermost, so the levels of the
names in scope give a naming once it is known how many binders there are. The same relation is also had by recursion on
both terms, with pairs of binders in place of levels.
-/

namespace IndexedTyping

namespace Levels

def naming (ls : Levels) (d : Nat) : Naming := fun x => ((ls.lookup x).map fun i => .bound (d - 1 - i)).getD (.free x)

def Below (ls : Levels) (d : Nat) : Prop := ∀ x i, ls.lookup x = some i → i < d

theorem below_nil (d : Nat) : Below [] d := fun _ _ h => by cases h

theorem lookup_cons (ls : Levels) (x y : String) (d : Nat) :
    List.lookup y ((x, d) :: ls) = if y = x then some d else ls.lookup y := by
  by_cases h : y = x
  · simp [h]
  · simp [List.lookup_cons, beq_eq_false_iff_ne.mpr h, h]

theorem Below.enter {ls : Levels} {d : Nat} (h : ls.Below d) (x : String) : Below ((x, d) :: ls) (d + 1) := by
  intro y i hi
  rw [lookup_cons] at hi
  split at hi
  · cases hi
    exact Nat.lt_succ_self d
  · exact Nat.lt_succ_of_lt (h y i hi)

theorem naming_enter {ls : Levels} {d : Nat} (h : ls.Below d) (x : String) :
    naming ((x, d) :: ls) (d + 1) = (ls.naming d).enter x := by
  funext y
  rw [naming, lookup_cons, Naming.enter]
  split
  · simp
  · rw [naming]
    cases hi : ls.lookup y with
    | none => rfl
    | some i =>
      -- the level stays, and there is one binder more in between
      have := h y i hi
      simp only [Option.map_some, Option.getD_some, Ref.under, Ref.bound.injEq]
      omega

theorem sameReference_iff {ls rs : Levels} {d : Nat} (hl : ls.Below d) (hr : rs.Below d) {x y : String} :
    ls.sameReference rs x y = true ↔ ls.naming d x = rs.naming d y := by
  rw [sameReference, naming, naming]
  cases hi : ls.lookup x with
  | none => cases hj : rs.lookup y <;> simp
  | some i =>
    cases hj : rs.lookup y with
    | none => simp
    | some j =>
      have := hl x i hi
      have := hr y j hj
      simp only [Option.map_some, Option.getD_some, Ref.bound.injEq, beq_iff_eq, Option.some.injEq]
      omega

end Levels

namespace Comparison

def Scoped (c : Comparison) : Prop := c.leftLevels.Below c.depth ∧ c.rightLevels.Below c.depth

def Alike (c : Comparison) : Prop :=
  c.left.namelessIn (c.leftLevels.naming c.depth) = c.right.namelessIn (c.rightLevels.naming c.depth)

/-- The loop as it goes, without a bound: after `n` passes it ends with the answer `b`. -/
inductive Runs : Nat → List Comparison → Bool → Prop
  | done : Runs 0 [] true
  | differ : c.parts = none → Runs 1 (c :: pending) false
  | next : c.parts = some ps → Runs n (ps ++ pending) b → Runs (n + 1) (c :: pending) b

variable {c : Comparison}

theorem Scoped.parts (hc : c.Scoped) {parts : List Comparison} (h : c.parts = some parts) : ∀ p ∈ parts, p.Scoped := by
  obtain ⟨e, f, ls, rs, d⟩ := c
  obtain ⟨hl, hr⟩ : ls.Below d ∧ rs.Below d := hc
  cases e with
  | var x l => cases f <;> simp_all [Comparison.parts]
  | lit v => cases f <;> simp_all [Comparison.parts]
  | lam x b =>
    cases f with
    | lam y c =>
      cases h
      exact List.forall_mem_singleton.mpr ⟨hl.enter x, hr.enter y⟩
    | _ => cases h
  | app g a =>
    cases f with
    | app g' b =>
      cases h
      exact List.forall_mem_cons.mpr ⟨⟨hl, hr⟩, List.forall_mem_singleton.mpr ⟨hl, hr⟩⟩
    | _ => cases h
  | recur g x b =>
    cases f with
    | recur g' y c =>
      cases h
      exact List.forall_mem_singleton.mpr ⟨(hl.enter g).enter x, (hr.enter g').enter y⟩
    | _ => cases h

theorem alike_iff (hc : c.Scoped) : c.Alike ↔ ∃ parts, c.parts = some parts ∧ ∀ p ∈ parts, p.Alike := by
  obtain ⟨e, f, ls, rs, d⟩ := c
  obtain ⟨hl, hr⟩ : ls.Below d ∧ rs.Below d := hc
  cases e with
  | var x l => cases f <;> simp [Alike, parts, Term.namelessIn, Levels.sameReference_iff hl hr, and_assoc]
  | lit v => cases f <;> simp [Alike, parts, Term.namelessIn, and_assoc]
  | lam x b => cases f <;> simp [Alike, parts, Term.namelessIn, Levels.naming_enter, hl, hr]
  | app g a => cases f <;> simp [Alike, parts, Term.namelessIn]
  | recur g x b => cases f <;> simp [Alike, parts, Term.namelessIn, Levels.naming_enter, Levels.Below.enter, hl, hr]

theorem agree_iff {pending : List Comparison} (h : ∀ c ∈ pending, c.Scoped) :
    agree pending = true ↔ ∀ c ∈ pending, c.Alike := by
  fun_induction agree pending with
  | case1 => simp
  | case2 c pending hnone => simp [alike_iff (h c List.mem_cons_self), hnone]
  | case3 c pending parts hsome ih =>
    -- the parts take the place of the pair on the stack
    obtain ⟨hc, hpending⟩ := List.forall_mem_cons.mp h
    rw [ih (List.forall_mem_append.mpr ⟨hc.parts hsome, hpending⟩), List.forall_mem_append, List.forall_mem_cons,
      alike_iff hc]
    simp [hsome]

theorem agree_of_none {pending : List Comparison} (h : c.parts = none) : agree (c :: pending) = false := by
  rw [agree]
  split <;> simp_all

theorem agree_of_some {pending ps : List Comparison} (h : c.parts = some ps) :
    agree (c :: pending) = agree (ps ++ pending) := by
  rw [agree]
  split <;> simp_all

theorem Runs.eq_agree {n : Nat} {pending : List Comparison} {b : Bool} (h : Runs n pending b) : b = agree pending := by
  induction h with
  | done => rw [agree]
  | differ hnone => rw [agree_of_none hnone]
  | next hsome _ ih => rw [ih, agree_of_some hsome]

theorem exists_runs (pending : List Comparison) : ∃ n ≤ total pending, Runs n pending (agree pending) := by
  fun_induction agree pending with
  | case1 => exact ⟨0, Nat.le_refl 0, .done⟩
  | case2 c pending hnone =>
    have hpos : 0 < c.left.size := by cases c.left <;> exact Nat.succ_pos _
    exact ⟨1, Nat.le_add_right_of_le hpos, .differ hnone⟩
  | case3 c pending parts hsome ih =>
    obtain ⟨n, hn, hruns⟩ := ih
    have hparts := total_parts_lt hsome
    rw [total_append] at hn
    exact ⟨n + 1, by rw [total]; omega, .next hsome hruns⟩

end Comparison

namespace Term

theorem alphaEq_iff {e f : Term} : e.alphaEq f = true ↔ e.nameless = f.nameless := by
  have hscoped : Comparison.Scoped ⟨e, f, [], [], 0⟩ := ⟨Levels.below_nil 0, Levels.below_nil 0⟩
  rw [alphaEq, Comparison.agree_iff (List.forall_mem_singleton.mpr hscoped), List.forall_mem_singleton]
  rfl

/-- Comparing two terms comes to an end, after no more passes than the first has nodes, with the one answer there is;
and the answer is whether they have the same nameless form. -/
theorem alphaEq_decides (e f : Term) :
    (∃ n ≤ e.size, Comparison.Runs n [⟨e, f, [], [], 0⟩] (e.alphaEq f)) ∧
    (∀ n b, Comparison.Runs n [⟨e, f, [], [], 0⟩] b → b = e.alphaEq f) ∧
    (e.alphaEq f = true ↔ e.nameless = f.nameless) :=
  ⟨Comparison.exists_runs [⟨e, f, [], [], 0⟩], fun _ _ h => h.eq_agree, alphaEq_iff⟩

example :
    let e := recur "f" "f" (var "f" none)
    e.alphaEq (recur "g" "x" (var "x" none)) = true ∧ e.alphaEq (recur "g" "x" (var "g" none)) = false ∧
      (lit (.bool true)).alphaEq (lit (.nat 1)) = false := by
  decide +kernel

def sameReference : List (String × String) → String → String → Bool
  | [], x, y => x == y
  | (p, q) :: env, x, y => if p == x || q == y then p == x && q == y else sameReference env x y

def alphaEqIn : List (String × String) → Term → Term → Bool
  | env, var x _, var y _ => sameReference env x y
  | _, lit v, lit w => v == w
  | env, lam x b, lam y c => alphaEqIn ((x, y) :: env) b c
  | env, app f a, app g b => alphaEqIn env f g && alphaEqIn env a b
  | env, recur f x b, recur g y c => alphaEqIn ((x, y) :: (f, g) :: env) b c
  | _, _, _ => false

def naming (names : List String) : Naming := names.foldr (fun x ρ => ρ.enter x) .free

theorem sameReference_iff {env : List (String × String)} {x y : String} :
    sameReference env x y = true ↔ naming (env.map (·.1)) x = naming (env.map (·.2)) y := by
  induction env with
  | nil => simp [sameReference, naming]
  | cons p env ih =>
    obtain ⟨p, q⟩ := p
    simp only [naming, List.map_cons, List.foldr_cons] at ih ⊢
    rw [sameReference]
    by_cases hx : x = p
    · by_cases hy : y = q
      · simp [hx, hy]
      · simp [hx, hy, Ne.symm hy, Ne.symm (Ref.under_ne_zero _)]
    · by_cases hy : y = q
      · simp [hx, hy, Ne.symm hx]
      · simp [hx, hy, Ne.symm hx, Ne.symm hy, ih]

theorem alphaEqIn_iff {env : List (String × String)} {e f : Term} :
    alphaEqIn env e f = true ↔ e.namelessIn (naming (env.map (·.1))) = f.namelessIn (naming (env.map (·.2))) := by
  induction e generalizing env f with
  | var x l => cases f <;> simp [alphaEqIn, namelessIn, sameReference_iff]
  | lit v => cases f <;> simp [alphaEqIn, namelessIn]
  | lam x b ih => cases f <;> simp [alphaEqIn, namelessIn, ih, naming]
  | app g a ihg iha => cases f <;> simp [alphaEqIn, namelessIn, ihg, iha]
  | recur g x b ih => cases f <;> simp [alphaEqIn, namelessIn, ih, naming]

theorem alphaEq_eq_alphaEqIn (e f : Term) : e.alphaEq f = alphaEqIn [] e f := by
  rw [Bool.eq_iff_iff, alphaEq_iff, alphaEqIn_iff]
  rfl

end Term

end IndexedTyping
