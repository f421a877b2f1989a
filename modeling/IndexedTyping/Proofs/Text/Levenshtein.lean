import IndexedTyping.Text.Distance
import Mathlib.Order.Bounds.Defs
import Mathlib.Order.MinMax

/-!
The edit distance of two texts is the least number of edits that lead from one to the other.

Between the table of distances and sequences of edits stands the distance by recursion on both texts from the left,
which is a metric. Turned around, a sequence of edits leads between the texts turned around, so that recursion from the
right, which is how the table is filled, gives the same distance.
-/

namespace IndexedTyping.Text

inductive Edit : List Char → List Char → Prop
  | insert : Edit (p ++ q) (p ++ c :: q)
  | remove : Edit (p ++ c :: q) (p ++ q)
  | replace : Edit (p ++ c :: q) (p ++ d :: q)

inductive Edits : Nat → List Char → List Char → Prop
  | zero : Edits 0 s s
  | succ : Edit s t → Edits n t u → Edits (n + 1) s u

def levenshtein : List Char → List Char → Nat
  | [], t => t.length
  | s, [] => s.length
  | c :: s, d :: t =>
    min (min (levenshtein s (d :: t) + 1) (levenshtein (c :: s) t + 1)) (levenshtein s t + if c = d then 0 else 1)
termination_by s t => s.length + t.length

section

variable {s t : List Char} {n : Nat}

theorem Edit.cons (h : Edit s t) (c : Char) : Edit (c :: s) (c :: t) := by
  cases h with
  | @insert p q a => exact .insert (p := c :: p)
  | @remove p a q => exact .remove (p := c :: p)
  | @replace p a q b => exact .replace (p := c :: p)

theorem Edit.reverse (h : Edit s t) : Edit s.reverse t.reverse := by
  cases h with
  | insert => simpa using Edit.insert
  | remove => simpa using Edit.remove
  | replace => simpa using Edit.replace

namespace Edits

theorem cons (h : Edits n s t) (c : Char) : Edits n (c :: s) (c :: t) := by
  induction h with
  | zero => exact .zero
  | succ h _ ih => exact .succ (h.cons c) ih

theorem reverse (h : Edits n s t) : Edits n s.reverse t.reverse := by
  induction h with
  | zero => exact .zero
  | succ h _ ih => exact .succ h.reverse ih

theorem eq_of_zero (h : Edits 0 s t) : s = t := by
  cases h
  rfl

theorem removeAll (s : List Char) : Edits s.length s [] := by
  induction s with
  | nil => exact .zero
  | cons c s ih => exact .succ (.remove (p := [])) ih

theorem insertAll (t : List Char) : Edits t.length [] t := by
  induction t with
  | nil => exact .zero
  | cons c t ih => exact .succ (.insert (p := [])) (ih.cons c)

end Edits

@[simp] theorem levenshtein_nil_left (t : List Char) : levenshtein [] t = t.length := by
  rw [levenshtein]

@[simp] theorem levenshtein_nil_right (s : List Char) : levenshtein s [] = s.length := by
  cases s <;> simp [levenshtein]

theorem levenshtein_cons (c d : Char) (s t : List Char) :
    levenshtein (c :: s) (d :: t) =
      min (min (levenshtein s (d :: t) + 1) (levenshtein (c :: s) t + 1))
        (levenshtein s t + if c = d then 0 else 1) := by
  rw [levenshtein]

theorem levenshtein_cons_eq (c d : Char) (s t : List Char) :
    levenshtein (c :: s) (d :: t) = levenshtein s (d :: t) + 1 ∨
    levenshtein (c :: s) (d :: t) = levenshtein (c :: s) t + 1 ∨
    levenshtein (c :: s) (d :: t) = levenshtein s t + if c = d then 0 else 1 := by
  rw [levenshtein_cons]
  rcases min_choice (min (levenshtein s (d :: t) + 1) (levenshtein (c :: s) t + 1))
    (levenshtein s t + if c = d then 0 else 1) with h | h
  · rw [h, ← or_assoc]
    exact .inl (min_choice _ _)
  · exact .inr (.inr h)

theorem levenshtein_cons_le (c d : Char) (s t : List Char) :
    levenshtein (c :: s) (d :: t) ≤ levenshtein s (d :: t) + 1 ∧
    levenshtein (c :: s) (d :: t) ≤ levenshtein (c :: s) t + 1 ∧
    levenshtein (c :: s) (d :: t) ≤ levenshtein s t + if c = d then 0 else 1 := by
  rw [levenshtein_cons, ← and_assoc, ← le_min_iff, ← le_min_iff]

theorem edits_levenshtein (s t : List Char) : Edits (levenshtein s t) s t := by
  fun_induction levenshtein s t with
  | case1 t => exact .insertAll t
  | case2 s => exact .removeAll s
  | case3 c s d t ihremove ihinsert ihreplace =>
    rw [← levenshtein_cons]
    rcases levenshtein_cons_eq c d s t with h | h | h
    · exact h ▸ .succ (.remove (p := [])) ihremove
    · exact h ▸ .succ (.insert (p := [])) (ihinsert.cons d)
    · rw [h]
      split
      · next hcd => exact hcd ▸ ihreplace.cons c
      · exact .succ (.replace (p := [])) (ihreplace.cons d)

@[simp] theorem levenshtein_self (s : List Char) : levenshtein s s = 0 := by
  induction s with
  | nil => simp
  | cons c s ih => simp [levenshtein_cons, ih]

theorem levenshtein_comm (s t : List Char) : levenshtein s t = levenshtein t s := by
  fun_induction levenshtein s t with
  | case1 t => simp
  | case2 s => simp
  | case3 c s d t ihremove ihinsert ihreplace =>
    rw [levenshtein_cons, ihremove, ihinsert, ihreplace, min_comm (levenshtein (d :: t) s + 1)]
    simp only [eq_comm]

theorem length_le_add_levenshtein (s t : List Char) : t.length ≤ s.length + levenshtein s t := by
  fun_induction levenshtein s t with
  | case1 t => simp
  | case2 s => simp
  | case3 c s d t ihremove ihinsert ihreplace =>
    simp only [List.length_cons] at *
    omega

theorem levenshtein_le_length_add (s t : List Char) : levenshtein s t ≤ s.length + t.length := by
  fun_induction levenshtein s t with
  | case1 t => simp
  | case2 s => simp
  | case3 c s d t ihremove ihinsert ihreplace =>
    simp only [List.length_cons] at *
    omega

theorem levenshtein_triangle : ∀ s t u : List Char, levenshtein s u ≤ levenshtein s t + levenshtein t u
  | [], t, u => by simpa using length_le_add_levenshtein t u
  | s, t, [] => by
    have := length_le_add_levenshtein t s
    rw [levenshtein_nil_right, levenshtein_nil_right, levenshtein_comm s t]
    omega
  | s, [], u => by simpa using levenshtein_le_length_add s u
  | c :: s, d :: t, e :: u => by
    obtain ⟨hremove, hinsert, hreplace⟩ := levenshtein_cons_le c e s u
    have hcost : (if c = e then 0 else 1) ≤ (if c = d then 0 else 1) + if d = e then 0 else 1 := by grind
    -- the two distances begin in three ways each, and any two of these make a way to begin the third
    rcases levenshtein_cons_eq c d s t with h | h | h
    · have := levenshtein_triangle s (d :: t) (e :: u)
      omega
    · rcases levenshtein_cons_eq d e t u with h' | h' | h'
      · have := levenshtein_triangle (c :: s) t (e :: u)
        omega
      · have := levenshtein_triangle (c :: s) (d :: t) u
        omega
      · have := levenshtein_triangle (c :: s) t u
        omega
    · rcases levenshtein_cons_eq d e t u with h' | h' | h'
      · have := levenshtein_triangle s t (e :: u)
        omega
      · have := levenshtein_triangle (c :: s) (d :: t) u
        omega
      · have := levenshtein_triangle s t u
        omega
termination_by s t u => s.length + t.length + u.length

theorem levenshtein_append_left_le (p s t : List Char) : levenshtein (p ++ s) (p ++ t) ≤ levenshtein s t := by
  induction p with
  | nil => exact Nat.le_refl _
  | cons a p ih =>
    have h := (levenshtein_cons_le a a (p ++ s) (p ++ t)).2.2
    rw [if_pos rfl] at h
    exact Nat.le_trans h ih

theorem levenshtein_cons_right_le (s : List Char) (c : Char) : levenshtein s (c :: s) ≤ 1 := by
  cases s with
  | nil => simp
  | cons d s => simpa using (levenshtein_cons_le d c s (d :: s)).2.1

theorem Edit.levenshtein_le (h : Edit s t) : levenshtein s t ≤ 1 := by
  cases h with
  | @insert p q c => exact Nat.le_trans (levenshtein_append_left_le p _ _) (levenshtein_cons_right_le q c)
  | @remove p c q =>
    rw [levenshtein_comm]
    exact Nat.le_trans (levenshtein_append_left_le p _ _) (levenshtein_cons_right_le q c)
  | @replace p c q d =>
    have h := (levenshtein_cons_le c d q q).2.2
    rw [levenshtein_self] at h
    refine Nat.le_trans (levenshtein_append_left_le p _ _) (Nat.le_trans h ?_)
    split <;> simp

theorem Edits.levenshtein_le (h : Edits n s t) : levenshtein s t ≤ n := by
  induction h with
  | zero => simp
  | @succ s t n u h _ ih =>
    calc levenshtein s u
        ≤ levenshtein s t + levenshtein t u := levenshtein_triangle s t u
      _ ≤ 1 + n := Nat.add_le_add h.levenshtein_le ih
      _ = n + 1 := Nat.add_comm 1 n

theorem levenshtein_reverse (s t : List Char) : levenshtein s.reverse t.reverse = levenshtein s t := by
  have hle : ∀ s t : List Char, levenshtein s.reverse t.reverse ≤ levenshtein s t := fun s t =>
    (edits_levenshtein s t).reverse.levenshtein_le
  refine Nat.le_antisymm (hle s t) ?_
  simpa using hle s.reverse t.reverse

theorem levenshtein_concat (c d : Char) (s t : List Char) :
    levenshtein (s ++ [c]) (t ++ [d]) =
      min (min (levenshtein s (t ++ [d]) + 1) (levenshtein (s ++ [c]) t + 1))
        (levenshtein s t + if c = d then 0 else 1) := by
  have h := levenshtein_cons c d s.reverse t.reverse
  have hs : c :: s.reverse = (s ++ [c]).reverse := by simp
  have ht : d :: t.reverse = (t ++ [d]).reverse := by simp
  simpa only [hs, ht, levenshtein_reverse] using h

end

def distances (s q : List Char) : List Char → List Nat
  | [] => []
  | d :: t => levenshtein s (q ++ [d]) :: distances s (q ++ [d]) t

theorem nextRow_distances (c : Char) (s q t : List Char) :
    nextRow c t (levenshtein (s ++ [c]) q) (levenshtein s q) (distances s q t) = distances (s ++ [c]) q t := by
  induction t generalizing q with
  | nil => rfl
  | cons d t ih => rw [distances, nextRow, ← levenshtein_concat, ih, distances]

theorem rows_distances (t s p : List Char) :
    rows t s (levenshtein p [] :: distances p [] t) = levenshtein (p ++ s) [] :: distances (p ++ s) [] t := by
  induction s generalizing p with
  | nil => simp [rows]
  | cons c s ih =>
    have hfirst : levenshtein p [] + 1 = levenshtein (p ++ [c]) [] := by simp
    rw [rows, hfirst, nextRow_distances, ih, List.append_assoc, List.singleton_append]

theorem range_eq_distances (q t : List Char) :
    List.range' q.length (t.length + 1) = levenshtein [] q :: distances [] q t := by
  induction t generalizing q with
  | nil => simp [distances]
  | cons d t ih =>
    have h := ih (q ++ [d])
    rw [List.length_append, List.length_singleton] at h
    rw [List.length_cons, List.range'_succ, h, distances, levenshtein_nil_left q]

theorem getLastD_distances (s q t : List Char) :
    (levenshtein s q :: distances s q t).getLastD 0 = levenshtein s (q ++ t) := by
  induction t generalizing q with
  | nil => simp [distances]
  | cons d t ih =>
    have h := ih (q ++ [d])
    rw [List.getLastD_cons, List.append_assoc, List.singleton_append] at h
    rw [distances, List.getLastD_cons, List.getLastD_cons, h]

theorem tableDistance_eq (s t : List Char) : tableDistance s t = levenshtein s t := by
  rw [tableDistance]
  split
  · simp_all
  · have hrow : List.range (t.length + 1) = levenshtein [] [] :: distances [] [] t := by
      rw [List.range_eq_range']
      exact range_eq_distances [] t
    rw [hrow, rows_distances t s [], getLastD_distances, List.nil_append, List.nil_append]

theorem editDistance_eq_levenshtein (s t : String) : editDistance s t = levenshtein s.toList t.toList := by
  rw [editDistance, tableDistance_eq, tableDistance_eq]
  split
  · exact levenshtein_comm _ _
  · rfl

/-- The distance is the least number of edits that turn one text into the other, and the one that the recursion gives.
It is a metric. -/
theorem editDistance_least (s t : String) :
    IsLeast {n | Edits n s.toList t.toList} (editDistance s t) ∧
    editDistance s t = levenshtein s.toList t.toList ∧
    (editDistance s t = 0 ↔ s = t) ∧
    editDistance s t = editDistance t s ∧
    ∀ u, editDistance s u ≤ editDistance s t + editDistance t u := by
  rw [editDistance_eq_levenshtein s t, editDistance_eq_levenshtein t s]
  refine ⟨⟨edits_levenshtein _ _, fun n h => h.levenshtein_le⟩, rfl, ⟨fun h => ?_, fun h => ?_⟩,
    levenshtein_comm _ _, fun u => ?_⟩
  · have hedits := edits_levenshtein s.toList t.toList
    rw [h] at hedits
    exact String.toList_inj.mp hedits.eq_of_zero
  · rw [h, levenshtein_self]
  · simp only [editDistance_eq_levenshtein]
    exact levenshtein_triangle _ _ _

end IndexedTyping.Text
