namespace IndexedTyping.Text

/-- The next row of distances: `above` holds those of a text `s` to every initial part of `t`, and the result
those of `s` with `c` added. `left` is the entry just computed, `diag` the one above it. -/
def nextRow (c : Char) : List Char → Nat → Nat → List Nat → List Nat
  | d :: t, left, diag, up :: above =>
    let entry := min (min (up + 1) (left + 1)) (diag + if c = d then 0 else 1)
    entry :: nextRow c t entry up above
  | _, _, _, _ => []

def rows (t : List Char) : List Char → List Nat → List Nat
  | c :: s, first :: above => rows t s ((first + 1) :: nextRow c t (first + 1) first above)
  | _, row => row

def tableDistance (s t : List Char) : Nat :=
  if t.isEmpty then s.length else (rows t s (List.range (t.length + 1))).getLastD 0

def editDistance (s t : String) : Nat :=
  -- rows are as long as the shorter of the two
  if s.length < t.length then tableDistance t.toList s.toList else tableDistance s.toList t.toList

/-- The first `n` entries; a negative `n` leaves out that many at the end. -/
def cut {α : Type} (n : Int) (xs : List α) : List α :=
  if n < 0 then xs.take (xs.length - n.natAbs) else xs.take n.toNat

def suggested : Int := 3

def similarNames (name : String) (available : List String) (count : Int) : List String :=
  let near := available.map fun other => (editDistance name other, other)
  let near := near.filter fun p => 0 < p.1 && p.1 ≤ 2
  (cut count (near.mergeSort fun p q => p.1 ≤ q.1)).map (·.2)

end IndexedTyping.Text
