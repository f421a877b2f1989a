import IndexedTyping.Decimal.Double

namespace IndexedTyping.Decimal

/-- The rational numbers that round to one double: `value`, `low` and `high` are numerators over `den`, and the
ends belong to it if `closed`. -/
structure Interval where
  value : Nat
  low : Nat
  high : Nat
  den : Nat
  closed : Bool

def Interval.ofDouble (m : Nat) (q : Int) : Interval :=
  let unit := Nat.pow 2 q.toNat
  -- below a power of two the neighbour is half as far
  let down := if m = Nat.pow 2 52 && -1074 < q then 1 else 2
  ⟨4 * m * unit, (4 * m - down) * unit, (4 * m + 2) * unit, 4 * Nat.pow 2 (-q).toNat, m % 2 = 0⟩

def Interval.holds (i : Interval) (n : Nat) (s : Int) : Bool :=
  let x := n * Nat.pow 10 s.toNat * i.den
  let unit := Nat.pow 10 (-s).toNat
  if i.closed then i.low * unit ≤ x && x ≤ i.high * unit else i.low * unit < x && x < i.high * unit

def Interval.exponent (i : Interval) : Int :=
  if i.den ≤ i.value then (Nat.toDigits 10 (i.value / i.den)).length - 1
  else -(((List.range 400).find? fun j => i.den ≤ i.value * Nat.pow 10 j).getD 0 : Nat)

def Interval.onGrid? (i : Interval) (s : Int) : Option (Nat × Int) :=
  let num := i.value * Nat.pow 10 (-s).toNat
  let den := i.den * Nat.pow 10 s.toNat
  let below := num / den
  let nearest := roundQuotient num den
  if i.holds nearest s then some (nearest, s)
  else if i.holds below s then some (below, s)
  else if i.holds (below + 1) s then some (below + 1, s)
  else none

def shortest (m : Nat) (q : Int) : Nat × Int :=
  let i := Interval.ofDouble m q
  let e := i.exponent
  -- seventeen digits always suffice
  ((List.range 17).findSome? fun (n : Nat) => i.onGrid? (e - n)).getD (0, 0)

def dropTrailingZeros (digits : List Char) : List Char :=
  (digits.reverse.dropWhile (· == '0')).reverse

def zeros (n : Nat) : List Char := List.replicate n '0'

def exponentText (e : Int) : List Char :=
  let digits := Nat.toDigits 10 e.natAbs
  'e' :: (if e < 0 then '-' else '+') :: zeros (2 - digits.length) ++ digits

/-- The text of the number whose first digit counts `10^e`. It is positional from `10^-4` up to `10^16`, and then has
at least one place after the point. -/
def layout (digits : List Char) (e : Int) : List Char :=
  if 0 ≤ e && e < 16 then
    let n := e.toNat + 1
    let whole := digits.take n ++ zeros (n - digits.length)
    let places := digits.drop n
    whole ++ '.' :: (if places.isEmpty then ['0'] else places)
  else if -4 ≤ e && e < 0 then '0' :: '.' :: zeros ((-e).toNat - 1) ++ digits
  else
    let places := digits.drop 1
    digits.take 1 ++ (if places.isEmpty then [] else '.' :: places) ++ exponentText e

def Double.render : Double → String
  | .nan => "nan"
  | .infinity neg => if neg then "-inf" else "inf"
  | .finite neg m q =>
    let body :=
      if m = 0 then ['0', '.', '0']
      else
        let (n, s) := shortest m q
        let digits := Nat.toDigits 10 n
        layout (dropTrailingZeros digits) (s + digits.length - 1)
    String.ofList (if neg then '-' :: body else body)

end IndexedTyping.Decimal
