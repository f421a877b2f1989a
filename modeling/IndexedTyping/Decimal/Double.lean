namespace IndexedTyping.Decimal

/-- `finite neg m q` is `m * 2^q` with its sign, where `m < 2^53` and `q ≥ -1074`; unless `q = -1074`, also
`2^52 ≤ m`. -/
inductive Double
  | nan
  | infinity (neg : Bool)
  | finite (neg : Bool) (m : Nat) (q : Int)
  deriving DecidableEq, Repr

def roundQuotient (num den : Nat) : Nat :=
  let d := num / den
  let r := num % den
  -- a half goes to the even one
  if den < 2 * r || (2 * r == den && d % 2 == 1) then d + 1 else d

def inUnits (num den : Nat) (q : Int) : Nat × Nat := (num * Nat.pow 2 (-q).toNat, den * Nat.pow 2 q.toNat)

def Double.ofRatio (neg : Bool) (num den : Nat) : Double :=
  let low : Int := (num.log2 : Int) - den.log2 - 53
  let (a, b) := inUnits num den low
  let q := max (if a / b < Nat.pow 2 53 then low else low + 1) (-1074)
  let (a, b) := inUnits num den q
  let m := roundQuotient a b
  let (m, q) := if m = Nat.pow 2 53 then (Nat.pow 2 52, q + 1) else (m, q)
  if 971 < q then .infinity neg else .finite neg m q

/-- The nearest double to `digits * 10^e`. Where the size alone decides, the powers are not computed. -/
def Double.ofDecimal (neg : Bool) (digits : Nat) (e : Int) : Double :=
  let size : Int := (Nat.toDigits 10 digits).length + e
  if digits = 0 || size < -326 then .finite neg 0 (-1074)
  else if 310 < size then .infinity neg
  else .ofRatio neg (digits * Nat.pow 10 e.toNat) (Nat.pow 10 (-e).toNat)

end IndexedTyping.Decimal
