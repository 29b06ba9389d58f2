/-!
# Shortest decimals

The nearest binary number of 53 significant bits to a decimal, and the shortest decimal that is
still nearest to it. Both are computed in exact natural arithmetic: a finite number is
`mantissa * 2 ^ exponent`, and the decimals that read back as it form the interval between the
midpoints to its two neighbours, the ends belonging to it when the mantissa is even.
-/

namespace BoxFlow.Decimal

/-- A positive number with a mantissa below `2 ^ 53` and an exponent of at least `-1074`. -/
structure Binary where
  mantissa : Nat
  exponent : Int
  deriving DecidableEq, Repr

/-- `num / den` to the nearest integer, a half to the even neighbour. -/
def roundDiv (num den : Nat) : Nat :=
  let q := num / den
  let r := num % den
  if 2 * r < den then q
  else if den < 2 * r then q + 1
  else q + q % 2

/-- A fraction times `b ^ e`, as a fraction. -/
def scale (num den b : Nat) (e : Int) : Nat × Nat :=
  if 0 ≤ e then (num * b.pow e.toNat, den) else (num, den * b.pow (-e).toNat)

/-- The mantissas have 53 bits, except near zero: they are below `2 * leading`. -/
def leading : Nat := 0x10000000000000

/-- The binary number nearest to `num / den`; `none` when it lies above all of them. -/
def nearest (num den : Nat) : Option Binary :=
  if num = 0 then some ⟨0, -1074⟩
  else
    let guess : Int := (num.log2 : Int) - (den.log2 : Int) - 52
    -- One of the two exponents leaves a quotient of 53 bits.
    let low := scale num den 2 (-guess)
    let tight := if low.1 / low.2 < leading then guess - 1 else guess
    let exponent := max tight (-1074)
    let (n, d) := scale num den 2 (-exponent)
    let mantissa := roundDiv n d
    let result : Binary :=
      if mantissa = 2 * leading then ⟨leading, exponent + 1⟩ else ⟨mantissa, exponent⟩
    if 971 < result.exponent then none else some result

/-- Is `n * 10 ^ k` closer to `b` than to any other binary number? -/
def Binary.owns (b : Binary) (n : Nat) (k : Int) : Bool :=
  -- In units of a quarter of the last place.
  let below := if b.mantissa = leading ∧ -1074 < b.exponent then 1 else 2
  let (x, d) := scale (4 * n) 1 10 k
  let (x, d) := scale x d 2 (-b.exponent)
  let low := (4 * b.mantissa - below) * d
  let high := (4 * b.mantissa + 2) * d
  if b.mantissa % 2 = 0 then low ≤ x && x ≤ high else low < x && x < high

/-- The neighbours of `b` on the grid of the multiples of `10 ^ k`, the nearer first. -/
def Binary.gridNeighbours (b : Binary) (k : Int) : List Nat :=
  let (x, d) := scale b.mantissa 1 2 b.exponent
  let (x, d) := scale x d 10 (-k)
  let q := x / d
  if roundDiv x d = q then [q, q + 1] else [q + 1, q]

/-- How many decimal digits stand before the point of `b`. -/
def Binary.pointPosition (b : Binary) : Int :=
  let (x, d) := scale b.mantissa 1 2 b.exponent
  if d ≤ x then (Nat.toDigits 10 (x / d)).length
  else 1 - (Nat.toDigits 10 ((d - 1) / x)).length

/-- The shortest decimal that `b` owns: its digits as a number, and the power of ten they count.
Of two with equally many digits, the nearer. -/
def Binary.shortest (b : Binary) : Nat × Int :=
  let point := b.pointPosition
  let hits := (List.range 17).findSome? fun (i : Nat) =>
    let k := point - 1 - (i : Int)
    ((b.gridNeighbours k).find? (b.owns · k)).map (·, k)
  hits.getD (0, 0)

/-- Writing a positive decimal `n * 10 ^ k`: positional when the point falls from three zeros
before the digits up to sixteen digits after the start, with a power of ten otherwise. -/
def render (n : Nat) (k : Int) : String :=
  let digits := ((Nat.toDigits 10 n).reverse.dropWhile (· = '0')).reverse
  let point : Int := (Nat.toDigits 10 n).length + k
  if -4 < point ∧ point ≤ 0 then
    String.ofList ("0.".toList ++ List.replicate (-point).toNat '0' ++ digits)
  else if 0 < point ∧ point ≤ 16 then
    let whole := digits.take point.toNat
    let whole := whole ++ List.replicate (point.toNat - whole.length) '0'
    let part := digits.drop point.toNat
    String.ofList (whole ++ '.' :: if part.isEmpty then ['0'] else part)
  else
    let power := point - 1
    let e := Nat.toDigits 10 power.natAbs
    let e := if e.length < 2 then '0' :: e else e
    let mark := if power < 0 then "e-" else "e+"
    let part := digits.drop 1
    String.ofList (digits.take 1 ++ (if part.isEmpty then [] else '.' :: part)) ++ mark ++
      String.ofList e

/-- The text of the binary number nearest to `digits * 10 ^ exponent`. -/
def nearestText (digits : Nat) (exponent : Int) : String :=
  -- Far outside the range of the binary numbers there is nothing to compute.
  let places : Int := (Nat.toDigits 10 digits).length + exponent
  if digits = 0 ∨ places < -330 then "0.0"
  else if 330 < places then "inf"
  else
    let (n, d) := scale digits 1 10 exponent
    match nearest n d with
    | none => "inf"
    | some b =>
      if b.mantissa = 0 then "0.0"
      else
        let (m, k) := b.shortest
        render m k

end BoxFlow.Decimal
