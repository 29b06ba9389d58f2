import BoxFlow.Text.Blank

/-!
# Integers in decimal

A literal of a module text is a run of ASCII digits, perhaps after a minus sign; an integer on the
command line may also carry a plus sign, white space around it, single underscores between its
digits, and the decimal digits of any script. Either way a text of more than `digitLimit` digits is
refused.
-/

namespace BoxFlow.Decimal

/-- The most digits an integer text may have, leading zeros counted. -/
def digitLimit : Nat := 4300

/-- A text of that many digits is longer than `digitLimit`. -/
structure Overlong where
  digits : Nat
  deriving DecidableEq, Repr

def Overlong.message (e : Overlong) : String :=
  s!"Exceeds the limit ({digitLimit} digits) for integer string conversion: " ++
    s!"value has {e.digits} digits; use sys.set_int_max_str_digits() to increase the limit"

/-- The number that a run of digit values stands for. -/
def ofDigits (ds : List Nat) : Nat :=
  ds.foldl (fun n d => 10 * n + d) 0

def digitValue (c : Char) : Nat := c.toNat - '0'.toNat

/-- The integer with the given sign and ASCII digits. -/
def ofSignDigits (negative : Bool) (digits : List Char) : Except Overlong Int :=
  if digitLimit < digits.length then .error ⟨digits.length⟩
  else
    let n := ofDigits (digits.map digitValue)
    .ok (if negative then -(n : Int) else n)

/-- The digit zero of every script that has decimal digits; the nine others follow it. -/
def scriptZeros : List Nat := [
  0x30, 0x660, 0x6f0, 0x7c0, 0x966, 0x9e6, 0xa66, 0xae6, 0xb66, 0xbe6, 0xc66, 0xce6, 0xd66, 0xde6,
  0xe50, 0xed0, 0xf20, 0x1040, 0x1090, 0x17e0, 0x1810, 0x1946, 0x19d0, 0x1a80, 0x1a90, 0x1b50,
  0x1bb0, 0x1c40, 0x1c50, 0xa620, 0xa8d0, 0xa900, 0xa9d0, 0xa9f0, 0xaa50, 0xabf0, 0xff10, 0x104a0,
  0x10d30, 0x11066, 0x110f0, 0x11136, 0x111d0, 0x112f0, 0x11450, 0x114d0, 0x11650, 0x116c0,
  0x11730, 0x118e0, 0x11950, 0x11c50, 0x11d50, 0x11da0, 0x16a60, 0x16ac0, 0x16b50, 0x1d7ce,
  0x1d7d8, 0x1d7e2, 0x1d7ec, 0x1d7f6, 0x1e140, 0x1e2f0, 0x1e950, 0x1fbf0]

/-- The value of a decimal digit of any script. -/
def scriptDigit? (c : Char) : Option Nat :=
  (scriptZeros.find? fun z => z ≤ c.toNat && c.toNat < z + 10).map (c.toNat - ·)

/-- Digit values with single underscores between them. -/
def spacedDigits? : List Char → Option (List Nat)
  | [] => none
  | [c] => (scriptDigit? c).map ([·])
  | c :: '_' :: rest => do
    let d ← scriptDigit? c
    return d :: (← spacedDigits? rest)
  | c :: rest => do
    let d ← scriptDigit? c
    return d :: (← spacedDigits? rest)

/-- The list without the blank characters at its two ends. -/
def trimBlank (s : List Char) : List Char :=
  ((s.dropWhile Text.isBlank).reverse.dropWhile Text.isBlank).reverse

/-- An integer as it may be written on the command line. -/
def ofArgument? (s : String) : Option Int := do
  let (negative, digits) := match trimBlank s.toList with
    | '-' :: rest => (true, rest)
    | '+' :: rest => (false, rest)
    | rest => (false, rest)
  let ds ← spacedDigits? digits
  if digitLimit < ds.length then none
  else some (if negative then -(ofDigits ds : Int) else ofDigits ds)

end BoxFlow.Decimal
