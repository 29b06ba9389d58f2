import BoxFlow.Text.Quoted

/-!
# UTF-8

Reading bytes as text. A fault names the first place where the bytes are no UTF-8, how many of
them belong to it, and why: a byte that starts no character, a character broken off by a wrong
byte, or one broken off by the end of the data. Shortest forms only; no surrogates, nothing
above U+10FFFF.
-/

namespace BoxFlow.Text.Utf8

/-- Why bytes are no text. -/
inductive Reason
  | invalidStart
  | invalidContinuation
  | unexpectedEnd
  deriving DecidableEq, Repr

def Reason.message : Reason → String
  | .invalidStart => "invalid start byte"
  | .invalidContinuation => "invalid continuation byte"
  | .unexpectedEnd => "unexpected end of data"

/-- The first place at which bytes are no text: `length` bytes from `position` on, the first of
them being `byte`. -/
structure Fault where
  position : Nat
  length : Nat
  byte : UInt8
  reason : Reason
  deriving DecidableEq, Repr

def Fault.message (f : Fault) : String :=
  let place :=
    if f.length = 1 then s!"byte 0x{hex 2 f.byte.toNat} in position {f.position}"
    else s!"bytes in position {f.position}-{f.position + f.length - 1}"
  s!"'utf-8' codec can't decode {place}: {f.reason.message}"

def isContinuation (b : UInt8) : Bool := 0x80 ≤ b && b < 0xc0

/-- The six payload bits of a continuation byte. -/
def payload (b : UInt8) : Nat := b.toNat % 64

/-- The second byte of a character that starts with `lead`: a continuation byte that makes
neither an over-long form, nor a surrogate, nor a code point above U+10FFFF. -/
def isSecond (lead b : UInt8) : Bool :=
  isContinuation b &&
    (if lead = 0xe0 then 0xa0 ≤ b
     else if lead = 0xed then b < 0xa0
     else if lead = 0xf0 then 0x90 ≤ b
     else if lead = 0xf4 then b < 0x90
     else true)

/-- How many bytes a character takes that starts with `lead`. -/
def size (lead : UInt8) : Option Nat :=
  if lead < 0x80 then some 1
  else if lead < 0xc2 then none
  else if lead < 0xe0 then some 2
  else if lead < 0xf0 then some 3
  else if lead < 0xf5 then some 4
  else none

/-- The character at the head of `lead :: rest` and the bytes after it, or how many bytes are at
fault and why. -/
def takeChar (lead : UInt8) (rest : List UInt8) : Except (Nat × Reason) (Char × List UInt8) :=
  match size lead, rest with
  | none, _ => .error (1, .invalidStart)
  | some 1, rest => .ok (Char.ofNat lead.toNat, rest)
  | some _, [] => .error (1, .unexpectedEnd)
  | some n, b :: rest =>
    if !isSecond lead b then .error (1, .invalidContinuation)
    else if n = 2 then .ok (Char.ofNat (lead.toNat % 32 * 64 + payload b), rest)
    else match rest with
      | [] => .error (2, .unexpectedEnd)
      | c :: rest =>
        if !isContinuation c then .error (2, .invalidContinuation)
        else if n = 3 then
          .ok (Char.ofNat ((lead.toNat % 16 * 64 + payload b) * 64 + payload c), rest)
        else match rest with
          | [] => .error (3, .unexpectedEnd)
          | d :: rest =>
            if !isContinuation d then .error (3, .invalidContinuation)
            else
              let n := ((lead.toNat % 8 * 64 + payload b) * 64 + payload c) * 64 + payload d
              .ok (Char.ofNat n, rest)

/-- Every character takes at least one byte. -/
theorem takeChar_length {lead : UInt8} {rest tail : List UInt8} {c : Char}
    (h : takeChar lead rest = .ok (c, tail)) : tail.length ≤ rest.length := by
  unfold takeChar at h
  repeat' split at h
  all_goals simp_all
  all_goals omega

/-- The text of `bytes`, which start at byte `position` of the data. -/
def decodeFrom (position : Nat) (bytes : List UInt8) : Except Fault (List Char) :=
  match bytes with
  | [] => .ok []
  | lead :: rest =>
    match h : takeChar lead rest with
    | .error (length, reason) => .error { position, length, byte := lead, reason }
    | .ok (c, tail) =>
      have : tail.length < rest.length + 1 := Nat.lt_succ_of_le (takeChar_length h)
      (decodeFrom (position + (size lead).getD 1) tail).map (c :: ·)
termination_by bytes.length

/-- The text of `bytes`, or the first place where they are no text. -/
def decode (bytes : List UInt8) : Except Fault (List Char) :=
  decodeFrom 0 bytes

end BoxFlow.Text.Utf8
