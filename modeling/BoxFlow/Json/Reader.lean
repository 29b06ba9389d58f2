import BoxFlow.Json

/-!
# Reading JSON

`Json.read` reads a whole text. Beyond the standard it takes `NaN`, `Infinity` and `-Infinity`, and
of two fields with one name the last. A fault names what was expected and how many characters of
the text are left there, so that its line can be told.
-/

namespace BoxFlow.Json

/-- What is wrong with a text. -/
inductive Cause
  | byteOrderMark
  | expectingValue
  | expectingName
  | expectingColon
  | expectingComma
  | controlCharacter
  | unterminatedString
  | badEscape
  | badCodeUnit
  | extraData
  /-- An integer of more digits than are read. -/
  | overlong (e : Decimal.Overlong)
  deriving DecidableEq, Repr

def Cause.message : Cause → String
  | .byteOrderMark => "Unexpected UTF-8 BOM (decode using utf-8-sig)"
  | .expectingValue => "Expecting value"
  | .expectingName => "Expecting property name enclosed in double quotes"
  | .expectingColon => "Expecting ':' delimiter"
  | .expectingComma => "Expecting ',' delimiter"
  | .controlCharacter => "Invalid control character at"
  | .unterminatedString => "Unterminated string starting at"
  | .badEscape => "Invalid \\escape"
  | .badCodeUnit => "Invalid \\uXXXX escape"
  | .extraData => "Extra data"
  | .overlong e => e.message

/-- A cause, and how many characters of the text are left at its place. -/
structure Fault where
  cause : Cause
  left : Nat
  deriving DecidableEq, Repr

def fail {α : Type} (cause : Cause) (rest : List Char) : Except Fault α :=
  .error ⟨cause, rest.length⟩

def isBlank (c : Char) : Bool :=
  c = ' ' || c = '\t' || c = '\n' || c = '\r'

def skipBlank (s : List Char) : List Char :=
  s.dropWhile isBlank

/-! ## Strings -/

def hexValue? (c : Char) : Option Nat :=
  if '0' ≤ c ∧ c ≤ '9' then some (c.toNat - '0'.toNat)
  else if 'a' ≤ c ∧ c ≤ 'f' then some (c.toNat - 'a'.toNat + 10)
  else if 'A' ≤ c ∧ c ≤ 'F' then some (c.toNat - 'A'.toNat + 10)
  else none

/-- Four hexadecimal digits with something after them. -/
def codeUnit? : List Char → Option (Nat × List Char)
  | a :: b :: c :: d :: e :: rest => do
    let a ← hexValue? a
    let b ← hexValue? b
    let c ← hexValue? c
    let d ← hexValue? d
    return (((a * 16 + b) * 16 + c) * 16 + d, e :: rest)
  | _ => none

def isHighSurrogate (n : Nat) : Bool := 0xd800 ≤ n && n < 0xdc00

def isLowSurrogate (n : Nat) : Bool := 0xdc00 ≤ n && n < 0xe000

/-- The character with code `n`; a surrogate, which is no character, becomes U+FFFD. -/
def charOfCode (n : Nat) : Char :=
  if isHighSurrogate n || isLowSurrogate n then Char.ofNat 0xfffd else Char.ofNat n

/-- The character that the digits after a backslash and a `u` stand for: two escaped surrogates
make one character. -/
def readCodeUnit (s : List Char) : Except Fault (Char × List Char) :=
  match codeUnit? s with
  | none => .error ⟨.badCodeUnit, s.length + 1⟩
  | some (high, rest) =>
    if isHighSurrogate high && 6 < rest.length then
      match rest with
      | '\\' :: 'u' :: tail =>
        match codeUnit? tail with
        | none => .error ⟨.badCodeUnit, tail.length + 1⟩
        | some (low, rest') =>
          if isLowSurrogate low then
            .ok (Char.ofNat (0x10000 + (high - 0xd800) * 0x400 + (low - 0xdc00)), rest')
          else .ok (charOfCode high, rest)
      | _ => .ok (charOfCode high, rest)
    else .ok (charOfCode high, rest)

def simpleEscape? : Char → Option Char
  | '"' => some '"'
  | '\\' => some '\\'
  | '/' => some '/'
  | 'b' => some '\x08'
  | 'f' => some '\x0c'
  | 'n' => some '\n'
  | 'r' => some '\r'
  | 't' => some '\t'
  | _ => none

/-- The rest of a string whose opening quote stood where `start` characters were left; `acc` holds
what has been read, the last character first. -/
def readStringTail (start : Nat) :
    Nat → List Char → List Char → Except Fault (String × List Char)
  | 0, _, _ | _, [], _ => .error ⟨.unterminatedString, start⟩
  | fuel + 1, c :: rest, acc =>
    if c = '"' then .ok (String.ofList acc.reverse, rest)
    else if c.toNat < 0x20 then fail .controlCharacter (c :: rest)
    else if c = '\\' then
      match rest with
      | [] => .error ⟨.unterminatedString, start⟩
      | 'u' :: tail => do
        let (d, rest) ← readCodeUnit tail
        readStringTail start fuel rest (d :: acc)
      | e :: tail =>
        match simpleEscape? e with
        | some d => readStringTail start fuel tail (d :: acc)
        | none => fail .badEscape (c :: rest)
    else readStringTail start fuel rest (c :: acc)

/-- A string, from after its opening quote. -/
def readString (s : List Char) : Except Fault (String × List Char) :=
  readStringTail (s.length + 1) (s.length + 1) s []

/-! ## Numbers -/

def takeDigits (s : List Char) : List Char × List Char :=
  s.span Char.isDigit

/-- The digits before the point of a number: a single zero, or digits that start with another. -/
def wholeDigits? (s : List Char) : Option (List Char × List Char) :=
  match s with
  | '0' :: rest => some (['0'], rest)
  | c :: _ => if c.isDigit then some (takeDigits s) else none
  | [] => none

/-- A point with digits after it. -/
def fraction? (s : List Char) : Option (List Char × List Char) :=
  match s with
  | '.' :: rest => let (ds, rest) := takeDigits rest; if ds.isEmpty then none else some (ds, rest)
  | _ => none

/-- A power of ten, its digits after the sign. -/
def power? (s : List Char) : Option (Int × List Char) :=
  match s with
  | e :: rest =>
    if e = 'e' ∨ e = 'E' then
      let (negative, rest) := match rest with
        | '-' :: rest => (true, rest)
        | '+' :: rest => (false, rest)
        | rest => (false, rest)
      let (ds, rest) := takeDigits rest
      if ds.isEmpty then none
      else
        let n := Decimal.ofDigits (ds.map Decimal.digitValue)
        some (if negative then -(n : Int) else n, rest)
    else none
  | [] => none

def readNumber (s : List Char) : Except Fault (Json × List Char) :=
  let (negative, digits) := match s with
    | '-' :: rest => (true, rest)
    | _ => (false, s)
  match wholeDigits? digits with
  | none => fail .expectingValue s
  | some (whole, rest) =>
    let part := fraction? rest
    let rest := (part.map (·.2)).getD rest
    let power := power? rest
    let rest := (power.map (·.2)).getD rest
    if part.isNone ∧ power.isNone then
      match Decimal.ofSignDigits negative whole with
      | .ok n => .ok (.int n, rest)
      | .error e => fail (.overlong e) s
    else
      let places := (part.map (·.1)).getD []
      let exponent := (power.map (·.1)).getD 0 - places.length
      let n := Decimal.ofDigits ((whole ++ places).map Decimal.digitValue)
      .ok (.real (.finite negative n exponent), rest)

/-! ## Values -/

/-- `s` without the word at its front. -/
def afterWord? (word : String) (s : List Char) : Option (List Char) :=
  if word.toList.isPrefixOf s then some (s.drop word.length) else none

/-- The values that are written as a word. -/
def words : List (String × Json) :=
  [("null", .null), ("true", .bool true), ("false", .bool false), ("NaN", .real .notANumber),
    ("Infinity", .real (.infinite false)), ("-Infinity", .real (.infinite true))]

mutual

/-- A value at the very front of a text. A character that is read takes at most two units of
fuel: one for the value, one for the items or fields it opens. -/
def readValue : Nat → List Char → Except Fault (Json × List Char)
  | 0, s => fail .expectingValue s
  | fuel + 1, s =>
    match words.findSome? fun (w, v) => (afterWord? w s).map (v, ·) with
    | some r => .ok r
    | none =>
      match s with
      | '"' :: rest => do
        let (t, rest) ← readString rest
        return (.str t, rest)
      | '{' :: rest =>
        match skipBlank rest with
        | '}' :: rest => .ok (.obj [], rest)
        | rest => do
          let (fields, rest) ← readFields fuel rest []
          return (.obj fields, rest)
      | '[' :: rest =>
        match skipBlank rest with
        | ']' :: rest => .ok (.arr [], rest)
        | rest => do
          let (items, rest) ← readItems fuel rest []
          return (.arr items.reverse, rest)
      | _ => readNumber s

/-- The fields of an object up to its closing brace, after those in `acc`. -/
def readFields :
    Nat → List Char → Keyed Json → Except Fault (Keyed Json × List Char)
  | 0, s, _ => fail .expectingName s
  | fuel + 1, s, acc =>
    match s with
    | '"' :: rest => do
      let (name, rest) ← readString rest
      match skipBlank rest with
      | ':' :: rest =>
        let (v, rest) ← readValue fuel (skipBlank rest)
        let acc := Keyed.put acc name v
        match skipBlank rest with
        | '}' :: rest => .ok (acc, rest)
        | ',' :: rest => readFields fuel (skipBlank rest) acc
        | rest => fail .expectingComma rest
      | rest => fail .expectingColon rest
    | _ => fail .expectingName s

/-- The items of an array up to its closing bracket; `acc` holds those before, the last first. -/
def readItems : Nat → List Char → List Json → Except Fault (List Json × List Char)
  | 0, s, _ => fail .expectingValue s
  | fuel + 1, s, acc => do
    let (v, rest) ← readValue fuel s
    match skipBlank rest with
    | ']' :: rest => .ok (v :: acc, rest)
    | ',' :: rest => readItems fuel (skipBlank rest) (v :: acc)
    | rest => fail .expectingComma rest

end

/-- The value that a whole text holds. -/
def read (s : List Char) : Except Fault Json :=
  if s.head? = some (Char.ofNat 0xfeff) then fail .byteOrderMark s
  else do
    let (v, rest) ← readValue (2 * s.length + 2) (skipBlank s)
    match skipBlank rest with
    | [] => .ok v
    | rest => fail .extraData rest

end BoxFlow.Json
