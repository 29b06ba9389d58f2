import BoxFlow.Text.Printable

/-!
# Quoted text

How a message shows a piece of text: between single quotes, or between double quotes if the text
has a single quote and no double one. Inside, a backslash and the quote in use are escaped, and
every unprintable character is written by its code point.
-/

namespace BoxFlow.Text

/-- The lower-case hexadecimal digits of `n`, at least `width` of them. -/
def hex (width n : Nat) : String :=
  let digits := Nat.toDigits 16 n
  String.ofList (List.replicate (width - digits.length) '0' ++ digits)

/-- A character by its code point: two hexadecimal digits, four or eight, as many as it needs. -/
def codePointEscape (n : Nat) : String :=
  if n < 0x100 then "\\x" ++ hex 2 n
  else if n < 0x10000 then "\\u" ++ hex 4 n
  else "\\U" ++ hex 8 n

/-- The quote that encloses a text. -/
def enclosingQuote (s : List Char) : Char :=
  if '\'' ∈ s ∧ '"' ∉ s then '"' else '\''

/-- One character of a text enclosed in `q`. -/
def escapeChar (q c : Char) : String :=
  if c = '\\' ∨ c = q then String.ofList ['\\', c]
  else if c = '\n' then "\\n"
  else if c = '\r' then "\\r"
  else if c = '\t' then "\\t"
  else if isPrintable c then c.toString
  else codePointEscape c.toNat

/-- A text as a message shows it. -/
def quote (s : String) : String :=
  let q := enclosingQuote s.toList
  q.toString ++ String.join (s.toList.map (escapeChar q)) ++ q.toString

end BoxFlow.Text
