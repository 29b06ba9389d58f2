import BoxFlow.Text.Utf8

/-!
# Source texts

How the bytes of a file become a text, where in a text a place is, and how paths are shown. A file
is UTF-8, and every line ending becomes a single line feed.
-/

namespace BoxFlow.Text

/-- The text with each carriage return, and each one together with the line feed after it, replaced
by a line feed. -/
def unifyLineEnds : List Char → List Char
  | [] => []
  | '\r' :: '\n' :: rest => '\n' :: unifyLineEnds rest
  | c :: rest => (if c = '\r' then '\n' else c) :: unifyLineEnds rest

/-- No carriage return is left. -/
theorem not_mem_unifyLineEnds (s : List Char) : '\r' ∉ unifyLineEnds s := by
  fun_induction unifyLineEnds s with
  | case1 => simp
  | case2 rest ih => simpa using ih
  | case3 c rest _ ih =>
    by_cases h : c = '\r'
    · simpa [h] using ih
    · simp only [h, if_false, List.mem_cons, not_or]
      exact ⟨fun e => h e.symm, ih⟩

/-- What is found at a path. -/
inductive FileContent
  | missing
  | directory
  /-- A part of the path before its last one is a file. -/
  | notDirectory
  | bytes (data : List UInt8)
  deriving DecidableEq, Repr

/-- Why there is no text at a path. -/
inductive ReadFault
  | missing (path : String)
  | directory (path : String)
  | notDirectory (path : String)
  | notText (f : Utf8.Fault)
  deriving DecidableEq, Repr

def ReadFault.message : ReadFault → String
  | missing path => s!"[Errno 2] No such file or directory: {quote path}"
  | directory path => s!"[Errno 21] Is a directory: {quote path}"
  | notDirectory path => s!"[Errno 20] Not a directory: {quote path}"
  | notText f => f.message

/-- The text at a path. -/
def ofContent (path : String) : FileContent → Except ReadFault (List Char)
  | .missing => .error (.missing path)
  | .directory => .error (.directory path)
  | .notDirectory => .error (.notDirectory path)
  | .bytes data =>
    match Utf8.decode data with
    | .ok s => .ok (unifyLineEnds s)
    | .error f => .error (.notText f)

/-! ## Places -/

/-- A place in a text: lines and columns count from one. -/
structure Position where
  line : Nat
  column : Nat
  deriving DecidableEq, Repr

/-- The place behind the given characters. -/
def Position.after (before : List Char) : Position where
  line := before.count '\n' + 1
  column := (before.reverse.takeWhile (· ≠ '\n')).length + 1

/-- The place in `s` where `left` characters are left. -/
def Position.ofLeft (s : List Char) (left : Nat) : Position :=
  .after (s.take (s.length - left))

/-! ## Paths -/

/-- The parts of a path between slashes, without empty ones and single dots. -/
def pathParts (path : String) : List String :=
  (path.splitOn "/").filter fun part => part ≠ "" && part ≠ "."

/-- A path in its plain form: no doubled slash, no single dot. -/
def plainPath (path : String) : String :=
  let root := if path.startsWith "//" && !path.startsWith "///" then "//"
    else if path.startsWith "/" then "/" else ""
  let s := root ++ "/".intercalate (pathParts path)
  if s.isEmpty then "." else s

/-- The parts of a way down after a further part; the last one comes first. A double dot takes
back the part before it, if there is one. -/
def stepInto (above : List String) (part : String) : List String :=
  match part, above with
  | "..", a :: rest => if a = ".." then part :: above else rest
  | _, _ => part :: above

/-- A path in its plain form, with as few double dots as it can have. -/
def resolvedPath (path : String) : String :=
  let parts := ((pathParts path).foldl stepInto []).reverse
  if path.startsWith "/" then "/" ++ "/".intercalate (parts.filter (· ≠ ".."))
  else "/".intercalate parts

namespace FileContent

/-- What is at the end of a way down from where the given files are. -/
def atParts (files : List (String × List UInt8)) (parts : List String) : FileContent :=
  match files.find? fun f => pathParts f.1 = parts with
  | some f => .bytes f.2
  | none =>
    if parts.isEmpty || files.any fun f => parts.isPrefixOf (pathParts f.1) then .directory
    else .missing

/-- What is found by going on from a directory; `above` are the parts that lead there, the last
one first. -/
def walk (files : List (String × List UInt8)) (above : List String) :
    List String → FileContent
  | [] => atParts files above.reverse
  | part :: parts =>
    match atParts files above.reverse with
    | .directory => walk files (if part = ".." then above.drop 1 else part :: above) parts
    | .bytes _ => .notDirectory
    | other => other

/-- What is at a path if the given files, at relative paths, are all there are. -/
def among (files : List (String × List UInt8)) (path : String) : FileContent :=
  walk (if path.startsWith "/" then [] else files) [] (pathParts path)

end FileContent

/-- A name without its last suffix. A dot at either end starts no suffix. -/
def stem (name : String) : String :=
  let cs := name.toList
  let suffix := cs.reverse.takeWhile (· ≠ '.')
  let front := cs.length - suffix.length - 1
  if '.' ∈ cs ∧ 0 < front ∧ suffix ≠ [] then String.ofList (cs.take front) else name

/-- The name of the module in the file at `path`. -/
def pathStem (path : String) : String :=
  stem ((pathParts path).getLast?.getD "")

end BoxFlow.Text
