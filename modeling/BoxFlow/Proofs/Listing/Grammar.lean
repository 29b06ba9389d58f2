import BoxFlow.Proofs.Listing.Labels
import BoxFlow.Proofs.Listing.Listable

/-!
# The grammar as data

The rules of the grammar of listings as trees (`Rule`). Every terminal has layout after it, perhaps
none, and layout is nowhere else but at the very front of a text. So what a rule has taken of a text
is a list of lexemes (`Rule.read`): the terminals that it is made of, each with the layout after it.
That these are the rules that `Listing.toplevel` and its parts read by is shown where readers are
compared with them (`Tracks`).
-/

namespace BoxFlow.Listing

open Reader

/-! ## Lexemes -/

/-- The definition of a label, a mention of one, or anything else. -/
inductive Lexeme.Kind
  | plain
  /-- `entry` tells the first label of a function from those after it. -/
  | label (entry : Bool)
  | target
  deriving DecidableEq, Repr

/-- Is it the definition of a label? -/
def Lexeme.Kind.isLabel : Lexeme.Kind → Bool
  | label _ => true
  | plain | target => false

/-- The characters of a terminal of that kind. -/
def Lexeme.Kind.text (body : String) : Lexeme.Kind → List Char
  | plain => body.toList
  | label _ => body.toList ++ [':']
  | target => '%' :: body.toList

/-- A terminal in a text, and the layout after it. -/
structure Lexeme where
  kind : Lexeme.Kind
  /-- What stands there; of a label only the name. -/
  body : String
  gap : List Char
  deriving DecidableEq, Repr

/-- The characters of a terminal. -/
def Lexeme.text (x : Lexeme) : List Char := x.kind.text x.body

/-- The characters of lexemes, one after the other. -/
def chars (e : List Lexeme) : List Char := e.flatMap fun x => x.text ++ x.gap

theorem chars_cons (x : Lexeme) (e : List Lexeme) :
    chars (x :: e) = x.text ++ (x.gap ++ chars e) := by
  rw [chars, List.flatMap_cons, List.append_assoc, chars]

theorem chars_append (e e' : List Lexeme) : chars (e ++ e') = chars e ++ chars e' :=
  List.flatMap_append

/-- A lexeme that can stand in a listing. -/
structure Lexeme.Proper (x : Lexeme) : Prop where
  opens : Opens x.text
  name : x.kind ≠ .plain → IsName x.body

theorem chars_ne_nil {e : List Lexeme} (he : e ≠ []) (h : ∀ x ∈ e, x.Proper) : chars e ≠ [] := by
  obtain ⟨x, e, rfl⟩ := List.exists_cons_of_ne_nil he
  obtain ⟨c, u, hu, -⟩ := (h x List.mem_cons_self).opens
  rw [chars_cons, hu]
  exact List.cons_ne_nil _ _

/-! ## Rules -/

/-- What the grammar has for its letters. -/
inductive Terminal
  | word (w : String)
  | type
  | localName
  | globalName
  | integer
  /-- A name with a colon right after it. -/
  | label (entry : Bool)
  /-- A local name that mentions a label. -/
  | target
  deriving DecidableEq, Repr

/-- A rule of the grammar. -/
inductive Rule
  | terminal (k : Terminal)
  | empty
  | seq (a b : Rule)
  | alt (a b : Rule)
  | many (a : Rule)
  deriving DecidableEq, Repr

namespace Terminal

def kind : Terminal → Lexeme.Kind
  | label entry => .label entry
  | target => .target
  | _ => .plain

/-- Takes the terminal from the front of a text. -/
def body : Terminal → Reader String
  | word w => do
    Reader.word w
    return w
  | type => Ty.name <$> Listing.type
  | localName => ("%" ++ ·) <$> Listing.localName
  | globalName => ("@" ++ ·) <$> Listing.globalName
  | integer => do
    let sign ← opt (Reader.word "-")
    let digits ← run Char.isDigit
    return (if sign.isSome then "-" else "") ++ String.ofList digits
  | label _ => do
    let n ← labelName
    Reader.word ":"
    return n
  | target => Listing.localName

end Terminal

/-- Layout, as it stands there. -/
def gap : Reader (List Char) := fun s =>
  let t := skipLayout false s
  some (s.take (s.length - t.length), t)

/-- A terminal and the layout after it. -/
def Terminal.read (k : Terminal) : Reader Lexeme := do
  let body ← k.body
  return { kind := k.kind, body, gap := ← gap }

namespace Rule

/-- What the rule takes from the front of a text. -/
def read : Rule → Reader (List Lexeme)
  | terminal k => (fun x => [x]) <$> k.read
  | empty => pure []
  | seq a b => do return (← a.read) ++ (← b.read)
  | alt a b => a.read <|> b.read
  | many a => List.flatten <$> Reader.many a.read

def word (w : String) : Rule := terminal (.word w)

/-- Rules one after the other. -/
def row : List Rule → Rule
  | [] => empty
  | [a] => a
  | a :: as => seq a (row as)

def opt (a : Rule) : Rule := alt a empty

def commaList (a : Rule) : Rule := seq a (many (row [word ",", a]))

def operand : Rule := alt (terminal .localName) (alt (terminal .globalName) (terminal .integer))

def typedOperand : Rule := row [terminal .type, operand]

def allocaInst : Rule := row [word "alloca", terminal .type]

def loadInst : Rule := row [word "load", terminal .type, word ",", typedOperand]

def storeInst : Rule := row [word "store", typedOperand, word ",", typedOperand]

def incoming : Rule := row [word "[", operand, word ",", terminal .target, word "]"]

def phiInst : Rule := row [word "phi", terminal .type, commaList incoming]

def selectInst : Rule :=
  row [word "select", typedOperand, word ",", typedOperand, word ",", typedOperand]

def callInst : Rule :=
  row [word "call", terminal .type, terminal .globalName, word "(", opt (commaList typedOperand),
    word ")"]

def labelRef : Rule := row [word "label", terminal .target]

def condBranch : Rule := row [typedOperand, word ",", labelRef, word ",", labelRef]

def brInst : Rule := row [word "br", alt condBranch labelRef]

def retInst : Rule := row [word "ret", alt (word "void") typedOperand]

def valueInst : Rule := alt allocaInst (alt loadInst (alt phiInst (alt selectInst callInst)))

def assignment : Rule := row [terminal .localName, word "=", valueInst]

def statement : Rule :=
  alt storeInst (alt callInst (alt brInst (alt retInst (word "unreachable"))))

def instruction : Rule := alt assignment statement

def block (entry : Bool) : Rule := row [terminal (.label entry), instruction, many instruction]

def param : Rule := row [terminal .type, terminal .localName]

def blocks : Rule := seq (block true) (many (block false))

def functionDef : Rule :=
  row [word "define", terminal .type, terminal .globalName, word "(", opt (commaList param),
    word ")", word "\x7b", blocks, word "\x7d"]

def globalDecl : Rule := row [terminal .globalName, word "=", word "global", terminal .type]

def declareDecl : Rule :=
  row [word "declare", terminal .type, terminal .globalName, word "(",
    opt (commaList (terminal .type)), word ")"]

def toplevel : Rule := alt globalDecl (alt declareDecl functionDef)

end Rule

/-- The layout at the front of a text, and the items after it. -/
def lexemes : Reader (List Char × List (List Lexeme)) := do
  return (← gap, ← Reader.many Rule.toplevel.read)

/-! ## What rules take -/

variable {s t u : List Char} {k : Terminal} {x : Lexeme} {a b R : Rule} {e : List Lexeme}

theorem gap_eq_some {g : List Char} :
    gap s = some (g, t) ↔ s = g ++ t ∧ skipLayout false s = t := by
  have hsuffix (comment : Bool) (s : List Char) : skipLayout comment s <:+ s := by
    fun_induction skipLayout comment s with
    | case1 => exact List.suffix_rfl
    | case2 _ _ ih | case3 _ _ _ ih | case4 _ _ ih => exact ih.trans (List.suffix_cons ..)
    | case5 => exact List.suffix_rfl
  constructor
  · intro h
    cases h
    exact ⟨(List.suffix_iff_eq_append.1 (hsuffix false s)).symm, rfl⟩
  · rintro ⟨rfl, ht⟩
    rw [gap, ht]
    simp

theorem Terminal.read_eq_some : k.read s = some (x, t) ↔
    ∃ u, k.body s = some (x.body, u) ∧ x.kind = k.kind ∧ u = x.gap ++ t ∧
      skipLayout false (x.gap ++ t) = t := by
  rw [Terminal.read, bind_eq_some]
  constructor
  · rintro ⟨body, u, hbody, h⟩
    obtain ⟨g, v, hg, h⟩ := bind_eq_some.1 h
    cases h
    obtain ⟨rfl, hskip⟩ := gap_eq_some.1 hg
    exact ⟨_, hbody, rfl, rfl, hskip⟩
  · rintro ⟨_, hbody, hkind, rfl, hskip⟩
    refine ⟨_, _, hbody, ?_⟩
    rw [bind_run (gap_eq_some.2 ⟨rfl, hskip⟩), ← hkind]
    rfl

theorem Terminal.read_eq_none : k.read s = none ↔ k.body s = none := by
  rw [Terminal.read, bind_eq_none]
  constructor
  · intro h
    cases hbody : k.body s with
    | none => rfl
    | some x =>
      have hgap : gap x.2 = some _ := rfl
      have := h x.1 x.2 hbody
      rw [bind_run hgap] at this
      cases this
  · intro h body u hbody
    rw [h] at hbody
    cases hbody

namespace Rule

theorem read_terminal_eq_some : (terminal k).read s = some (e, t) ↔
    ∃ x, e = [x] ∧ k.read s = some (x, t) := by
  rw [read, map_run, Option.map_eq_some_iff]
  constructor
  · rintro ⟨x, hx, h⟩
    cases h
    exact ⟨x.1, rfl, hx⟩
  · rintro ⟨x, rfl, hx⟩
    exact ⟨_, hx, rfl⟩

theorem read_terminal_eq_none : (terminal k).read s = none ↔ k.body s = none := by
  rw [read, map_run, Option.map_eq_none_iff, Terminal.read_eq_none]

theorem read_seq_eq_some : (seq a b).read s = some (e, u) ↔
    ∃ ea eb t, e = ea ++ eb ∧ a.read s = some (ea, t) ∧ b.read t = some (eb, u) := by
  rw [read, bind_eq_some]
  constructor
  · rintro ⟨ea, t, ha, h⟩
    obtain ⟨eb, v, hb, h⟩ := bind_eq_some.1 h
    cases h
    exact ⟨ea, eb, t, rfl, ha, hb⟩
  · rintro ⟨ea, eb, t, rfl, ha, hb⟩
    exact ⟨ea, t, ha, by rw [bind_run hb]; rfl⟩

theorem read_alt_run (a b : Rule) (s : List Char) :
    (alt a b).read s = (a.read s).or (b.read s) := orElse_run ..

end Rule

/-- The first terminal of the rule is there whatever it takes, and defines no label. -/
def Rule.starts : Rule → Bool
  | terminal k => !k.kind.isLabel
  | seq a _ => a.starts
  | alt a b => a.starts && b.starts
  | empty | many _ => false

theorem Rule.exists_first (hR : R.starts = true) (h : R.read s = some (e, t)) :
    ∃ x xs, e = x :: xs ∧ x.kind.isLabel = false := by
  induction R generalizing s e t with
  | terminal k =>
    obtain ⟨x, rfl, hx⟩ := read_terminal_eq_some.1 h
    obtain ⟨_, -, hkind, -⟩ := Terminal.read_eq_some.1 hx
    exact ⟨x, [], rfl, by rw [hkind]; simpa [starts] using hR⟩
  | seq a b iha _ =>
    obtain ⟨ea, eb, u, rfl, ha, -⟩ := read_seq_eq_some.1 h
    obtain ⟨x, xs, rfl, hx⟩ := iha hR ha
    exact ⟨x, xs ++ eb, rfl, hx⟩
  | alt a b iha ihb =>
    rw [starts, Bool.and_eq_true] at hR
    rw [read_alt_run, Option.or_eq_some_iff] at h
    rcases h with h | ⟨-, h⟩
    · exact iha hR.1 h
    · exact ihb hR.2 h
  | empty | many _ => cases hR

end BoxFlow.Listing
