import Mathlib.Data.List.Forall2
import BoxFlow.Proofs.Lists
import BoxFlow.Proofs.Listing.Listable
import BoxFlow.Proofs.Listing.Reading

/-!
# The text of an instruction is its line

Reading an instruction from what the printer has written gives its line in the listing of the program
back (`Program.Writable.reads_instruction`), and so do its operands, one rule of the grammar after the
other.
-/

namespace BoxFlow

namespace Listing

open Reader

variable {s t u : List Char} {n : String} {ty : Ty} {c : Char}

/-! ## Tokens -/

theorem opens_type (ty : Ty) (s : List Char) : Opens (ty.name.toList ++ s) := by
  cases ty <;> exact ⟨_, _, rfl, by decide⟩

theorem type_append (ty : Ty) (hs : Ends s) : type (ty.name.toList ++ s) = some (ty, s) := by
  obtain ⟨htake, hdrop⟩ := takeWhile_dropWhile_append (t := ty.name.toList)
    (List.all_eq_true.1 (by cases ty <;> rfl)) (hs.head isNameChar_of_isWordChar)
  rw [type, htake, hdrop, String.ofList_toList, Ty.ofName?_eq_some_iff.2 rfl]
  rfl

theorem type_eq_none (hc : isWordChar c = false) (s : List Char) : type (c :: s) = none := by
  rw [type, List.takeWhile_cons, hc]
  rfl

theorem reads_typeToken (ty : Ty) : Reads Ends typeToken ty.name.toList (· = ty) :=
  fun s hs => ⟨ty, by rw [typeToken, bind_run (type_append ty hs)]; rfl, rfl⟩

theorem labelName_append (hn : IsName n) (hs : Ends s) :
    labelName (n.toList ++ s) = some (n, s) := by
  rw [labelName, map_run, run_append hn.1 hn.2 hs, Option.map_some, String.ofList_toList]

theorem localName_append (hn : IsName n) (hs : Ends s) :
    localName ('%' :: n.toList ++ s) = some (n, s) := by
  rw [localName, bind_run (s := '%' :: n.toList ++ s) (word_append "%" (n.toList ++ s)),
    labelName_append hn hs]

theorem globalName_append (hn : IsName n) (hs : Ends s) :
    globalName ('@' :: n.toList ++ s) = some (n, s) := by
  rw [globalName, bind_run (s := '@' :: n.toList ++ s) (word_append "@" (n.toList ++ s)),
    labelName_append hn hs]

theorem localName_eq_none (hs : s.head? ≠ some '%') : localName s = none :=
  bind_of_none (word_eq_none (c := '%') rfl hs) _

theorem globalName_eq_none (hs : s.head? ≠ some '@') : globalName s = none :=
  bind_of_none (word_eq_none (c := '@') rfl hs) _

theorem reads_localToken (hn : IsName n) : Reads Ends localToken ('%' :: n.toList) (· = n) :=
  fun s hs => ⟨n, by rw [localToken, bind_run (localName_append hn hs)]; rfl, rfl⟩

theorem reads_globalToken (hn : IsName n) : Reads Ends globalToken ('@' :: n.toList) (· = n) :=
  fun s hs => ⟨n, by rw [globalToken, bind_run (globalName_append hn hs)]; rfl, rfl⟩

/-! ## Operands -/

theorem reads_operand_named (hn : IsName n) :
    Reads Ends operand ('%' :: n.toList) (· = .named n) := by
  intro s hs
  refine ⟨.named n, ?_, rfl⟩
  rw [operand, bind_run (a := .named n) (u := s)]
  · rfl
  · rw [orElse_run, map_run, localName_append hn hs]
    rfl

theorem reads_operand_global (hn : IsName n) :
    Reads Ends operand ('@' :: n.toList) (· = .global n) := by
  intro s hs
  refine ⟨.global n, ?_, rfl⟩
  rw [operand, bind_run (a := .global n) (u := s)]
  · rfl
  · rw [orElse_run, map_run, localName_eq_none (by simp), orElse_run, map_run,
      globalName_append hn hs]
    rfl

theorem integer_digits (m : Nat) (hs : Ends s) :
    run Char.isDigit (Nat.toDigits 10 m ++ s) = some (Nat.toDigits 10 m, s) :=
  run_append Nat.toDigits_ne_nil (fun _ => Nat.isDigit_of_mem_toDigits (by decide) (by decide))
    (hs.head isNameChar_of_isDigit)

theorem head_digits (m : Nat) (s : List Char) : ∃ c t,
    Nat.toDigits 10 m ++ s = c :: t ∧ c.isDigit = true := by
  cases h : Nat.toDigits 10 m with
  | nil => exact absurd h Nat.toDigits_ne_nil
  | cons c t =>
    exact ⟨c, t ++ s, rfl, Nat.isDigit_of_mem_toDigits (b := 10) (n := m) (by decide) (by decide)
      (h ▸ List.mem_cons_self)⟩

theorem integer_append (n : Int) (hs : Ends s) : integer ((toString n).toList ++ s) =
    some (.integer (n < 0) (Nat.toDigits 10 n.natAbs), s) := by
  cases n with
  | ofNat m =>
    obtain ⟨c, t, heq, hc⟩ := head_digits m s
    have hsign : opt (word "-") (Nat.toDigits 10 m ++ s) = some (none, Nat.toDigits 10 m ++ s) := by
      rw [opt, orElse_run, map_run, word_eq_none (c := '-') rfl]
      · rfl
      · rw [heq, List.head?_cons]
        rintro ⟨⟩
        cases hc
    show integer (m.repr.toList ++ s) = _
    rw [Nat.toList_repr, integer, bind_run hsign, bind_run (integer_digits m hs)]
    rfl
  | negSucc m =>
    have hsign : opt (word "-") ("-".toList ++ (Nat.toDigits 10 (m + 1) ++ s)) =
        some (some (), Nat.toDigits 10 (m + 1) ++ s) := by
      rw [opt, orElse_run, map_run, word_append]
      rfl
    show integer (("-" ++ (m + 1).repr).toList ++ s) = _
    rw [String.toList_append, Nat.toList_repr, List.append_assoc, integer, bind_run hsign,
      bind_run (integer_digits (m + 1) hs)]
    simp [pure_run]

theorem head_integer (n : Int) (s : List Char) : ∃ c t, (toString n).toList ++ s = c :: t ∧
    (c = '-' ∨ c.isDigit = true) := by
  cases n with
  | ofNat m =>
    obtain ⟨c, t, h, hc⟩ := head_digits m s
    exact ⟨c, t, by rw [← h, ← Nat.toList_repr]; rfl, .inr hc⟩
  | negSucc m =>
    refine ⟨'-', (m + 1).repr.toList ++ s, ?_, .inl rfl⟩
    show ("-" ++ (m + 1).repr).toList ++ s = _
    rw [String.toList_append]
    rfl

theorem reads_operand_integer (n : Int) : Reads Ends operand (toString n).toList
    (· = .integer (n < 0) (Nat.toDigits 10 n.natAbs)) := by
  intro s hs
  obtain ⟨c, t, heq, hc⟩ := head_integer n s
  have hne {d : Char} (hd : d ≠ '-') (hd' : d.isDigit = false) :
      ((toString n).toList ++ s).head? ≠ some d := by
    rw [heq, List.head?_cons]
    rintro ⟨⟩
    rcases hc with hc | hc
    · exact hd hc
    · rw [hd'] at hc; cases hc
  refine ⟨_, ?_, rfl⟩
  rw [operand, bind_run (a := .integer (n < 0) (Nat.toDigits 10 n.natAbs)) (u := s)]
  · rfl
  · rw [orElse_run, map_run, localName_eq_none (hne (by decide) rfl), orElse_run, map_run,
      globalName_eq_none (hne (by decide) rfl), integer_append n hs]
    rfl

/-- An operand after its type. -/
theorem reads_typedOperand {o : Operand} (ht : Opens t) (h : Reads Ends operand t (· = o)) :
    Reads Ends typedOperand (ty.name.toList ++ ' ' :: t) (· = ⟨ty, o⟩) := by
  have heq : typedOperand = typeToken >>= fun ty => operand >>= fun o => pure ⟨ty, o⟩ := by
    simp [typedOperand, typeToken]
  rw [heq]
  refine (reads_typeToken ty).space (fun s => ends_cons rfl s) ht ?_
  rintro _ rfl
  exact h.map _ (by rintro _ rfl; rfl)

/-! ## Lists -/

section Lists

variable {α : Type} {r : Reader α} {ts : List (List Char)} {as : List α}

/-- What follows the first of several texts with commas between them. -/
def tailText (ts : List (List Char)) : List Char := ts.flatMap ([',', ' '] ++ ·)

theorem opens_intercalate (h : ∀ t ∈ ts, Opens t) (hne : ts ≠ []) :
    Opens ([',', ' '].intercalate ts) := by
  cases ts with
  | nil => exact absurd rfl hne
  | cons t ts =>
    rw [intercalate_cons]
    exact (h t List.mem_cons_self).append _

/-- A list in parentheses, which may be empty, or the parenthesis after it. -/
theorem opens_optList (h : ∀ t ∈ ts, Opens t) (s : List Char) :
    Opens ([',', ' '].intercalate ts ++ (')' :: s)) := by
  by_cases hne : ts = []
  · subst hne
    exact .cons (by decide) s
  · exact (opens_intercalate h hne).append _

theorem runs_tailText (h : List.Forall₂ (fun t a => Opens t ∧ Reads Ends r t (· = a)) ts as)
    (hs : Closes s) :
    Runs (token "," >>= fun _ => r) (skipLayout false (tailText ts ++ s)) as (skipLayout false s) := by
  induction h with
  | nil =>
    have hnone : token "," (skipLayout false s) = none := token_eq_none (c := ',') rfl hs.2
    exact .nil (bind_of_none hnone _)
  | @cons t a ts as hta _ ih =>
    have hends : Ends (tailText ts ++ s) := by
      cases ts with
      | nil => exact hs.1
      | cons u ts => exact ends_cons rfl _
    obtain ⟨_, ha, rfl⟩ := hta.2 _ hends
    have hsplit : tailText (t :: ts) ++ s = ',' :: ' ' :: (t ++ (tailText ts ++ s)) := by
      simp [tailText]
    rw [hsplit, skipLayout_of_opens (.cons (by decide) _)]
    refine .cons (t := skipLayout false (tailText ts ++ s)) ?_ ?_ ih
    · have hcomma : token "," (',' :: ' ' :: (t ++ (tailText ts ++ s))) = some ((), _) :=
        token_append "," _
      rw [bind_run hcomma, skipLayout_blank rfl, skipLayout_of_opens (hta.1.append _), ha]
    · have := length_skipLayout_le false (tailText ts ++ s)
      simp only [List.length_cons, List.length_append] at *
      omega

theorem reads_commaList (h : List.Forall₂ (fun t a => Opens t ∧ Reads Ends r t (· = a)) ts as)
    (hne : ts ≠ []) : Reads Closes (commaList r) ([',', ' '].intercalate ts) (· = as) := by
  intro s hs
  cases h with
  | nil => exact absurd rfl hne
  | @cons t a ts as hta h =>
    have hends : Ends (tailText ts ++ s) := by
      cases ts with
      | nil => exact hs.1
      | cons u ts => exact ends_cons rfl _
    obtain ⟨_, ha, rfl⟩ := hta.2 _ hends
    refine ⟨_, ?_, rfl⟩
    rw [intercalate_cons, ← tailText, List.append_assoc, commaList, bind_run ha,
      bind_run (runs_tailText h hs).many]
    rfl

/-- A list in parentheses, which may be empty. -/
theorem reads_optList (h : List.Forall₂ (fun t a => Opens t ∧ Reads Ends r t (· = a)) ts as)
    (hr : ∀ s, r (')' :: s) = none) :
    Reads (fun s => s.head? = some ')') (optList (commaList r)) ([',', ' '].intercalate ts)
      (· = as) := by
  intro s hs
  obtain ⟨s, rfl⟩ : ∃ s', s = ')' :: s' := by
    cases s with
    | nil => cases hs
    | cons c s => cases hs; exact ⟨s, rfl⟩
  have hskip : skipLayout false (')' :: s) = ')' :: s := skipLayout_of_opens (.cons (by decide) s)
  refine ⟨as, ?_, rfl⟩
  cases h with
  | nil =>
    have hnone : commaList r (')' :: s) = none := bind_of_none (hr s) _
    show optList (commaList r) (')' :: s) = _
    rw [hskip, optList, bind_run (a := none) (u := ')' :: s)]
    · rfl
    · rw [opt, orElse_run, map_run, hnone]
      rfl
  | cons hta h =>
    obtain ⟨_, ha, rfl⟩ := reads_commaList (.cons hta h) (List.cons_ne_nil _ _) (')' :: s)
      ⟨ends_cons rfl s, by rw [hskip, List.head?_cons]; simp⟩
    rw [optList, bind_run (a := some _)]
    · rfl
    · rw [opt, orElse_run, map_run, ha]
      rfl

end Lists

end Listing

namespace Program

open Listing Reader

variable {p : Program} {f : FuncId} {i : InstId} {v : Value} {b : BlockId}

/-! ## Values -/

/-- What stands for the value in the text is a word, if it is a name. -/
def Named (p : Program) : Value → Prop
  | .literal _ => True
  | .param a => IsName a.name
  | .global g => IsName g.name
  | .inst i => ∃ n, (p.inst i).name = some n ∧ IsName n

theorem opens_ref (h : p.Named v) : Opens (p.ref v).toList := by
  cases v with
  | literal l =>
    obtain ⟨c, t, heq, hc⟩ := head_integer l.value []
    rw [List.append_nil] at heq
    refine ⟨c, t, heq, isSolid_of_isNameChar ?_⟩
    rcases hc with rfl | hc
    · rfl
    · exact isNameChar_of_isDigit c hc
  | param a | global g => exact ⟨_, _, String.toList_append, by decide⟩
  | inst i =>
    obtain ⟨n, hn, -⟩ := h
    rw [ref, hn]
    exact ⟨_, _, String.toList_append, by decide⟩

theorem reads_ref (h : p.Named v) :
    Reads Ends operand (p.ref v).toList (· = p.operandOf v) := by
  cases v with
  | literal l => exact reads_operand_integer l.value
  | param a =>
    rw [ref, String.toList_append]
    exact reads_operand_named h
  | global g =>
    rw [ref, String.toList_append]
    exact reads_operand_global h
  | inst i =>
    obtain ⟨n, hn, hname⟩ := h
    rw [ref, operandOf, hn, String.toList_append]
    exact reads_operand_named hname

theorem toList_typedRef (p : Program) (v : Value) :
    (p.typedRef v).toList = (p.valueTy v).name.toList ++ ' ' :: (p.ref v).toList := by
  rw [typedRef, String.toList_append, String.toList_append, List.append_assoc]
  rfl

theorem opens_typedRef (p : Program) (v : Value) : Opens (p.typedRef v).toList := by
  rw [toList_typedRef]
  exact opens_type _ _

theorem reads_typedRef (h : p.Named v) :
    Reads Ends typedOperand (p.typedRef v).toList (· = p.typedOf v) := by
  rw [toList_typedRef]
  exact reads_typedOperand (opens_ref h) (reads_ref h)

/-! ## Instructions -/

/-- The line that an operation of a type is written as, its result left out. -/
def bareLine (p : Program) (ty : Ty) (op : Op) : Line := { form := p.formOf ty op, ty, left := 0 }

theorem reads_alloca (cell : Ty) : Reads Closes allocaInst (p.opText .ptr (.alloca cell)).toList
    fun l => l.bare = p.bareLine .ptr (.alloca cell) := by
  have heq : (p.opText .ptr (.alloca cell)).toList =
      "alloca".toList ++ ' ' :: (cell.name.toList ++ []) := by
    rw [opText, String.toList_append, List.append_nil]
    rfl
  rw [heq, allocaInst]
  refine .left fun n => (reads_token "alloca").space (fun _ => trivial) (opens_type _ _) fun _ _ => ?_
  rw [List.append_nil]
  exact ((reads_typeToken cell).mono (fun _ h => h.1) fun _ h => h).map _ (by rintro _ rfl; rfl)

theorem reads_load {ty : Ty} (hv : p.Named v) :
    Reads Closes loadInst (p.opText ty (.load v)).toList
      fun l => l.bare = p.bareLine ty (.load v) := by
  have heq : (p.opText ty (.load v)).toList =
      "load".toList ++ ' ' :: (ty.name.toList ++ (",".toList ++ ' ' :: (p.typedRef v).toList)) := by
    simp [opText]
  rw [heq, loadInst]
  refine .left fun n => (reads_token "load").space (fun _ => trivial) (opens_type _ _) fun _ _ => ?_
  refine (reads_typeToken ty).next (fun s => ends_cons rfl _) (.cons (by decide) _) ?_
  rintro _ rfl
  refine (reads_token ",").space (fun _ => trivial) (opens_typedRef p v) fun _ _ => ?_
  exact ((reads_typedRef hv).mono (fun _ h => h.1) fun _ h => h).map _ (by rintro _ rfl; rfl)

theorem reads_store {ty : Ty} {cell : Value} (hv : p.Named v) (hc : p.Named cell)
    (hty : ty = .void) : Reads Closes storeInst (p.opText ty (.store v cell)).toList
      fun l => l.bare = p.bareLine ty (.store v cell) := by
  subst hty
  have heq : (p.opText .void (.store v cell)).toList = "store".toList ++ ' ' ::
      ((p.typedRef v).toList ++ (",".toList ++ ' ' :: (p.typedRef cell).toList)) := by
    simp [opText]
  rw [heq, storeInst]
  refine .left fun n => (reads_token "store").space (fun _ => trivial)
    ((opens_typedRef p v).append _) fun _ _ => ?_
  refine (reads_typedRef hv).next (fun s => ends_cons rfl _) (.cons (by decide) _) ?_
  rintro _ rfl
  refine (reads_token ",").space (fun _ => trivial) (opens_typedRef p cell) fun _ _ => ?_
  exact ((reads_typedRef hc).mono (fun _ h => h.1) fun _ h => h).map _ (by rintro _ rfl; rfl)

theorem reads_select {ty : Ty} {c t e : Value} (hc : p.Named c) (ht : p.Named t)
    (he : p.Named e) (hty : p.valueTy t = ty) :
    Reads Closes selectInst (p.opText ty (.select c t e)).toList
      fun l => l.bare = p.bareLine ty (.select c t e) := by
  subst hty
  have heq : (p.opText (p.valueTy t) (.select c t e)).toList = "select".toList ++ ' ' ::
      ((p.typedRef c).toList ++ (",".toList ++ ' ' :: ((p.typedRef t).toList ++
        (",".toList ++ ' ' :: (p.typedRef e).toList)))) := by
    simp [opText]
  rw [heq, selectInst]
  refine .left fun n => (reads_token "select").space (fun _ => trivial)
    ((opens_typedRef p c).append _) fun _ _ => ?_
  refine (reads_typedRef hc).next (fun s => ends_cons rfl _) (.cons (by decide) _) ?_
  rintro _ rfl
  refine (reads_token ",").space (fun _ => trivial) ((opens_typedRef p t).append _) fun _ _ => ?_
  refine (reads_typedRef ht).next (fun s => ends_cons rfl _) (.cons (by decide) _) ?_
  rintro _ rfl
  refine (reads_token ",").space (fun _ => trivial) (opens_typedRef p e) fun _ _ => ?_
  exact ((reads_typedRef he).mono (fun _ h => h.1) fun _ h => h).map _ (by rintro _ rfl; rfl)

/-- A value that a phi takes, with the block that it belongs to. -/
theorem toList_incoming (p : Program) (v : Value) (b : BlockId) :
    ("[ " ++ p.ref v ++ ", %" ++ p.label b ++ " ]").toList = "[".toList ++ ' ' ::
      ((p.ref v).toList ++ (",".toList ++ ' ' :: ('%' :: (p.label b).toList ++ ' ' :: "]".toList))) := by
  simp

theorem reads_incoming (hv : p.Named v) (hb : IsName (p.label b)) :
    Reads Ends incoming ("[ " ++ p.ref v ++ ", %" ++ p.label b ++ " ]").toList
      (· = (p.operandOf v, p.label b)) := by
  rw [toList_incoming, incoming]
  refine (reads_token "[").space (fun _ => trivial) ((opens_ref hv).append _) fun _ _ => ?_
  refine (reads_ref hv).next (fun s => ends_cons rfl _) (.cons (by decide) _) ?_
  rintro _ rfl
  refine (reads_token ",").space (fun _ => trivial) (.cons (by decide) _) fun _ _ => ?_
  refine (reads_localToken hb).space (fun s => ends_cons rfl _) (.cons (by decide) _) ?_
  rintro _ rfl
  exact ((reads_token "]").mono (fun _ _ => trivial) fun _ h => h).map _ fun _ _ => rfl

theorem reads_phi {ty : Ty} {xs : List (Value × BlockId)} (hne : xs ≠ [])
    (hxs : ∀ x ∈ xs, p.Named x.1 ∧ IsName (p.label x.2)) :
    Reads Closes phiInst (p.opText ty (.phi xs)).toList
      fun l => l.bare = p.bareLine ty (.phi xs) := by
  have heq : (p.opText ty (.phi xs)).toList = "phi".toList ++ ' ' :: (ty.name.toList ++ ' ' ::
      [',', ' '].intercalate (xs.map fun x =>
        ("[ " ++ p.ref x.1 ++ ", %" ++ p.label x.2 ++ " ]").toList)) := by
    simp [opText, String.toList_intercalate, Function.comp_def]
  have hopens (x : Value × BlockId) :
      Opens ("[ " ++ p.ref x.1 ++ ", %" ++ p.label x.2 ++ " ]").toList := by
    rw [toList_incoming]
    exact .cons (by decide) _
  have hlist : List.Forall₂ (fun t a => Opens t ∧ Reads Ends incoming t (· = a))
      (xs.map fun x => ("[ " ++ p.ref x.1 ++ ", %" ++ p.label x.2 ++ " ]").toList)
      (xs.map fun x => (p.operandOf x.1, p.label x.2)) := by
    rw [List.forall₂_map_left_iff, List.forall₂_map_right_iff, List.forall₂_same]
    exact fun x hx => ⟨hopens x, reads_incoming (hxs x hx).1 (hxs x hx).2⟩
  rw [heq, phiInst]
  refine .left fun n => (reads_token "phi").space (fun _ => trivial) (opens_type _ _) fun _ _ => ?_
  refine (reads_typeToken ty).space (fun s => ends_cons rfl _)
    (opens_intercalate (fun t ht => ?_) (by simpa using hne)) ?_
  · obtain ⟨x, -, rfl⟩ := List.mem_map.1 ht
    exact hopens x
  rintro _ rfl
  refine (reads_commaList hlist (by simpa using hne)).map _ ?_
  rintro _ rfl
  simp [Line.bare, bareLine, formOf, Function.comp_def]

theorem reads_call {ty : Ty} {callee : String} {args : List Value} (hcallee : IsName callee)
    (hargs : ∀ v ∈ args, p.Named v) :
    Reads Closes callInst (p.opText ty (.call callee args)).toList
      fun l => l.bare = p.bareLine ty (.call callee args) := by
  have heq : (p.opText ty (.call callee args)).toList = "call".toList ++ ' ' ::
      (ty.name.toList ++ ' ' :: ('@' :: callee.toList ++ ("(".toList ++
        ([',', ' '].intercalate (args.map fun v => (p.typedRef v).toList) ++ ")".toList)))) := by
    simp [opText, String.toList_intercalate, Function.comp_def]
  have hlist : List.Forall₂ (fun t a => Opens t ∧ Reads Ends typedOperand t (· = a))
      (args.map fun v => (p.typedRef v).toList) (args.map p.typedOf) := by
    rw [List.forall₂_map_left_iff, List.forall₂_map_right_iff, List.forall₂_same]
    exact fun v hv => ⟨opens_typedRef p v, reads_typedRef (hargs v hv)⟩
  have hclose (s : List Char) : typedOperand (')' :: s) = none :=
    bind_of_none (type_eq_none rfl s) _
  rw [heq, callInst]
  refine .left fun n => (reads_token "call").space (fun _ => trivial) (opens_type _ _) fun _ _ => ?_
  refine (reads_typeToken ty).space (fun s => ends_cons rfl _) (.cons (by decide) _) ?_
  rintro _ rfl
  refine (reads_globalToken hcallee).next (fun s => ends_cons rfl _) (.cons (by decide) _) ?_
  rintro _ rfl
  refine (reads_token "(").next (fun _ => trivial) (opens_optList (fun t ht => ?_) _) fun _ _ => ?_
  · obtain ⟨v, -, rfl⟩ := List.mem_map.1 ht
    exact opens_typedRef p v
  refine (reads_optList hlist hclose).next (fun s => rfl) (.cons (by decide) _) ?_
  rintro _ rfl
  exact ((reads_token ")").mono (fun _ _ => trivial) fun _ h => h).map _ fun _ _ => rfl

theorem reads_labelRef (hb : IsName (p.label b)) :
    Reads Ends labelRef ("label %" ++ p.label b).toList (· = p.label b) := by
  have heq : ("label %" ++ p.label b).toList =
      "label".toList ++ ' ' :: ('%' :: (p.label b).toList) := by simp
  rw [heq, labelRef]
  exact (reads_token "label").space (fun _ => trivial) (.cons (by decide) _) fun _ _ =>
    reads_localToken hb

theorem reads_condBranch {c : Value} {d : BlockId} (hc : p.Named c) (hb : IsName (p.label b))
    (hd : IsName (p.label d)) :
    Reads Ends condBranch ((p.typedRef c).toList ++ (",".toList ++ ' ' ::
      (("label %" ++ p.label b).toList ++ (",".toList ++ ' ' :: ("label %" ++ p.label d).toList))))
      (· = .br (some (p.typedOf c)) [p.label b, p.label d]) := by
  rw [condBranch]
  refine (reads_typedRef hc).next (fun s => ends_cons rfl _) (.cons (by decide) _) ?_
  rintro _ rfl
  have hopens (b : BlockId) : Opens ("label %" ++ p.label b).toList :=
    ⟨_, _, String.toList_append, by decide⟩
  refine (reads_token ",").space (fun _ => trivial) ((hopens b).append _) fun _ _ => ?_
  refine (reads_labelRef hb).next (fun s => ends_cons rfl _) (.cons (by decide) _) ?_
  rintro _ rfl
  refine (reads_token ",").space (fun _ => trivial) (hopens d) fun _ _ => ?_
  exact (reads_labelRef hd).map _ (by rintro _ rfl; rfl)

theorem reads_br {ty : Ty} {c : Option Value} {targets : List BlockId} (hc : ∀ v ∈ c, p.Named v)
    (ht : ∀ b ∈ targets, IsName (p.label b)) (hfits : (Form.br c targets).Fits ty) :
    Reads Closes brInst (p.opText ty (.br c targets)).toList
      fun l => l.bare = p.bareLine ty (.br c targets) := by
  cases c with
  | none =>
    obtain ⟨rfl, hlen⟩ := hfits
    obtain ⟨b, rfl⟩ := List.length_eq_one_iff.1 hlen
    have hb := ht b (by simp)
    have heq : (p.opText .void (.br none [b])).toList =
        "br".toList ++ ' ' :: ("label %" ++ p.label b).toList := by
      simp [opText]
    rw [heq, brInst]
    refine .left fun n => (reads_token "br").space (fun _ => trivial)
      ⟨_, _, String.toList_append, by decide⟩ fun _ _ => ?_
    have htype (s : List Char) : type (("label %" ++ p.label b).toList ++ s) = none := by
      rw [String.toList_append, type]
      rfl
    have hcond (s : List Char) : condBranch (("label %" ++ p.label b).toList ++ s) = none :=
      bind_of_none (bind_of_none (htype s) _) _
    have hlabel : Reads Closes
        ((fun l => (.br none [l] : Form Typed String)) <$> labelRef)
        ("label %" ++ p.label b).toList (· = .br none [p.label b]) := by
      rw [map_eq_pure_bind]
      exact ((reads_labelRef hb).mono (fun _ h => h.1) fun _ h => h).map _ (by rintro _ rfl; rfl)
    exact (hlabel.orRight hcond).map _ (by rintro _ rfl; rfl)
  | some c =>
    obtain ⟨rfl, hlen⟩ := hfits
    obtain ⟨b, d, rfl⟩ := List.length_eq_two.1 hlen
    have heq : (p.opText .void (.br (some c) [b, d])).toList = "br".toList ++ ' ' ::
        ((p.typedRef c).toList ++ (",".toList ++ ' ' :: (("label %" ++ p.label b).toList ++
          (",".toList ++ ' ' :: ("label %" ++ p.label d).toList)))) := by
      simp [opText]
    rw [heq, brInst]
    refine .left fun n => (reads_token "br").space (fun _ => trivial)
      ((opens_typedRef p c).append _) fun _ _ => ?_
    have hcond := reads_condBranch (hc c rfl) (ht b (by simp)) (ht d (by simp))
    exact (hcond.orLeft.mono (fun _ h => h.1) fun _ h => h).map _ (by rintro _ rfl; rfl)

theorem reads_ret {ty : Ty} {value : Option Value}
    (hv : ∀ v ∈ value, p.Named v ∧ p.valueTy v ≠ .void) (hty : ty = .void) :
    Reads Closes retInst (p.opText ty (.ret value)).toList
      fun l => l.bare = p.bareLine ty (.ret value) := by
  subst hty
  rw [retInst]
  cases value with
  | none =>
    have heq : (p.opText .void (.ret none)).toList = "ret".toList ++ ' ' :: "void".toList := by
      simp [opText]
    rw [heq]
    refine .left fun n => (reads_token "ret").space (fun _ => trivial) ⟨'v', _, rfl, by decide⟩
      fun _ _ => ?_
    have hvoid : Reads Closes ((fun _ => none) <$> retVoid : Reader (Option Typed)) "void".toList
        (· = none) := by
      rw [map_eq_pure_bind]
      exact ((reads_token "void").mono (fun _ _ => trivial) fun _ h => h).map _ fun _ _ => rfl
    exact hvoid.orLeft.map _ (by rintro _ rfl; rfl)
  | some v =>
    obtain ⟨hv, hne⟩ := hv v rfl
    have heq : (p.opText .void (.ret (some v))).toList =
        "ret".toList ++ ' ' :: (p.typedRef v).toList := by
      simp [opText]
    rw [heq]
    refine .left fun n => (reads_token "ret").space (fun _ => trivial) (opens_typedRef p v)
      fun _ _ => ?_
    have hvoid (s : List Char) : ((fun _ => none) <$> retVoid : Reader (Option Typed))
        ((p.typedRef v).toList ++ s) = none := by
      rw [toList_typedRef, map_run, retVoid, token_eq_none (c := 'v') rfl, Option.map_none]
      cases hty : p.valueTy v with
      | void => exact absurd hty hne
      | _ => simp [Ty.name]
    have htyped : Reads Closes (some <$> typedOperand) (p.typedRef v).toList
        (· = some (p.typedOf v)) := by
      rw [map_eq_pure_bind]
      exact ((reads_typedRef hv).mono (fun _ h => h.1) fun _ h => h).map _ (by rintro _ rfl; rfl)
    exact (htyped.orRight hvoid).map _ (by rintro _ rfl; rfl)

theorem reads_unreachable {ty : Ty} (hty : ty = .void) :
    Reads Closes unreachableInst (p.opText ty .unreachable).toList
      fun l => l.bare = p.bareLine ty .unreachable := by
  subst hty
  exact .left fun n => ((reads_token "unreachable").mono (fun _ _ => trivial) fun _ h => h).map _
    fun _ _ => rfl

theorem opens_opText (p : Program) (ty : Ty) (op : Op) : Opens (p.opText ty op).toList := by
  have hsolid : op.mnemonic.toList.head?.any (fun c => IsSolid c) = true := by
    cases op <;> simp [Form.mnemonic] <;> decide
  rw [← head_opText p ty op [], List.append_nil] at hsolid
  cases h : (p.opText ty op).toList with
  | nil => rw [h] at hsolid; cases hsolid
  | cons c t =>
    rw [h] at hsolid
    exact .cons (of_decide_eq_true hsolid) t

/-- An operation of that type is written so that it can be read. -/
structure Writable (p : Program) (ty : Ty) (op : Op) : Prop where
  fits : op.Fits ty
  callee : ∀ callee ∈ op.callee?, IsName callee
  operands : ∀ v ∈ op.operands, p.Named v
  blocks : ∀ b ∈ op.blocks, IsName (p.label b)
  select : ∀ c t e, op = .select c t e → p.valueTy t = ty
  ret : ∀ v, op = .ret (some v) → p.valueTy v ≠ .void

variable {ty : Ty} {op : Op}

/-- A rule whose first word starts with another character is passed over. -/
theorem skip {w : String} {k : Nat → Unit → Reader Line} {r : Reader Line} {P : Line → Prop}
    (c : Char) (hw : w.toList.head? = some c) (hne : op.mnemonic.toList.head? ≠ some c)
    (h : Reads Closes r (p.opText ty op).toList P) :
    Reads Closes ((left >>= fun n => token w >>= k n) <|> r) (p.opText ty op).toList P := by
  refine h.orRight fun s => ?_
  rw [bind_run (r := left) rfl, bind_of_none (token_eq_none hw (head_opText p ty op s ▸ hne))]

theorem Writable.reads_valueInst (h : p.Writable ty op) (hty : ty ≠ .void) :
    Reads Closes valueInst (p.opText ty op).toList fun l => l.bare = p.bareLine ty op := by
  unfold valueInst
  cases op with
  | alloca cell =>
    cases h.fits
    exact (reads_alloca cell).orLeft
  | load v =>
    refine skip 'a' rfl (by simp [Form.mnemonic]) ?_
    exact (reads_load (h.operands v (by simp [Form.operands]))).orLeft
  | phi incoming =>
    refine skip 'a' rfl (by simp [Form.mnemonic]) (skip 'l' rfl (by simp [Form.mnemonic]) ?_)
    exact (reads_phi h.fits.2 fun x hx =>
      ⟨h.operands _ (List.mem_map_of_mem hx), h.blocks _ (List.mem_map_of_mem hx)⟩).orLeft
  | select c t e =>
    refine skip 'a' rfl (by simp [Form.mnemonic]) (skip 'l' rfl (by simp [Form.mnemonic]) ?_)
    refine skip 'p' rfl (by simp [Form.mnemonic]) ?_
    exact (reads_select (h.operands c (by simp [Form.operands]))
      (h.operands t (by simp [Form.operands])) (h.operands e (by simp [Form.operands]))
      (h.select c t e rfl)).orLeft
  | call callee args =>
    refine skip 'a' rfl (by simp [Form.mnemonic]) (skip 'l' rfl (by simp [Form.mnemonic]) ?_)
    refine skip 'p' rfl (by simp [Form.mnemonic]) (skip 's' rfl (by simp [Form.mnemonic]) ?_)
    exact reads_call (h.callee callee rfl) h.operands
  | br c =>
    cases c with
    | none => exact absurd h.fits.1 hty
    | some c => exact absurd h.fits.1 hty
  | store | ret | unreachable => exact absurd h.fits hty

theorem Writable.reads_statement (h : p.Writable ty op) (hty : ty = .void) :
    Reads Closes statement (p.opText ty op).toList fun l => l.bare = p.bareLine ty op := by
  unfold statement
  cases op with
  | store v cell =>
    exact (reads_store (h.operands v (by simp [Form.operands]))
      (h.operands cell (by simp [Form.operands])) hty).orLeft
  | call callee args =>
    refine skip 's' rfl (by simp [Form.mnemonic]) ?_
    exact (reads_call (h.callee callee rfl) h.operands).orLeft
  | br c targets =>
    refine skip 's' rfl (by simp [Form.mnemonic]) (skip 'c' rfl (by simp [Form.mnemonic]) ?_)
    exact (reads_br (fun v hv => h.operands v (Option.mem_toList.2 hv)) h.blocks h.fits).orLeft
  | ret value =>
    refine skip 's' rfl (by simp [Form.mnemonic]) (skip 'c' rfl (by simp [Form.mnemonic]) ?_)
    refine skip 'b' rfl (by simp [Form.mnemonic]) (reads_ret (fun v hv => ?_) hty).orLeft
    exact ⟨h.operands v (Option.mem_toList.2 hv), h.ret v (congrArg _ hv)⟩
  | unreachable =>
    refine skip 's' rfl (by simp [Form.mnemonic]) (skip 'c' rfl (by simp [Form.mnemonic]) ?_)
    refine skip 'b' rfl (by simp [Form.mnemonic]) (skip 'r' rfl (by simp [Form.mnemonic]) ?_)
    exact reads_unreachable hty
  | alloca => cases h.fits.symm.trans hty
  | load | select => exact absurd hty h.fits
  | phi => exact absurd hty h.fits.1

/-- An instruction with a result is written as an assignment, one without as a statement. -/
theorem Writable.reads_instruction (h : p.Writable (p.inst i).ty (p.inst i).op)
    (hnamed : (p.inst i).name.isSome = (p.inst i).hasResult)
    (hname : ∀ n ∈ (p.inst i).name, IsName n) :
    Reads Closes instruction (p.instText i).toList fun l => l.bare = p.lineOf i := by
  rw [instruction]
  cases hn : (p.inst i).name with
  | none =>
    rw [hn] at hnamed
    have hty : (p.inst i).ty = .void := by simpa [Inst.hasResult] using hnamed.symm
    have heq : p.instText i = p.opText (p.inst i).ty (p.inst i).op := by
      simp [instText, ← hnamed]
    rw [heq]
    refine ((h.reads_statement hty).mono (fun _ h => h) fun l hl => ?_).orRight fun s => ?_
    · rw [hl, bareLine, lineOf, hn]
    · refine bind_of_none (bind_of_none (localName_eq_none ?_) _) _
      rw [head_opText]
      cases (p.inst i).op <;> simp [Form.mnemonic]
  | some n =>
    rw [hn] at hnamed
    have hty : (p.inst i).ty ≠ .void := by simpa [Inst.hasResult] using hnamed.symm
    have heq : (p.instText i).toList = '%' :: n.toList ++ ' ' :: ("=".toList ++ ' ' ::
        (p.opText (p.inst i).ty (p.inst i).op).toList) := by
      simp [instText, ← hnamed, ref, hn]
    rw [heq]
    refine Reads.orLeft ?_
    rw [assignment]
    refine (reads_localToken (hname n hn)).space (fun s => ends_cons rfl _)
      (.cons (by decide) _) ?_
    rintro m rfl
    refine (reads_token "=").space (fun _ => trivial) (opens_opText ..) fun _ _ => ?_
    refine (h.reads_valueInst hty).map (fun l => { l with result := some m }) fun l hl => ?_
    rw [lineOf, hn]
    exact congrArg (fun l => { l with result := some m }) hl

end Program

end BoxFlow
