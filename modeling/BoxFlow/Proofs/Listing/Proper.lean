import BoxFlow.Proofs.Listing.Labels
import BoxFlow.Proofs.Listing.Listable

/-!
# What the reader gives

Every listing that is read is proper: its names are names, its operations have what they take, and
no label but the first of a function is taken for an instruction (`ofText_proper`). A rule is seen to
give what it should from the rules that it is made of (`Gives`).
-/

namespace BoxFlow.Listing

open Reader

/-! ## Proper listings -/

/-- The digits of an integer are digits. -/
def Operand.Proper : Operand → Prop
  | .integer _ digits => ∀ d ∈ digits, d.isDigit = true
  | _ => True

/-- An operation of that type whose names are names. -/
structure Formed (ty : Ty) (form : Form Typed String) : Prop where
  callee : ∀ callee ∈ form.callee?, IsName callee
  operands : ∀ t ∈ form.operands, t.operand.Proper
  phi : form.isPhi = true → ∀ t ∈ form.operands, t.ty = ty

structure Line.Proper (l : Line) : Prop where
  result : ∀ n ∈ l.result, IsName n
  formed : Formed l.ty l.form
  fits : l.result = none ∨ l.ty ≠ .void → l.form.Fits l.ty

structure Block.Proper (b : Block) : Prop where
  label : IsName b.label
  lines : ∀ l ∈ b.lines, l.Proper

structure Function.Proper (fn : Function) : Prop where
  name : IsName fn.name
  params : ∀ x ∈ fn.params, IsName x.2
  blocks : ∀ b ∈ fn.blocks, b.Proper
  later : ∀ b ∈ fn.blocks.tail, instruction (b.label.toList ++ [':']) = none

def Item.Proper : Item → Prop
  | .global name _ | .declaration name _ _ => IsName name
  | .function fn => fn.Proper

/-! ## What rules give -/

/-- Whenever `r` succeeds it has taken at least `n` characters, and gives something with `P`. -/
def Gives {α : Type} (n : Nat) (r : Reader α) (P : α → Prop) : Prop :=
  ∀ s a t, r s = some (a, t) → t.length + n ≤ s.length ∧ P a

namespace Gives

variable {α β : Type} {m n : Nat} {r r' : Reader α} {k : α → Reader β} {P P' : α → Prop}
  {Q : β → Prop}

theorem takes (h : Gives 1 r P) : Takes r := fun hs => (h _ _ _ hs).1

theorem mono (h : Gives n r P) (hP : ∀ a, P a → P' a) : Gives n r P' :=
  fun s a t hs => (h s a t hs).imp_right (hP a)

/-- What comes next may take the characters. -/
theorem bind (h : Gives m r P) (hk : ∀ a, P a → Gives n (k a) Q) : Gives n (r >>= k) Q := by
  intro s b u hs
  obtain ⟨a, t, hr, hkt⟩ := bind_eq_some.1 hs
  obtain ⟨hle, ha⟩ := h s a t hr
  obtain ⟨hle', hb⟩ := hk a ha t b u hkt
  exact ⟨by omega, hb⟩

/-- The characters are taken already. -/
theorem take (h : Gives m r P) (hk : ∀ a, P a → Gives 0 (k a) Q) : Gives m (r >>= k) Q := by
  intro s b u hs
  obtain ⟨a, t, hr, hkt⟩ := bind_eq_some.1 hs
  obtain ⟨hle, ha⟩ := h s a t hr
  obtain ⟨hle', hb⟩ := hk a ha t b u hkt
  exact ⟨by omega, hb⟩

theorem pure {a : α} (h : P a) : Gives 0 (pure a : Reader α) P := by
  intro s b t hs
  cases hs
  exact ⟨Nat.le_refl _, h⟩

theorem map {f : α → β} (h : Gives n r P) (hf : ∀ a, P a → Q (f a)) : Gives n (f <$> r) Q := by
  rw [map_eq_pure_bind]
  exact h.take fun a ha => .pure (hf a ha)

theorem or (h : Gives n r P) (h' : Gives n r' P) : Gives n (r <|> r') P := by
  intro s a t hs
  rw [orElse_run, Option.or_eq_some_iff] at hs
  rcases hs with hs | ⟨-, hs⟩
  · exact h s a t hs
  · exact h' s a t hs

theorem many (h : Gives n r P) : Gives 0 (many r) fun as => ∀ a ∈ as, P a := by
  have hrepeated (bound : Nat) (s : List Char) : (repeated r bound s).2.length ≤ s.length ∧
      ∀ a ∈ (repeated r bound s).1, P a := by
    induction bound generalizing s with
    | zero => exact ⟨Nat.le_refl _, List.forall_mem_nil P⟩
    | succ bound ih =>
      rw [Reader.repeated]
      cases hr : r s with
      | none => exact ⟨Nat.le_refl _, List.forall_mem_nil P⟩
      | some x =>
        obtain ⟨a, t⟩ := x
        obtain ⟨hle, ha⟩ := h s a t hr
        obtain ⟨hle', has⟩ := ih t
        exact ⟨by dsimp only; omega, List.forall_mem_cons.2 ⟨ha, has⟩⟩
  intro s as t hs
  have h := hrepeated s.length s
  rwa [Option.some.inj hs] at h

theorem many1 (h : Gives n r P) : Gives n (many1 r) fun as => as ≠ [] ∧ ∀ a ∈ as, P a :=
  h.take fun _ ha => h.many.take fun _ has =>
    .pure ⟨List.cons_ne_nil _ _, List.forall_mem_cons.2 ⟨ha, has⟩⟩

theorem opt (h : Gives n r P) : Gives 0 (opt r) fun a => ∀ x ∈ a, P x := by
  intro s a t hs
  rw [Reader.opt, orElse_run, Option.or_eq_some_iff, map_run, Option.map_eq_some_iff] at hs
  rcases hs with ⟨x, hx, heq⟩ | ⟨-, hs⟩
  · cases heq
    obtain ⟨hle, hp⟩ := h _ _ _ hx
    exact ⟨by omega, by rintro _ ⟨⟩; exact hp⟩
  · cases hs
    exact ⟨Nat.le_refl _, nofun⟩

end Gives

/-! ## Tokens -/

theorem gives_left : Gives 0 left fun _ => True := by
  intro s a t hs
  cases hs
  exact ⟨Nat.le_refl _, trivial⟩

theorem gives_layout : Gives 0 layout fun _ => True := by
  intro s a t hs
  cases hs
  exact ⟨length_skipLayout_le false s, trivial⟩

theorem gives_word {w : String} (hw : w.toList ≠ []) : Gives 1 (word w) fun _ => True := by
  intro s a t hs
  rw [word_eq_some.1 hs, List.length_append]
  have := List.length_pos_iff.2 hw
  exact ⟨by omega, trivial⟩

theorem gives_token {w : String} (hw : w.toList ≠ []) : Gives 1 (token w) fun _ => True :=
  (gives_word hw).take fun _ _ => gives_layout

theorem gives_run (p : Char → Bool) :
    Gives 1 (run p) fun cs => cs ≠ [] ∧ ∀ c ∈ cs, p c = true := by
  intro s cs t hs
  obtain ⟨rfl, hne, hall, -⟩ := run_eq_some hs
  rw [List.length_append]
  have := List.length_pos_iff.2 hne
  exact ⟨by omega, hne, hall⟩

theorem gives_type : Gives 0 type fun _ => True := by
  intro s ty t hs
  obtain ⟨ty, -, h⟩ := Option.map_eq_some_iff.1 hs
  cases h
  exact ⟨(List.dropWhile_sublist _).length_le, trivial⟩

theorem gives_typeToken : Gives 0 typeToken fun _ => True :=
  gives_type.take fun _ _ => gives_layout.take fun _ _ => .pure trivial

theorem gives_labelName : Gives 1 labelName IsName := by
  refine (gives_run isNameChar).map fun cs hcs => ?_
  rw [IsName, String.toList_ofList]
  exact hcs

theorem labelName_eq_some {s t : List Char} {n : String} (h : labelName s = some (n, t)) :
    s = n.toList ++ t := by
  rw [labelName, map_run, Option.map_eq_some_iff] at h
  obtain ⟨x, hx, heq⟩ := h
  obtain ⟨rfl, rfl⟩ := Prod.mk.inj heq
  rw [String.toList_ofList]
  exact (run_eq_some hx).1

theorem gives_localName : Gives 1 localName IsName :=
  (gives_word (by decide)).bind fun _ _ => gives_labelName

theorem gives_globalName : Gives 1 globalName IsName :=
  (gives_word (by decide)).bind fun _ _ => gives_labelName

theorem gives_localToken : Gives 1 localToken IsName :=
  gives_localName.take fun _ hn => gives_layout.take fun _ _ => .pure hn

theorem gives_globalToken : Gives 1 globalToken IsName :=
  gives_globalName.take fun _ hn => gives_layout.take fun _ _ => .pure hn

theorem gives_integer : Gives 1 integer Operand.Proper :=
  (gives_word (by decide)).opt.bind fun _ _ => (gives_run Char.isDigit).take fun _ hcs =>
    .pure hcs.2

theorem gives_operand : Gives 1 operand Operand.Proper :=
  ((gives_localName.map fun _ _ => trivial).or
    ((gives_globalName.map fun _ _ => trivial).or gives_integer)).take fun _ hv =>
      gives_layout.take fun _ _ => .pure hv

theorem gives_typedOperand : Gives 1 typedOperand fun t => t.operand.Proper :=
  gives_type.bind fun _ _ => gives_layout.bind fun _ _ => gives_operand.take fun _ hv => .pure hv

theorem gives_commaList {α : Type} {n : Nat} {r : Reader α} {P : α → Prop} (h : Gives n r P) :
    Gives n (commaList r) fun as => as ≠ [] ∧ ∀ a ∈ as, P a :=
  h.take fun _ ha => ((gives_token (by decide)).bind fun _ _ => h).many.take fun _ has =>
    .pure ⟨List.cons_ne_nil _ _, List.forall_mem_cons.2 ⟨ha, has⟩⟩

theorem gives_optList {α : Type} {n : Nat} {r : Reader (List α)} {P : α → Prop}
    (h : Gives n r fun as => ∀ a ∈ as, P a) : Gives 0 (optList r) fun as => ∀ a ∈ as, P a := by
  refine h.opt.take fun as has => .pure ?_
  cases as with
  | none => exact nofun
  | some as => exact has as rfl

/-! ## Instructions -/

/-- The line has no result yet and is proper with one, unless that would be without a type. -/
def Line.Valued (l : Line) : Prop :=
  Formed l.ty l.form ∧ (l.ty ≠ .void → l.form.Fits l.ty)

/-- The line is proper and has no result. -/
def Line.Stated (l : Line) : Prop :=
  l.result = none ∧ Formed l.ty l.form ∧ l.form.Fits l.ty

theorem gives_allocaInst : Gives 1 allocaInst Line.Valued :=
  gives_left.bind fun _ _ => (gives_token (by decide)).take fun _ _ =>
    gives_typeToken.take fun _ _ => .pure ⟨⟨nofun, nofun, nofun⟩, fun _ => rfl⟩

theorem gives_loadInst : Gives 1 loadInst Line.Valued :=
  gives_left.bind fun _ _ => (gives_token (by decide)).take fun _ _ =>
    gives_typeToken.take fun _ _ => (gives_token (by decide)).bind fun _ _ =>
      gives_typedOperand.bind fun _ hv =>
        .pure ⟨⟨nofun, List.forall_mem_singleton.2 hv, nofun⟩, fun hty => hty⟩

theorem gives_storeInst : Gives 1 storeInst Line.Stated :=
  gives_left.bind fun _ _ => (gives_token (by decide)).take fun _ _ =>
    gives_typedOperand.bind fun _ hv => (gives_token (by decide)).bind fun _ _ =>
      gives_typedOperand.bind fun _ hc => .pure ⟨rfl, ⟨nofun,
        List.forall_mem_cons.2 ⟨hv, List.forall_mem_singleton.2 hc⟩, nofun⟩, rfl⟩

theorem gives_incoming : Gives 1 incoming fun x => x.1.Proper :=
  (gives_token (by decide)).take fun _ _ => gives_operand.bind fun _ hv =>
    (gives_token (by decide)).bind fun _ _ => gives_localToken.bind fun _ _ =>
      (gives_token (by decide)).bind fun _ _ => .pure hv

theorem gives_phiInst : Gives 1 phiInst Line.Valued := by
  refine gives_left.bind fun _ _ => (gives_token (by decide)).take fun _ _ =>
    gives_typeToken.take fun ty _ => (gives_commaList gives_incoming).bind fun pairs hpairs =>
      .pure ⟨⟨nofun, ?_, ?_⟩, fun hty => ⟨hty, fun h => hpairs.1 (List.map_eq_nil_iff.1 h)⟩⟩
  · intro t ht
    rw [Form.operands, List.map_map] at ht
    obtain ⟨x, hx, rfl⟩ := List.mem_map.1 ht
    exact hpairs.2 x hx
  · intro _ t ht
    rw [Form.operands, List.map_map] at ht
    obtain ⟨x, -, rfl⟩ := List.mem_map.1 ht
    rfl

theorem gives_selectInst : Gives 1 selectInst Line.Valued :=
  gives_left.bind fun _ _ => (gives_token (by decide)).take fun _ _ =>
    gives_typedOperand.bind fun _ hc => (gives_token (by decide)).bind fun _ _ =>
      gives_typedOperand.bind fun _ ht => (gives_token (by decide)).bind fun _ _ =>
        gives_typedOperand.bind fun _ he => .pure ⟨⟨nofun, List.forall_mem_cons.2 ⟨hc,
          List.forall_mem_cons.2 ⟨ht, List.forall_mem_singleton.2 he⟩⟩, nofun⟩, fun hty => hty⟩

theorem gives_callInst : Gives 1 callInst fun l => l.Valued ∧ l.Stated :=
  gives_left.bind fun _ _ => (gives_token (by decide)).take fun _ _ =>
    gives_typeToken.take fun _ _ => gives_globalToken.bind fun callee hcallee =>
      (gives_token (by decide)).bind fun _ _ =>
        (gives_optList ((gives_commaList gives_typedOperand).mono fun _ h => h.2)).bind
          fun _ hargs => (gives_token (by decide)).bind fun _ _ => by
            have hformed {ty : Ty} {args : List Typed} (h : ∀ t ∈ args, t.operand.Proper) :
                Formed ty (.call callee args) :=
              ⟨by rintro _ ⟨⟩; exact hcallee, h, nofun⟩
            exact .pure ⟨⟨hformed hargs, fun _ => trivial⟩, rfl, hformed hargs, trivial⟩

theorem gives_labelRef : Gives 1 labelRef fun _ => True :=
  (gives_token (by decide)).bind fun _ _ => gives_localToken.mono fun _ _ => trivial

theorem gives_condBranch :
    Gives 1 condBranch fun form => Formed .void form ∧ form.Fits .void :=
  gives_typedOperand.take fun _ hc => (gives_token (by decide)).bind fun _ _ =>
    gives_labelRef.bind fun _ _ => (gives_token (by decide)).bind fun _ _ =>
      gives_labelRef.bind fun _ _ =>
        .pure ⟨⟨nofun, List.forall_mem_singleton.2 hc, nofun⟩, rfl, rfl⟩

theorem gives_brInst : Gives 1 brInst Line.Stated := by
  have hjump : Gives 1 ((fun l => (.br none [l] : Form Typed String)) <$> labelRef)
      fun form => Formed .void form ∧ form.Fits .void :=
    gives_labelRef.map fun _ _ => ⟨⟨nofun, nofun, nofun⟩, rfl, rfl⟩
  exact gives_left.bind fun _ _ => (gives_token (by decide)).take fun _ _ =>
    (gives_condBranch.or hjump).bind fun _ hform => .pure ⟨rfl, hform⟩

theorem gives_retInst : Gives 1 retInst Line.Stated := by
  have hvalue : Gives 1 ((fun _ => none) <$> retVoid <|> some <$> typedOperand)
      fun value => ∀ t ∈ value, t.operand.Proper :=
    ((gives_token (by decide)).map fun _ _ => nofun).or
      (gives_typedOperand.map fun _ hv => by rintro _ ⟨⟩; exact hv)
  refine gives_left.bind fun _ _ => (gives_token (by decide)).take fun _ _ =>
    hvalue.bind fun value hv => .pure ⟨rfl, ⟨nofun, fun t ht => ?_, nofun⟩, rfl⟩
  exact hv t (Option.mem_toList.1 ht)

theorem gives_unreachableInst : Gives 1 unreachableInst Line.Stated :=
  gives_left.bind fun _ _ => (gives_token (by decide)).take fun _ _ =>
    .pure ⟨rfl, ⟨nofun, nofun, nofun⟩, rfl⟩

theorem gives_instruction : Gives 1 instruction Line.Proper := by
  have hvalue : Gives 1 valueInst Line.Valued :=
    gives_allocaInst.or (gives_loadInst.or (gives_phiInst.or (gives_selectInst.or
      (gives_callInst.mono fun _ h => h.1))))
  have hstatement : Gives 1 statement Line.Stated :=
    gives_storeInst.or ((gives_callInst.mono fun _ h => h.2).or (gives_brInst.or
      (gives_retInst.or gives_unreachableInst)))
  have hassignment : Gives 1 assignment Line.Proper :=
    gives_localToken.take fun _ hn => (gives_token (by decide)).bind fun _ _ =>
      hvalue.bind fun _ hl => .pure
        ⟨by rintro _ ⟨⟩; exact hn, hl.1, fun h => hl.2 (h.resolve_left nofun)⟩
  exact hassignment.or (hstatement.mono fun l hl =>
    ⟨by rw [hl.1]; exact nofun, hl.2.1, fun _ => hl.2.2⟩)

/-! ## Items -/

/-- A block starts with its label and a colon, and ends where no instruction is. -/
theorem block_eq_some {s t : List Char} {b : Block} (h : block s = some (b, t)) :
    b.Proper ∧ t.length < s.length ∧ instruction t = none ∧
      ∃ u, s = b.label.toList ++ ':' :: u := by
  obtain ⟨n, _, hleft, h⟩ := bind_eq_some.1 h
  cases hleft
  obtain ⟨label, u, hlabel, h⟩ := bind_eq_some.1 h
  obtain ⟨⟨⟩, v, hcolon, h⟩ := bind_eq_some.1 h
  obtain ⟨lines, t, hlines, h⟩ := bind_eq_some.1 h
  cases h
  obtain ⟨hlen, hname⟩ := gives_labelName _ _ _ hlabel
  obtain ⟨hlen', -⟩ := gives_token (by decide) _ _ _ hcolon
  obtain ⟨hlen'', -, hproper⟩ := gives_instruction.many1 _ _ _ hlines
  obtain ⟨w, hu, -⟩ := token_eq_some.1 hcolon
  refine ⟨⟨hname, hproper⟩, by omega, ?_, w, ?_⟩
  · obtain ⟨l, x, -, h⟩ := bind_eq_some.1 hlines
    obtain ⟨ls, y, hmany, h⟩ := bind_eq_some.1 h
    cases h
    exact (runs_of_many gives_instruction.takes hmany).stops
  · rw [labelName_eq_some hlabel, hu]
    rfl

/-- Blocks from where no instruction is. -/
theorem later_of_runs {s t : List Char} {bs : List Block} (h : Runs block s bs t)
    (hs : instruction s = none) :
    ∀ b ∈ bs, b.Proper ∧ instruction (b.label.toList ++ [':']) = none := by
  have hcolon (u : List Char) : Colon (':' :: u) :=
    ⟨ends_cons rfl u, by rw [skipLayout_of_opens (.cons (by decide) u)]; rfl⟩
  induction h with
  | nil => exact nofun
  | @cons s t u b bs hb _ _ ih =>
    obtain ⟨hproper, -, hnone, v, rfl⟩ := block_eq_some hb
    refine List.forall_mem_cons.2 ⟨⟨hproper, ?_⟩, ih hnone⟩
    exact (instruction_label hproper.label.2 (hcolon v) (hcolon [])).1 hs

theorem gives_blocks : Gives 0 (many1 block) fun bs => (∀ b ∈ bs, b.Proper) ∧
    ∀ b ∈ bs.tail, instruction (b.label.toList ++ [':']) = none := by
  intro s bs u hs
  obtain ⟨b, t, hb, h⟩ := bind_eq_some.1 hs
  obtain ⟨bs, u, hmany, h⟩ := bind_eq_some.1 h
  cases h
  have hblock : Gives 1 block Block.Proper := fun s b t hb =>
    ⟨(block_eq_some hb).2.1, (block_eq_some hb).1⟩
  obtain ⟨hproper, hlen, hnone, -⟩ := block_eq_some hb
  obtain ⟨hlen', -⟩ := hblock.many _ _ _ hmany
  have hlater := later_of_runs (runs_of_many hblock.takes hmany) hnone
  exact ⟨by omega, List.forall_mem_cons.2 ⟨hproper, fun b hb => (hlater b hb).1⟩,
    fun b hb => (hlater b hb).2⟩

theorem gives_toplevel : Gives 1 toplevel Item.Proper := by
  have hglobal : Gives 1 globalDecl Item.Proper :=
    gives_globalToken.take fun _ hn => (gives_token (by decide)).bind fun _ _ =>
      (gives_token (by decide)).bind fun _ _ => gives_typeToken.bind fun _ _ => .pure hn
  have hdeclaration : Gives 1 declareDecl Item.Proper :=
    (gives_token (by decide)).take fun _ _ => gives_typeToken.bind fun _ _ =>
      gives_globalToken.bind fun _ hn => (gives_token (by decide)).bind fun _ _ =>
        (gives_optList ((gives_commaList gives_typeToken).mono fun _ h => h.2)).bind fun _ _ =>
          (gives_token (by decide)).bind fun _ _ => .pure hn
  have hparam : Gives 0 param fun x => IsName x.2 :=
    gives_typeToken.take fun _ _ => gives_localToken.bind fun _ hn => .pure hn
  have hfunction : Gives 1 functionDef Item.Proper :=
    gives_left.bind fun _ _ => (gives_token (by decide)).take fun _ _ =>
      gives_typeToken.bind fun _ _ => gives_globalToken.bind fun _ hn =>
        (gives_token (by decide)).bind fun _ _ =>
          (gives_optList ((gives_commaList hparam).mono fun _ h => h.2)).bind fun _ hparams =>
            (gives_token (by decide)).bind fun _ _ => (gives_token (by decide)).bind fun _ _ =>
              gives_blocks.bind fun _ hblocks => (gives_token (by decide)).bind fun _ _ =>
                .pure ⟨hn, hparams, hblocks.1, hblocks.2⟩
  exact hglobal.or (hdeclaration.or hfunction)

/-- What is read of a text is proper. -/
theorem ofText_proper (s : List Char) : ∀ item ∈ (ofText s).1, item.Proper := by
  have hmodule : Gives 0 module fun items => ∀ item ∈ items, item.Proper :=
    gives_layout.take fun _ _ => gives_toplevel.many
  rw [ofText]
  cases h : module s with
  | none => exact nofun
  | some x => exact (hmodule s x.1 x.2 h).2

end BoxFlow.Listing
