import BoxFlow.Proofs.IR.WellFormed
import BoxFlow.Proofs.Listing.Labels
import BoxFlow.Proofs.Listing.Written

/-!
# The text of a program is its listing

Reading what has been printed of a block, a function and a whole program gives the listing of the
program back (`Program.Listable.ofText_text`).
-/

namespace BoxFlow

namespace Listing

open Reader

variable {s : List Char} {n : String}

theorem opens_name (hn : IsName n) : Opens n.toList := by
  obtain ⟨hne, hchars⟩ := hn
  cases h : n.toList with
  | nil => exact absurd h hne
  | cons c t => exact .cons (isSolid_of_isNameChar (hchars c (h ▸ List.mem_cons_self))) t

theorem reads_labelName (hn : IsName n) :
    Reads (fun s => Opens s ∧ Ends s) labelName n.toList (· = n) := by
  rintro s ⟨hopens, hends⟩
  exact ⟨n, by rw [labelName_append hn hends, skipLayout_of_opens hopens], rfl⟩

/-- Where a brace closes a body, no instruction comes and no label. -/
theorem instruction_brace (s : List Char) : instruction ('}' :: s) = none := rfl

theorem block_brace (s : List Char) : block ('}' :: s) = none := rfl

/-- What comes next after layout is no instruction. -/
def AtLabel (s : List Char) : Prop := Closes s ∧ instruction (skipLayout false s) = none

theorem skipLayout_brace (s : List Char) : skipLayout false ('\n' :: '}' :: s) = '}' :: s := by
  rw [skipLayout_blank rfl, skipLayout_of_opens (.cons (by decide) s)]

theorem atLabel_brace (s : List Char) : AtLabel ('\n' :: '}' :: s) :=
  ⟨⟨ends_cons rfl _, by rw [skipLayout_brace]; simp⟩, by rw [skipLayout_brace, instruction_brace]⟩

end Listing

namespace Program

open Listing Reader

variable {p : Program} {f : FuncId} {i : InstId} {v : Value} {b : BlockId}

/-! ## Instructions that can be written -/

theorem ListableFunc.named (hg : ∀ g ∈ p.globals, g.2.name = g.1 ∧ IsName g.1)
    (hf : p.ListableFunc f) (hv : p.Refers f v) : p.Named v := by
  cases v with
  | literal l => trivial
  | param a =>
    obtain ⟨k, hk, heq⟩ := List.mem_mapIdx.1 hv
    cases heq
    exact hf.params _ (List.getElem_mem hk)
  | global g => exact (hg _ hv).2
  | inst j =>
    obtain ⟨hmem, hty⟩ := hv
    have hnamed := (hf.insts j hmem).named
    rw [Inst.hasResult, decide_eq_true hty] at hnamed
    obtain ⟨n, hn⟩ := Option.isSome_iff_exists.1 hnamed
    exact ⟨n, hn, (hf.insts j hmem).name n hn⟩

theorem ListableFunc.writable (hg : ∀ g ∈ p.globals, g.2.name = g.1 ∧ IsName g.1)
    (hf : p.ListableFunc f) (hi : i ∈ p.instructions f) :
    p.Writable (p.inst i).ty (p.inst i).op := by
  have h := hf.insts i hi
  exact ⟨h.fits, h.callee, fun v hv => hf.named hg (h.operands v hv),
    h.labels, h.select, h.ret⟩

/-! ## Blocks -/

/-- What stands before an instruction. -/
def indent : List Char := ['\n', ' ', ' ']

theorem isBlank_indent : ∀ c ∈ indent, Text.isBlank c = true := List.all_eq_true.1 rfl

theorem isBlank_newline : ∀ c ∈ ['\n'], Text.isBlank c = true := List.all_eq_true.1 rfl

/-- An instruction on a line of its own. -/
def instChunk (p : Program) (i : InstId) : List Char × List Char :=
  (indent, (p.instText i).toList)

/-- The text of a block. -/
def blockChars (p : Program) (b : BlockId) : List Char :=
  (p.label b).toList ++ (":".toList ++ chunks ((p.block b).insts.map p.instChunk))

def blockChunk (p : Program) (b : BlockId) : List Char × List Char := (['\n'], p.blockChars b)

/-- An instruction starts with a solid character that is no comma. -/
theorem begins_instText (p : Program) (i : InstId) :
    Opens (p.instText i).toList ∧ (p.instText i).toList.head? ≠ some ',' := by
  rw [instText]
  split
  · have href : ∃ u, (p.ref (.inst i)).toList = '%' :: u := by
      rw [ref]
      split
      · exact ⟨_, String.toList_append⟩
      · exact ⟨_, rfl⟩
    obtain ⟨u, hu⟩ := href
    rw [String.toList_append, String.toList_append, hu]
    exact ⟨.cons (by decide) _, by simp⟩
  · rw [String.empty_append]
    refine ⟨opens_opText .., ?_⟩
    rw [← List.append_nil (String.toList _), head_opText]
    cases (p.inst i).op <;> simp [Form.mnemonic]

theorem ListableFunc.reads_inst (hg : ∀ g ∈ p.globals, g.2.name = g.1 ∧ IsName g.1)
    (hf : p.ListableFunc f) (hi : i ∈ p.instructions f) :
    Reads Closes instruction (p.instText i).toList (·.bare = p.lineOf i) :=
  (hf.writable hg hi).reads_instruction (hf.insts i hi).named (hf.insts i hi).name

theorem closes_instChunk (p : Program) (i : InstId) (s : List Char) :
    Closes ((p.instChunk i).1 ++ ((p.instChunk i).2 ++ s)) :=
  closes_gap isBlank_indent (List.cons_ne_nil _ _) (begins_instText p i).1 (begins_instText p i).2 s

theorem ListableFunc.reads_block (hg : ∀ g ∈ p.globals, g.2.name = g.1 ∧ IsName g.1)
    (hf : p.ListableFunc f) (hb : b ∈ (p.func f).blocks) :
    Reads AtLabel Listing.block (p.blockChars b) (·.bare = p.blockOf b) := by
  have hlabel := hf.labels b hb
  have hmem {i : InstId} (hi : i ∈ (p.block b).insts) : i ∈ p.instructions f :=
    List.mem_flatMap.2 ⟨b, hb, hi⟩
  obtain ⟨i, is, his⟩ : ∃ i is, (p.block b).insts = i :: is := by
    have hterm := (verify_eq_nil_iff.1 hf.verified).terminated b hb
    cases his : (p.block b).insts with
    | nil => simp [terminator?, his] at hterm
    | cons i is => exact ⟨i, is, rfl⟩
  have hchunks : List.Forall₂ (ReadsChunk Closes instruction Line.bare) (is.map p.instChunk)
      (is.map p.lineOf) := by
    rw [List.forall₂_map_left_iff, List.forall₂_map_right_iff, List.forall₂_same]
    exact fun j hj => ⟨isBlank_indent, (begins_instText p j).1,
      hf.reads_inst hg (hmem (his ▸ List.mem_cons_of_mem _ hj))⟩
  have hinsts : Reads AtLabel (many1 instruction)
      ((p.instText i).toList ++ chunks (is.map p.instChunk))
      (·.map Line.bare = (i :: is).map p.lineOf) := by
    refine reads_many1 (hf.reads_inst hg (hmem (his ▸ List.mem_cons_self))) hchunks ?_ fun _ h => h
    intro c hc s
    obtain ⟨j, -, rfl⟩ := List.mem_map.1 hc
    exact closes_instChunk p j s
  have heq : p.blockChars b = (p.label b).toList ++ (":".toList ++ (indent ++
      ((p.instText i).toList ++ chunks (is.map p.instChunk)))) := by
    rw [blockChars, his]
    simp [chunks, instChunk]
  rw [heq, Listing.block]
  refine .left fun n => (reads_labelName hlabel).next (fun s => ?_) (.cons (by decide) _) ?_
  · exact ⟨.cons (by decide) _, ends_cons rfl _⟩
  rintro _ rfl
  refine (reads_token ":").gap isBlank_indent (fun _ => trivial) ((begins_instText p i).1.append _)
    fun _ _ => ?_
  refine hinsts.map _ fun ls hls => ?_
  rw [Block.bare, blockOf, his, hls]

/-- A later block is read where the one before it ends. -/
theorem ListableFunc.atLabel (hf : p.ListableFunc f) (hb : b ∈ (p.func f).blocks.tail)
    (s : List Char) : AtLabel ((p.blockChunk b).1 ++ ((p.blockChunk b).2 ++ s)) := by
  have hname := hf.labels b (List.mem_of_mem_tail hb)
  have hopens := opens_name hname
  have hcolon (s : List Char) : Colon (':' :: s) := ⟨ends_cons rfl s, rfl⟩
  have heq (s : List Char) : p.blockChars b ++ s = (p.label b).toList ++
      (':' :: (chunks ((p.block b).insts.map p.instChunk) ++ s)) := by
    simp [blockChars]
  have hcomma : (p.blockChars b).head? ≠ some ',' := by
    rw [blockChars, List.head?_append]
    cases h : (p.label b).toList with
    | nil => exact absurd h hname.1
    | cons c t =>
      rintro ⟨⟩
      exact Bool.false_ne_true (hname.2 ',' (h ▸ List.mem_cons_self))
  constructor
  · exact closes_gap isBlank_newline (List.cons_ne_nil _ _) (hopens.append _) hcomma s
  · show instruction (skipLayout false (['\n'] ++ (p.blockChars b ++ s))) = none
    rw [skipLayout_blanks isBlank_newline, heq, skipLayout_of_opens (hopens.append _),
      instruction_label hname.2 (hcolon _) (hcolon [])]
    exact hf.later b hb

/-! ## Functions -/

theorem reads_param {x : Ty × String} (hx : IsName x.2) :
    Reads Ends param (x.1.name.toList ++ ' ' :: ('%' :: x.2.toList)) (· = x) := by
  rw [param]
  refine (reads_typeToken x.1).space (fun s => ends_cons rfl _) (.cons (by decide) _) ?_
  rintro _ rfl
  exact (reads_localToken hx).map _ (by rintro _ rfl; rfl)

theorem map_typedRef_params (p : Program) (f : FuncId) : (p.params f).map p.typedRef =
    (p.func f).params.map fun x => x.1.name ++ " " ++ ("%" ++ x.2) := by
  refine List.ext_getElem (by simp [params]) fun k h _ => ?_
  simp [params, typedRef, valueTy, ref]

/-- A function up to its first block. -/
def headText (p : Program) (f : FuncId) : String :=
  "define " ++ (p.func f).result.name ++ " @" ++ (p.func f).name ++ "(" ++
    ", ".intercalate ((p.params f).map p.typedRef) ++ ") \x7b"

theorem toList_headText (p : Program) (f : FuncId) : (p.headText f).toList =
    "define".toList ++ ' ' :: ((p.func f).result.name.toList ++ ' ' ::
      ('@' :: (p.func f).name.toList ++ ("(".toList ++ ([',', ' '].intercalate
        ((p.func f).params.map fun x => x.1.name.toList ++ ' ' :: ('%' :: x.2.toList)) ++
          (")".toList ++ ' ' :: "\x7b".toList))))) := by
  have hparams : (", ".intercalate ((p.params f).map p.typedRef)).toList =
      [',', ' '].intercalate ((p.func f).params.map fun x =>
        x.1.name.toList ++ ' ' :: ('%' :: x.2.toList)) := by
    rw [map_typedRef_params, String.toList_intercalate, List.map_map]
    simp [Function.comp_def]
  simp only [headText, String.toList_append, hparams, List.append_assoc]
  rfl

theorem toList_funcText (p : Program) (f : FuncId) : (p.funcText f).toList =
    (p.headText f).toList ++ (chunks ((p.func f).blocks.map p.blockChunk) ++ ['\n', '}']) := by
  have hblock (b : BlockId) : ((p.blockLines b).map String.toList).flatMap (['\n'] ++ ·) =
      (p.blockChunk b).1 ++ (p.blockChunk b).2 := by
    simp [blockLines, blockChunk, blockChars, chunks, instChunk, indent, List.flatMap_map]
  have hblocks (bs : List BlockId) :
      ((bs.flatMap p.blockLines ++ ["\x7d"]).map String.toList).flatMap (['\n'] ++ ·) =
        chunks (bs.map p.blockChunk) ++ ['\n', '}'] := by
    induction bs with
    | nil => rfl
    | cons b bs ih =>
      rw [List.flatMap_cons, List.append_assoc, List.map_append, List.flatMap_append, hblock, ih,
        List.map_cons, chunks_cons, List.append_assoc, List.append_assoc, List.append_assoc]
  rw [funcText, String.toList_intercalate, List.cons_append, List.map_cons,
    show "\n".toList = ['\n'] from rfl, intercalate_cons, hblocks, headText]

/-- The blocks of a function, from the first one to the brace. -/
theorem Listable.reads_blocks (h : p.Listable) (hf : f ∈ p.moduleFuncs) {b : BlockId}
    {bs : List BlockId} (hbs : (p.func f).blocks = b :: bs) :
    Reads (fun s => ∃ s', s = '\n' :: '}' :: s') (many1 Listing.block)
      (p.blockChars b ++ chunks (bs.map p.blockChunk))
      (·.map Block.bare = (b :: bs).map p.blockOf) := by
  have hfunc := h.funcs f hf
  have hchunks : List.Forall₂ (ReadsChunk AtLabel Listing.block Block.bare) (bs.map p.blockChunk)
      (bs.map p.blockOf) := by
    rw [List.forall₂_map_left_iff, List.forall₂_map_right_iff, List.forall₂_same]
    intro d hd
    have hmem : d ∈ (p.func f).blocks := hbs ▸ List.mem_cons_of_mem _ hd
    exact ⟨isBlank_newline, (opens_name (hfunc.labels d hmem)).append _,
      hfunc.reads_block h.globals hmem⟩
  refine reads_many1 (hfunc.reads_block h.globals (hbs ▸ List.mem_cons_self)) hchunks ?_ ?_
  · intro c hc s
    obtain ⟨d, hd, rfl⟩ := List.mem_map.1 hc
    exact hfunc.atLabel (by rw [hbs]; exact hd) s
  · rintro _ ⟨s, rfl⟩
    exact ⟨atLabel_brace s, by rw [skipLayout_brace, block_brace]⟩

/-- The parameters of a function, up to the closing parenthesis. -/
theorem Listable.reads_params (h : p.Listable) (hf : f ∈ p.moduleFuncs) :
    List.Forall₂ (fun t a => Opens t ∧ Reads Ends param t (· = a))
      ((p.func f).params.map fun x => x.1.name.toList ++ ' ' :: ('%' :: x.2.toList))
      (p.func f).params := by
  rw [List.forall₂_map_left_iff, List.forall₂_same]
  exact fun x hx => ⟨opens_type _ _, reads_param ((h.funcs f hf).params x hx)⟩

theorem Listable.reads_function (h : p.Listable) (hf : f ∈ p.moduleFuncs) :
    Reads Any functionDef (p.funcText f).toList (·.bare = .function (p.functionOf f)) := by
  have hfunc := h.funcs f hf
  obtain ⟨b, bs, hbs⟩ : ∃ b bs, (p.func f).blocks = b :: bs := by
    obtain ⟨e, he, -⟩ := (verify_eq_nil_iff.1 hfunc.verified).entry
    obtain ⟨bs, hbs⟩ := List.head?_eq_some_iff.1 he
    exact ⟨e, bs, hbs⟩
  have hblocks := h.reads_blocks hf hbs
  have hparams := h.reads_params hf
  have hclose (s : List Char) : param (')' :: s) = none :=
    bind_of_none (bind_of_none (type_eq_none rfl s) _) _
  have heq : (p.funcText f).toList = "define".toList ++ ' ' :: ((p.func f).result.name.toList ++
      ' ' :: ('@' :: (p.func f).name.toList ++ ("(".toList ++ ([',', ' '].intercalate
        ((p.func f).params.map fun x => x.1.name.toList ++ ' ' :: ('%' :: x.2.toList)) ++
          (")".toList ++ ' ' :: ("\x7b".toList ++ (['\n'] ++ ((p.blockChars b ++
            chunks (bs.map p.blockChunk)) ++ (['\n'] ++ "\x7d".toList))))))))) := by
    rw [toList_funcText, toList_headText, hbs, List.map_cons, chunks_cons, blockChunk]
    simp only [List.append_assoc, List.cons_append]
    rfl
  rw [heq, functionDef]
  refine .left fun n => (reads_token "define").space (fun _ => trivial) (opens_type _ _)
    fun _ _ => ?_
  refine (reads_typeToken _).space (fun s => ends_cons rfl _) (.cons (by decide) _) ?_
  rintro _ rfl
  refine (reads_globalToken hfunc.name).next (fun s => ends_cons rfl _) (.cons (by decide) _) ?_
  rintro _ rfl
  refine (reads_token "(").next (fun _ => trivial) (opens_optList (fun t ht => ?_) _) fun _ _ => ?_
  · obtain ⟨x, -, rfl⟩ := List.mem_map.1 ht
    exact opens_type _ _
  refine (reads_optList hparams hclose).next (fun s => rfl) (.cons (by decide) _) ?_
  rintro _ rfl
  refine (reads_token ")").space (fun _ => trivial) (.cons (by decide) _) fun _ _ => ?_
  refine (reads_token "\x7b").gap isBlank_newline (fun _ => trivial) ?_ fun _ _ => ?_
  · have hopens : Opens (p.blockChars b) :=
      (opens_name (hfunc.labels b (hbs ▸ List.mem_cons_self))).append _
    exact (hopens.append _).append _
  refine hblocks.gap isBlank_newline (fun s => ⟨s, rfl⟩) (.cons (by decide) _) fun blocks hmap => ?_
  refine (reads_token "\x7d").map _ fun _ _ => ?_
  rw [Item.bare, Function.bare, functionOf, hbs, hmap]

/-! ## Modules -/

theorem reads_global {name : String} {cell : Ty} (hn : IsName name) :
    Reads Ends globalDecl (globalText name cell).toList (· = .global name cell) := by
  have heq : (globalText name cell).toList = '@' :: name.toList ++ ' ' :: ("=".toList ++ ' ' ::
      ("global".toList ++ ' ' :: cell.name.toList)) := by
    simp [globalText]
  have hopens : Opens cell.name.toList := by simpa using opens_type cell []
  rw [heq, globalDecl]
  refine (reads_globalToken hn).space (fun s => ends_cons rfl _) (.cons (by decide) _) ?_
  rintro _ rfl
  refine (reads_token "=").space (fun _ => trivial) (.cons (by decide) _) fun _ _ => ?_
  refine (reads_token "global").space (fun _ => trivial) hopens fun _ _ => ?_
  exact (reads_typeToken cell).map _ (by rintro _ rfl; rfl)

theorem reads_declaration {name : String} {result : Ty} {params : List Ty} (hn : IsName name) :
    Reads Any declareDecl (declarationText name result params).toList
      (· = .declaration name result params) := by
  have heq : (declarationText name result params).toList = "declare".toList ++ ' ' ::
      (result.name.toList ++ ' ' :: ('@' :: name.toList ++ ("(".toList ++
        ([',', ' '].intercalate (params.map fun ty => ty.name.toList) ++ ")".toList)))) := by
    simp [declarationText, String.toList_intercalate, Function.comp_def]
  have hparams : List.Forall₂ (fun t a => Opens t ∧ Reads Ends typeToken t (· = a))
      (params.map fun ty => ty.name.toList) params := by
    rw [List.forall₂_map_left_iff, List.forall₂_same]
    exact fun ty _ => ⟨by simpa using opens_type ty [], reads_typeToken ty⟩
  rw [heq, declareDecl]
  refine (reads_token "declare").space (fun _ => trivial) (opens_type _ _) fun _ _ => ?_
  refine (reads_typeToken result).space (fun s => ends_cons rfl _) (.cons (by decide) _) ?_
  rintro _ rfl
  refine (reads_globalToken hn).next (fun s => ends_cons rfl _) (.cons (by decide) _) ?_
  rintro _ rfl
  refine (reads_token "(").next (fun _ => trivial) (opens_optList (fun t ht => ?_) _) fun _ _ => ?_
  · obtain ⟨ty, -, rfl⟩ := List.mem_map.1 ht
    simpa using opens_type ty []
  refine (reads_optList hparams fun s => bind_of_none (type_eq_none rfl s) _).next (fun s => rfl)
    (.cons (by decide) _) ?_
  rintro _ rfl
  exact (reads_token ")").map _ fun _ _ => rfl

/-- Texts, each after the same white space. -/
def separated (sep : List Char) (ts : List String) : List (List Char × List Char) :=
  ts.map fun t => (sep, t.toList)

theorem chunks_separated (sep : List Char) (ts : List String) :
    chunks (separated sep ts) = (ts.map String.toList).flatMap (sep ++ ·) := by
  rw [chunks, separated, List.flatMap_map, List.flatMap_map]

theorem isBlank_blankLine : ∀ c ∈ ['\n', '\n'], Text.isBlank c = true := List.all_eq_true.1 rfl

/-- The globals and declarations of the module. -/
def headerTexts (p : Program) : List String :=
  p.globals.map (fun (_, g) => globalText g.name g.cell) ++
    p.declarations.map fun (name, result, params) => declarationText name result params

/-- The items of the module, each after its white space. -/
def itemChunks (p : Program) : List (List Char × List Char) :=
  separated ['\n'] p.headerTexts ++ separated ['\n', '\n'] (p.moduleFuncs.map p.funcText)

/-- The text is made of the items; what stands before the first is left out. -/
theorem toList_text (p : Program) : ∃ sep, (∀ c ∈ sep, Text.isBlank c = true) ∧
    chunks p.itemChunks ++ ['\n'] = sep ++ p.text.toList := by
  have hnewline : "\n".toList = ['\n'] := rfl
  have hblank : "\n\n".toList = ['\n', '\n'] := rfl
  have happend (cs ds : List (List Char × List Char)) :
      chunks (cs ++ ds) = chunks cs ++ chunks ds := List.flatMap_append
  rw [text, itemChunks, happend, chunks_separated, chunks_separated]
  dsimp only
  rw [← headerTexts]
  generalize p.headerTexts = header
  generalize p.moduleFuncs.map p.funcText = funcs
  cases header with
  | nil =>
    cases funcs with
    | nil => exact ⟨[], by simp, rfl⟩
    | cons t ts =>
      refine ⟨['\n', '\n'], isBlank_blankLine, ?_⟩
      simp [String.toList_intercalate, intercalate_cons, hblank]
  | cons h hs =>
    refine ⟨['\n'], isBlank_newline, ?_⟩
    simp [String.toList_intercalate, intercalate_cons, hblank, hnewline]

/-- What starts with another letter is no global. -/
theorem globalDecl_eq_none {s : List Char} (hs : s.head? ≠ some '@') : globalDecl s = none :=
  bind_of_none (bind_of_none (globalName_eq_none hs) _) _

theorem readsChunk_global {name : String} {cell : Ty} (hn : IsName name) :
    ReadsChunk Ends toplevel Item.bare (['\n'], (globalText name cell).toList)
      (.global name cell) := by
  refine ⟨isBlank_newline, ?_, .orLeft ((reads_global hn).mono (fun _ h => h) ?_)⟩
  · simp only [globalText, String.toList_append, List.append_assoc]
    exact .cons (by decide) _
  · rintro _ rfl
    rfl

theorem readsChunk_declaration {name : String} {result : Ty} {params : List Ty}
    (hn : IsName name) : ReadsChunk Ends toplevel Item.bare
      (['\n'], (declarationText name result params).toList) (.declaration name result params) := by
  obtain ⟨u, hu⟩ : ∃ u, (declarationText name result params).toList = 'd' :: u :=
    ⟨_, by simp only [declarationText, String.toList_append, List.append_assoc]; rfl⟩
  refine ⟨isBlank_newline, hu ▸ .cons (by decide) u, .orRight (fun s => ?_) (.orLeft ?_)⟩
  · exact globalDecl_eq_none (by rw [hu]; simp)
  · refine (reads_declaration hn).mono (fun _ _ => trivial) ?_
    rintro _ rfl
    rfl

theorem Listable.readsChunk_function (h : p.Listable) (hf : f ∈ p.moduleFuncs) :
    ReadsChunk Ends toplevel Item.bare (['\n', '\n'], (p.funcText f).toList)
      (.function (p.functionOf f)) := by
  obtain ⟨u, hu⟩ : ∃ u, (p.funcText f).toList = "define".toList ++ u :=
    ⟨_, by rw [toList_funcText, toList_headText, List.append_assoc]⟩
  refine ⟨isBlank_blankLine, hu ▸ .cons (by decide) _,
    .orRight (fun s => ?_) (.orRight (fun s => ?_) ?_)⟩
  · exact globalDecl_eq_none (by rw [hu]; simp)
  · refine bind_of_none ?_ _
    rw [hu]
    rfl
  · exact (h.reads_function hf).mono (fun _ _ => trivial) fun _ h => h

theorem Listable.reads_items (h : p.Listable) :
    List.Forall₂ (ReadsChunk Ends toplevel Item.bare) p.itemChunks p.items := by
  rw [itemChunks, items, headerTexts, separated, separated, List.map_append, List.map_map,
    List.map_map, List.map_map]
  refine List.rel_append (List.rel_append ?_ ?_) ?_
  · rw [List.forall₂_map_left_iff, List.forall₂_map_right_iff, List.forall₂_same]
    intro g hg
    obtain ⟨heq, hn⟩ := h.globals g hg
    exact readsChunk_global (heq ▸ hn)
  · rw [List.forall₂_map_left_iff, List.forall₂_map_right_iff, List.forall₂_same]
    exact fun d hd => readsChunk_declaration (h.declarations d hd)
  · rw [List.forall₂_map_left_iff, List.forall₂_map_right_iff, List.forall₂_same]
    exact fun f hf => h.readsChunk_function hf

/-- Reading the text of a program gives its listing back. -/
theorem Listable.ofText_text (h : p.Listable) :
    ∃ items, ofText p.text.toList = (items, []) ∧ items.map Item.bare = p.items := by
  obtain ⟨sep, hsep, htext⟩ := p.toList_text
  have hgap : ∀ c ∈ p.itemChunks, ∀ s, Ends (c.1 ++ (c.2 ++ s)) := by
    intro c hc s
    rcases List.mem_append.1 hc with hc | hc
    · obtain ⟨t, -, rfl⟩ := List.mem_map.1 hc
      exact ends_gap isBlank_newline (List.cons_ne_nil _ _) _
    · obtain ⟨t, -, rfl⟩ := List.mem_map.1 hc
      exact ends_gap isBlank_blankLine (List.cons_ne_nil _ _) _
  obtain ⟨items, hruns, hmap⟩ := runs_chunks h.reads_items
    (fun c hc => hgap c (List.mem_of_mem_tail hc)) (ends_cons rfl [] : Ends ['\n']) rfl
  refine ⟨items, ?_, hmap⟩
  rw [htext, skipLayout_blanks hsep] at hruns
  rw [ofText, module, bind_run (r := layout) rfl, hruns.many]
  rfl

end Program

end BoxFlow
