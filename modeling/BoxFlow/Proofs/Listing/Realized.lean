import BoxFlow.Proofs.Lists
import BoxFlow.Proofs.Listing.Placed

/-!
# What a listing has become

`Program.Realizes` says that a function of a program is what a listing describes: block by block and
line by line, with what the operands stand for. A function that is built realizes its listing
(`Listing.Built.realizes`), and goes on doing so while the program grows (`Program.Realizes.mono`).
-/

namespace BoxFlow

/-! ## Lists in groups -/

section Lists

variable {α β γ κ : Type}

variable [DecidableEq κ] {S : κ × β → γ → Prop}

/-- Items in groups, and what is beside them: the items of a group are beside those with its key,
and these make up the whole again. -/
theorem grouped (key : γ → κ) (hkey : ∀ {x z}, S x z → key z = x.1) {groups : List (κ × List β)}
    (hnodup : (groups.map (·.1)).Nodup) {zs : List γ}
    (h : List.Forall₂ S (groups.flatMap fun g => g.2.map (g.1, ·)) zs) :
    (∀ g ∈ groups, List.Forall₂ S (g.2.map (g.1, ·)) (zs.filter (key · = g.1))) ∧
      (groups.map (·.1)).flatMap (fun k => zs.filter (key · = k)) = zs := by
  induction groups generalizing zs with
  | nil => cases h; exact ⟨nofun, rfl⟩
  | cons g groups ih =>
    rw [List.map_cons, List.nodup_cons] at hnodup
    rw [List.flatMap_cons] at h
    obtain ⟨zs₁, zs₂, rfl, h₁, h₂⟩ := forall₂_append_left h
    obtain ⟨hgroups, hflat⟩ := ih hnodup.2 h₂
    have hkey₁ : ∀ z ∈ zs₁, key z = g.1 := by
      intro z hz
      obtain ⟨x, hx, hr⟩ := exists_left_of_mem h₁ hz
      obtain ⟨y, -, rfl⟩ := List.mem_map.1 hx
      exact hkey hr
    have hkey₂ : ∀ z ∈ zs₂, key z ∈ groups.map (·.1) := by
      intro z hz
      obtain ⟨x, hx, hr⟩ := exists_left_of_mem h₂ hz
      obtain ⟨g', hg', hx⟩ := List.mem_flatMap.1 hx
      obtain ⟨y, -, rfl⟩ := List.mem_map.1 hx
      exact hkey hr ▸ List.mem_map_of_mem hg'
    have hfirst : (zs₁ ++ zs₂).filter (key · = g.1) = zs₁ := by
      rw [List.filter_append, List.filter_eq_self.2 (by simpa using hkey₁),
        List.filter_eq_nil_iff.2, List.append_nil]
      intro z hz
      have := hkey₂ z hz
      simp only [decide_eq_true_eq]
      rintro heq
      exact hnodup.1 (heq ▸ this)
    have hrest {k : κ} (hk : k ∈ groups.map (·.1)) :
        (zs₁ ++ zs₂).filter (key · = k) = zs₂.filter (key · = k) := by
      rw [List.filter_append, List.filter_eq_nil_iff.2, List.nil_append]
      intro z hz
      simp only [decide_eq_true_eq]
      rintro heq
      exact hnodup.1 (hkey₁ z hz ▸ heq ▸ hk)
    constructor
    · intro g' hg'
      rcases List.mem_cons.1 hg' with rfl | hg'
      · rw [hfirst]
        exact h₁
      · rw [hrest (List.mem_map_of_mem hg')]
        exact hgroups g' hg'
    · rw [List.map_cons, List.flatMap_cons, hfirst]
      refine congrArg (zs₁ ++ ·) (Eq.trans ?_ hflat)
      exact List.flatMap_congr fun k hk => hrest hk

theorem forall₂_lookup_zip (ks : List String) (xs : List α) (hlength : ks.length = xs.length)
    (h : ks.Nodup) : List.Forall₂ (fun k x => (ks.zip xs).lookup k = some x) ks xs :=
  List.forall₂_iff_zip.2 ⟨hlength, fun hmem =>
    Keyed.lookup_of_mem (by rwa [List.map_fst_zip (Nat.le_of_eq hlength)]) hmem⟩

end Lists

open Listing

namespace Program

variable {p q : Program} {f : FuncId} {fn : Listing.Function}

/-! ## Functions that a listing describes -/

/-- The value is what the operand stands for in the function. -/
inductive Stands (p : Program) (f : FuncId) : Typed → Value → Prop
  | integer (negative : Bool) (digits : List Char) (serial : Nat) (ty : Ty) : Stands p f
      ⟨ty, .integer negative digits⟩
      (.literal { serial, value := signedValue negative digits, ty })
  | global {name : String} {g : Global} (ty : Ty) : (name, g) ∈ p.globals →
      Stands p f ⟨ty, .global name⟩ (.global g)
  | param {a : Param} (ty : Ty) : .param a ∈ p.params f → Stands p f ⟨ty, .named a.name⟩ (.param a)
  | inst {n : String} {i : InstId} (ty : Ty) : i ∈ p.instructions f → (p.inst i).name = some n →
      Stands p f ⟨ty, .named n⟩ (.inst i)

/-- The instruction is what the line describes. -/
structure IsLine (p : Program) (f : FuncId) (l : Line) (i : InstId) : Prop where
  ty : (p.inst i).ty = l.ty
  named : (p.inst i).name.isSome = true ↔ l.ty ≠ .void
  given : ∀ n ∈ l.result, (p.inst i).name = some n
  word : l.result = none → ∀ n ∈ (p.inst i).name, IsName n
  form : ∃ form : Form Typed BlockId, l.form = form.map id p.label ∧
    (∀ b ∈ form.blocks, b ∈ (p.func f).blocks) ∧ form.Rel (p.Stands f) Eq (p.inst i).op

/-- The function is what the listing describes, and all its names are distinct. -/
structure Realizes (p : Program) (f : FuncId) (fn : Listing.Function) : Prop where
  name : (p.func f).name = fn.name
  result : (p.func f).result = fn.result
  params : (p.func f).params = fn.params
  blocks : List.Forall₂ (fun b B => p.label b = B.label ∧
    List.Forall₂ (p.IsLine f) B.lines (p.block b).insts) (p.func f).blocks fn.blocks
  nodup : (p.localNames f).Nodup

theorem Realizes.isLine {i : InstId} (h : p.Realizes f fn)
    (hi : i ∈ p.instructions f) : ∃ l ∈ fn.lines, p.IsLine f l i := by
  obtain ⟨b, hb, hi⟩ := List.mem_flatMap.1 hi
  obtain ⟨B, hB, -, hlines⟩ := exists_right_of_mem h.blocks hb
  obtain ⟨l, hl, hline⟩ := exists_left_of_mem hlines hi
  exact ⟨l, List.mem_flatMap.2 ⟨B, hB, hl⟩, hline⟩

theorem IsLine.hasResult {l : Listing.Line} {i : InstId} (h : p.IsLine f l i) :
    (p.inst i).name.isSome = (p.inst i).hasResult := by
  rw [Bool.eq_iff_iff, h.named, Inst.hasResult, decide_eq_true_iff, h.ty]

theorem mem_zip_params {n : String} {v : Value}
    (h : (n, v) ∈ ((p.func f).params.map (·.2)).zip (p.params f)) :
    ∃ a, v = .param a ∧ a.name = n ∧ v ∈ p.params f := by
  have hmem := (List.of_mem_zip h).2
  obtain ⟨k, hk, heq⟩ := List.mem_iff_getElem.1 h
  rw [List.getElem_zip] at heq
  obtain ⟨rfl, rfl⟩ := Prod.mk.inj heq
  refine ⟨_, List.getElem_mapIdx .., ?_, hmem⟩
  rw [List.getElem_map]
  rfl

/-! ## Growing leaves it so -/

/-- What the listing of a function is made of has been there before. -/
theorem Extends.kept (h : p.Extends q) (hp : p.Linked) (f : FuncId) :
    (∀ b ∈ (p.func f).blocks, q.label b = p.label b ∧ (q.block b).insts = (p.block b).insts) ∧
      ∀ i ∈ p.instructions f, (q.inst i).op = (p.inst i).op ∧ (q.inst i).ty = (p.inst i).ty ∧
        (q.inst i).name = (p.inst i).name := by
  refine ⟨fun b hb => Block.of_shown (h.block (lt_of_parent (hp.parent hb))), fun i hi => ?_⟩
  obtain ⟨b, hb, hi⟩ := List.mem_flatMap.1 hi
  exact Inst.of_shown (h.inst (lt_of_inst_block (hp.held hi)))

theorem Extends.instructions (h : p.Extends q) (hp : p.Linked) (hf : f < p.funcs.size) :
    q.instructions f = p.instructions f := by
  obtain ⟨-, -, -, hblocks⟩ := Func.of_shown (h.func hf)
  rw [Program.instructions, hblocks]
  exact List.flatMap_congr fun b hb => ((h.kept hp f).1 b hb).2

theorem Extends.params (h : p.Extends q) (hf : f < p.funcs.size) : q.params f = p.params f := by
  rw [Program.params, Program.params, (Func.of_shown (h.func hf)).2.2.1]

theorem Stands.mono {t : Typed} {v : Value} (h : p.Stands f t v) (hpq : p.Extends q)
    (hp : p.Linked) (hf : f < p.funcs.size) : q.Stands f t v := by
  cases h with
  | integer negative digits serial ty => exact .integer negative digits serial ty
  | global ty hg => exact .global ty (hpq.globals ▸ hg)
  | param ty ha => exact .param ty (hpq.params hf ▸ ha)
  | inst ty hi hn =>
    exact .inst ty (hpq.instructions hp hf ▸ hi) (((hpq.kept hp f).2 _ hi).2.2.trans hn)

theorem IsLine.mono {l : Line} {i : InstId} (h : p.IsLine f l i) (hpq : p.Extends q)
    (hp : p.Linked) (hf : f < p.funcs.size) (hi : i ∈ p.instructions f) : q.IsLine f l i := by
  obtain ⟨-, -, -, hblocks⟩ := Func.of_shown (hpq.func hf)
  obtain ⟨hblock, hinst⟩ := hpq.kept hp f
  obtain ⟨hop, hty, hname⟩ := hinst i hi
  obtain ⟨form, hform, hmem, hrel⟩ := h.form
  refine ⟨hty.trans h.ty, hname ▸ h.named, hname ▸ h.given, hname ▸ h.word, form, ?_, hblocks ▸ hmem,
    hop ▸ hrel.imp (fun t v hs => hs.mono hpq hp hf) fun _ _ => id⟩
  rw [hform]
  exact Form.map_congr (fun _ _ => rfl) fun b hb => (hblock b (hmem b hb)).1.symm

theorem Realizes.mono (h : p.Realizes f fn) (hpq : p.Extends q) (hp : p.Linked)
    (hf : f < p.funcs.size) : q.Realizes f fn := by
  obtain ⟨hname, hresult, hparams, hblocks⟩ := Func.of_shown (hpq.func hf)
  obtain ⟨hblock, hinst⟩ := hpq.kept hp f
  refine ⟨hname.trans h.name, hresult.trans h.result, hparams.trans h.params, ?_, ?_⟩
  · rw [hblocks]
    refine (forall₂_mem h.blocks).imp ?_
    rintro b B ⟨⟨hb, -⟩, hlabel, hlines⟩
    rw [(hblock b hb).1, (hblock b hb).2]
    refine ⟨hlabel, (forall₂_mem hlines).imp fun l i hl => ?_⟩
    exact hl.2.mono hpq hp hf (List.mem_flatMap.2 ⟨b, hb, hl.1.2⟩)
  · have hlabels : (p.func f).blocks.map q.label = (p.func f).blocks.map p.label :=
      List.map_congr_left fun b hb => (hblock b hb).1
    have hnames : (p.instructions f).filterMap (fun i => (q.inst i).name) =
        (p.instructions f).filterMap fun i => (p.inst i).name :=
      List.filterMap_congr fun i hi => (hinst i hi).2.2
    rw [localNames, hparams, hblocks, hpq.instructions hp hf, hlabels, hnames]
    exact h.nodup

end Program

/-! ## Functions that are built -/

namespace Listing

variable {p q q₁ q₂ q₃ : Program} {fn : Function} {start scope : Scope} {drafts : List Draft}
  {n : String} {b : BlockId}

/-- The lines of a function, each with the block that its label stands for. -/
def placedLines (labels : Keyed BlockId) (fn : Function) : List (BlockId × Line) :=
  fn.blocks.flatMap fun b => b.lines.map fun l => ((labels.lookup b.label).getD 0, l)

theorem Labelled.lookup_label (h : Labelled p fn fn.blocks start q) :
    List.Forall₂ (fun b B => start.labels.lookup B.label = some b)
      (q.func p.funcs.size).blocks fn.blocks := by
  have hlength := h.blocks.length_eq
  have hzip := forall₂_lookup_zip (fn.blocks.map (·.label)) (q.func p.funcs.size).blocks
    (by rw [List.length_map, hlength]) (List.nodup_append.1 h.nodup).2.1
  rw [← h.labels, List.forall₂_map_left_iff] at hzip
  exact hzip.flip

theorem Labelled.label_of_lookup (h : Labelled p fn fn.blocks start q)
    (hn : start.labels.lookup n = some b) :
    b ∈ (q.func p.funcs.size).blocks ∧ (q.block b).label = n := by
  have hmem := Keyed.mem_of_lookup hn
  rw [h.labels] at hmem
  refine ⟨(List.of_mem_zip hmem).2, ?_⟩
  have hlabels : List.Forall₂ (fun n b => (q.block b).label = n) (fn.blocks.map (·.label))
      (q.func p.funcs.size).blocks := by
    rw [List.forall₂_map_left_iff]
    exact (h.blocks.imp fun b B h => h.2.2.1).flip
  exact List.forall₂_zip hlabels hmem

/-- The lines by block, as groups. -/
theorem Labelled.placedLines_eq (h : Labelled p fn fn.blocks start q) :
    placedLines start.labels fn =
      (((q.func p.funcs.size).blocks.zip fn.blocks).map fun x => (x.1, x.2.lines)).flatMap
        fun g => g.2.map (g.1, ·) := by
  have hgroups {bs : List BlockId} {Bs : List Block}
      (hl : List.Forall₂ (fun b B => start.labels.lookup B.label = some b) bs Bs) :
      (Bs.flatMap fun b => b.lines.map fun l => ((start.labels.lookup b.label).getD 0, l)) =
        ((bs.zip Bs).map fun x => (x.1, x.2.lines)).flatMap fun g => g.2.map (g.1, ·) := by
    induction hl with
    | nil => rfl
    | cons hb _ ih =>
      rw [List.flatMap_cons, ih, hb]
      rfl
  exact hgroups h.lookup_label

/-- The second sweep starts with all results claimed. -/
theorem Labelled.drafted (h : Labelled p fn fn.blocks start q) (base : InstId)
    (results : List String) :
    q.LooksLike (results.foldl (·.claimName p.funcs.size ·) q) ∧
      Drafted p.funcs.size base start results (results.foldl (·.claimName p.funcs.size ·) q) [] []
        start (results.foldl (·.claimName p.funcs.size ·) q) := by
  obtain ⟨hlooks, hnames⟩ :=
    claimNames (q := q) (f := p.funcs.size) (h.funcs_size ▸ Nat.lt_succ_self _) results
  refine ⟨hlooks, .refl _, rfl, by simp [resultValues], .nil, ?_, fun n hn => ?_, by simp⟩
  · rw [h.keys_values, h.keys_labels, List.filterMap_nil, List.append_nil]
    exact h.nodup
  · rw [h.keys_values, h.keys_labels] at hn
    rw [hnames, h.names]
    rcases hn with hn | hn | hn
    · exact .inr hn
    · exact .inl hn
    · cases hn

/-- The instructions are placed into blocks that are empty, and in no earlier function. -/
theorem Labelled.placed (h : Labelled p fn fn.blocks start q) (hlooks : q.LooksLike q₃)
    (scope : Scope) : Placed p p.funcs.size scope q₃ [] q₃ ∧
      ∀ b ∈ (q₃.func p.funcs.size).blocks, p.blocks.size ≤ b ∧ b < q₃.blocks.size := by
  have hblocks : ∀ b ∈ (q₃.func p.funcs.size).blocks,
      p.blocks.size ≤ b ∧ b < q₃.blocks.size ∧ (q₃.block b).insts = [] := by
    intro b hb
    rw [(Func.of_shown (hlooks.func _)).2.2.2] at hb
    obtain ⟨B, -, hge, hlt, -, hinsts⟩ := exists_right_of_mem h.blocks hb
    exact ⟨hge, by rw [hlooks.blocks_size]; exact hlt,
      (Block.of_shown (hlooks.block b)).2.trans hinsts⟩
  constructor
  · exact
      { grown := h.grown.trans hlooks.toExtends
        functions := rfl
        globals := rfl
        funcs_size := rfl
        blocks_size := rfl
        insts_size := rfl
        func := rfl
        label := fun _ => rfl
        insts := by simp
        held := fun b hb => by rw [(hblocks b hb).2.2]; rfl }
  · exact fun b hb => ⟨(hblocks b hb).1, (hblocks b hb).2.1⟩

/-- Every draft goes to a block of the function. -/
theorem Labelled.draft_block (h : Labelled p fn fn.blocks start q)
    (hdrafts : List.Forall₂ (IsDraft start.labels) (placedLines start.labels fn) drafts) :
    ∀ d ∈ drafts, d.block ∈ (q.func p.funcs.size).blocks := by
  intro d hd
  obtain ⟨x, hx, hdraft⟩ := exists_left_of_mem hdrafts hd
  rw [h.placedLines_eq] at hx
  obtain ⟨g, hg, hx⟩ := List.mem_flatMap.1 hx
  obtain ⟨⟨b, B⟩, hb, rfl⟩ := List.mem_map.1 hg
  obtain ⟨l, -, rfl⟩ := List.mem_map.1 hx
  rw [hdraft.block]
  exact (List.of_mem_zip hb).1

/-- The stages of building a function: the labels, the results and the instructions. -/
structure Built (p : Program) (fn : Function) (start scope : Scope) (drafts : List Draft)
    (q₁ q₂ q₃ q : Program) : Prop where
  linked : q.Linked
  labelled : Labelled p fn fn.blocks start q₁
  claimed : q₁.LooksLike q₂
  drafted : Drafted p.funcs.size q₂.insts.size start (fn.lines.filterMap (·.result)) q₂
    (placedLines start.labels fn) drafts scope q₃
  placed : Placed p p.funcs.size scope q₃ drafts q

theorem mem_results {labels : Keyed BlockId} {x : BlockId × Line} (hx : x ∈ placedLines labels fn) :
    ∀ n ∈ x.2.result, n ∈ fn.lines.filterMap (·.result) := by
  intro n hn
  obtain ⟨B, hB, hx⟩ := List.mem_flatMap.1 hx
  obtain ⟨l, hl, rfl⟩ := List.mem_map.1 hx
  exact List.mem_filterMap.2 ⟨l, List.mem_flatMap.2 ⟨B, hB, hl⟩, hn⟩

theorem exists_built (h : buildFunction p fn = .ok q) (hp : p.Linked)
    (hparams : (fn.params.map (·.2)).Nodup) :
    ∃ start scope drafts q₁ q₂ q₃, Built p fn start scope drafts q₁ q₂ q₃ q := by
  have hlinked := buildFunction_of_kept .linked h hp
  unfold buildFunction at h
  dsimp only at h
  rw [bind_eq_ok] at h
  obtain ⟨⟨start, q₁⟩, h₁, h⟩ := h
  rw [bind_eq_ok] at h
  obtain ⟨⟨drafts, scope, q₃⟩, h₃, h⟩ := h
  have hl : Labelled p fn fn.blocks start q₁ := (Labelled.newFunc p fn hparams).run h₁
  obtain ⟨hclaimed, hd⟩ := hl.drafted
    ((fn.lines.filterMap (·.result)).foldl (·.claimName p.funcs.size ·) q₁).insts.size
    (fn.lines.filterMap (·.result))
  have hsize : p.funcs.size < q₁.funcs.size := hl.funcs_size ▸ Nat.lt_succ_self _
  have h₃ : draftAll p.funcs.size _ (placedLines start.labels fn) [] start _ =
    .ok (drafts, scope, q₃) := h₃
  have hd := hd.run (hclaimed.funcs_size ▸ hsize) h₃ fun x hx => mem_results hx
  obtain ⟨hplaced, hnew⟩ := hl.placed (hclaimed.trans hd.looks) scope
  have hblocks := (Func.of_shown ((hclaimed.trans hd.looks).func p.funcs.size)).2.2.2
  have hplaced := hplaced.run hnew (fun d hmem => by
    rw [hblocks]
    exact hl.draft_block hd.drafts d hmem) h
  exact ⟨start, scope, drafts, q₁, _, q₃, hlinked, hl, hclaimed, hd, hplaced⟩

namespace Built

variable (h : Built p fn start scope drafts q₁ q₂ q₃ q)
include h

theorem looks : q₁.LooksLike q₃ := h.claimed.trans h.drafted.looks

theorem functions_eq : q.functions = p.functions.put fn.name p.funcs.size :=
  h.placed.functions.trans (h.looks.functions.trans h.labelled.functions)

theorem funcs_size_eq : q.funcs.size = p.funcs.size + 1 :=
  h.placed.funcs_size.trans (h.looks.funcs_size.trans h.labelled.funcs_size)

theorem func_eq : (q.func p.funcs.size).name = fn.name ∧ (q.func p.funcs.size).result = fn.result ∧
    (q.func p.funcs.size).params = fn.params ∧
      (q.func p.funcs.size).blocks = (q₁.func p.funcs.size).blocks := by
  obtain ⟨hname, hresult, hparams, hblocks⟩ :=
    Func.of_shown (h.placed.func.trans (h.looks.func p.funcs.size))
  exact ⟨hname.trans h.labelled.name, hresult.trans h.labelled.result,
    hparams.trans h.labelled.params, hblocks⟩

/-- Every block that was not there before is one of the function. -/
theorem owned {b : BlockId} (hge : p.blocks.size ≤ b) (hlt : b < q.blocks.size) :
    b ∈ (q.func p.funcs.size).blocks := by
  rw [h.placed.blocks_size, h.looks.blocks_size] at hlt
  rw [h.func_eq.2.2.2]
  exact h.labelled.owned b hge hlt

theorem label_eq (b : BlockId) : q.label b = (q₁.block b).label :=
  (h.placed.label b).trans (Block.of_shown (h.looks.block b)).1

theorem params_eq : q.params p.funcs.size = q₁.params p.funcs.size := by
  rw [Program.params, Program.params, h.func_eq.2.2.1, h.labelled.params]

/-- The numbered drafts beside their lines. -/
theorem forall₂_drafts : List.Forall₂
    (fun x z => IsDraft start.labels x z.1 ∧ z ∈ drafts.zipIdx q₃.insts.size)
    (placedLines start.labels fn) (drafts.zipIdx q₃.insts.size) := by
  have hmem := forall₂_mem (forall₂_zipIdx h.drafted.drafts q₃.insts.size)
  have hlines := (List.forall₂_map_left_iff (f := Prod.fst)
    (R := fun x z => IsDraft start.labels x z.1 ∧ z ∈ drafts.zipIdx q₃.insts.size)).2
    (hmem.imp fun x z hxz => ⟨hxz.2.2, hxz.1.2⟩)
  rwa [List.zipIdx_map_fst] at hlines

theorem grouped_drafts :
    (∀ x ∈ (q.func p.funcs.size).blocks.zip fn.blocks, List.Forall₂
      (fun y z => IsDraft start.labels y z.1 ∧ z ∈ drafts.zipIdx q₃.insts.size)
      (x.2.lines.map (x.1, ·)) ((drafts.zipIdx q₃.insts.size).filter (·.1.block = x.1))) ∧
    ((q.func p.funcs.size).blocks.flatMap fun b =>
      (drafts.zipIdx q₃.insts.size).filter (·.1.block = b)) = drafts.zipIdx q₃.insts.size := by
  have hdrafts := h.forall₂_drafts
  rw [h.labelled.placedLines_eq, ← h.func_eq.2.2.2] at hdrafts
  have hkeys : ((((q.func p.funcs.size).blocks.zip fn.blocks).map fun x =>
      (x.1, x.2.lines)).map (·.1)) = (q.func p.funcs.size).blocks := by
    rw [List.map_map]
    exact List.map_fst_zip (Nat.le_of_eq (by rw [h.func_eq.2.2.2, h.labelled.blocks.length_eq]))
  obtain ⟨hgroups, hflat⟩ := grouped (fun z : Draft × Nat => z.1.block)
    (fun hxz => hxz.1.block) (by rw [hkeys]; exact h.linked.distinct) hdrafts
  rw [hkeys] at hflat
  exact ⟨fun x hx => hgroups _ (List.mem_map_of_mem hx), hflat⟩

theorem instructions_eq : q.instructions p.funcs.size = (drafts.zipIdx q₃.insts.size).map (·.2) := by
  rw [← h.grouped_drafts.2, List.map_flatMap, Program.instructions]
  refine List.flatMap_congr fun b hb => h.placed.held b ?_
  rw [(Func.of_shown h.placed.func).2.2.2] at hb
  exact hb

theorem inst_of_mem {z : Draft × InstId} (hz : z ∈ drafts.zipIdx q₃.insts.size) :
    z.2 ∈ q.instructions p.funcs.size ∧ (q.inst z.2).ty = z.1.ty ∧ (q.inst z.2).name = z.1.name ∧
      z.1.form.Rel (Means scope q₃.globals) Eq (q.inst z.2).op :=
  ⟨h.instructions_eq ▸ List.mem_map_of_mem hz, h.placed.insts z hz⟩

/-- What an operand means when the instructions are placed is what it stands for in the end. -/
theorem stands {t : Typed} {v : Value} (hm : Means scope q₃.globals t v) :
    q.Stands p.funcs.size t v := by
  obtain ⟨ty, operand⟩ := t
  cases operand with
  | integer negative digits =>
    obtain ⟨serial, rfl⟩ := hm
    exact .integer negative digits serial ty
  | global n =>
    obtain ⟨g, hg, rfl⟩ := hm
    exact .global ty (h.placed.globals ▸ Keyed.mem_of_lookup hg)
  | named n =>
    have hmem := Keyed.mem_of_lookup hm
    rw [h.drafted.values, h.labelled.values, List.mem_append] at hmem
    rcases hmem with hmem | hmem
    · rw [← h.labelled.params] at hmem
      obtain ⟨a, rfl, rfl, ha⟩ := Program.mem_zip_params hmem
      exact .param ty (h.params_eq ▸ ha)
    · obtain ⟨x, hx, heq⟩ := List.mem_filterMap.1 hmem
      obtain ⟨m, hm', heq⟩ := Option.map_eq_some_iff.1 heq
      cases heq
      obtain ⟨z, hz, hxz, hdraft⟩ := exists_right_of_mem
        (forall₂_zipIdx h.drafted.drafts q₂.insts.size) hx
      rw [← h.drafted.looks.insts_size] at hz
      obtain ⟨hinst, -, hname, -⟩ := h.inst_of_mem hz
      rw [hxz]
      exact .inst ty hinst (hname.trans (hdraft.given n hm'))

theorem isLine {x : BlockId × Line} {z : Draft × InstId} (hd : IsDraft start.labels x z.1)
    (hz : z ∈ drafts.zipIdx q₃.insts.size) : q.IsLine p.funcs.size x.2 z.2 := by
  obtain ⟨-, hty, hname, hrel⟩ := h.inst_of_mem hz
  have hlabel {n : String} (hn : n ∈ x.2.form.blocks) :
      (start.labels.lookup n).getD 0 ∈ (q.func p.funcs.size).blocks ∧
        q.label ((start.labels.lookup n).getD 0) = n := by
    obtain ⟨b, hb⟩ := Option.isSome_iff_exists.1 (hd.known n hn)
    rw [hb, h.label_eq, h.func_eq.2.2.2]
    exact h.labelled.label_of_lookup hb
  refine ⟨hty.trans hd.ty, hname ▸ hd.named, hname ▸ hd.given, hname ▸ hd.word, z.1.form, ?_, ?_,
    hrel.imp (fun t v hm => h.stands hm) fun _ _ => id⟩
  · rw [hd.form, Form.map_map]
    exact (Form.map_id _).symm.trans (Form.map_congr (fun _ _ => rfl) fun n hn => (hlabel hn).2.symm)
  · rw [hd.form, Form.blocks_map]
    intro b hb
    obtain ⟨n, hn, rfl⟩ := List.mem_map.1 hb
    exact (hlabel hn).1

theorem localNames_eq : q.localNames p.funcs.size = start.values.map (·.1) ++
    start.labels.map (·.1) ++ drafts.filterMap (·.name) := by
  obtain ⟨-, -, hparams, hblocks⟩ := h.func_eq
  have hlabels : (q.func p.funcs.size).blocks.map q.label = fn.blocks.map (·.label) := by
    rw [hblocks]
    exact map_eq_map (h.labelled.blocks.imp fun b B hb => (h.label_eq b).trans hb.2.2.1)
  have hnames : (q.instructions p.funcs.size).filterMap (fun i => (q.inst i).name) =
      drafts.filterMap (·.name) := by
    rw [h.instructions_eq, List.filterMap_map, ← List.zipIdx_map_fst q₃.insts.size drafts,
      List.filterMap_map, List.zipIdx_map_fst]
    exact List.filterMap_congr fun z hz => (h.inst_of_mem hz).2.2.1
  rw [Program.localNames, hparams, hlabels, hnames, h.labelled.keys_values, h.labelled.keys_labels]

theorem realizes : q.Realizes p.funcs.size fn := by
  obtain ⟨hname, hresult, hparams, hblocks⟩ := h.func_eq
  refine ⟨hname, hresult, hparams, List.forall₂_iff_zip.2 ⟨?_, fun {b B} hmem => ⟨?_, ?_⟩⟩, ?_⟩
  · rw [hblocks, h.labelled.blocks.length_eq]
  · rw [h.label_eq]
    exact (List.forall₂_zip h.labelled.blocks (hblocks ▸ hmem)).2.2.1
  · have hlines := h.grouped_drafts.1 _ hmem
    rw [List.forall₂_map_left_iff] at hlines
    rw [h.placed.held b, List.forall₂_map_right_iff]
    · exact hlines.imp fun l z hz => h.isLine hz.1 hz.2
    · rw [← (Func.of_shown h.placed.func).2.2.2]
      exact (List.of_mem_zip hmem).1
  · rw [h.localNames_eq]
    exact h.drafted.nodup

end Built

end Listing

end BoxFlow
