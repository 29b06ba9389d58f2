import BoxFlow.Proofs.Listing.Layout
import BoxFlow.Proofs.Listing.Taken

/-!
# Other labels

The labels of a function may be renamed as long as they stay distinct from each other and from the
names that the text gives to values, have white space before them and, but for the first, do not
start like an instruction. The text then still loads, and the module is the same but for the labels
and for the names that are made up for results (`Program.load_relabelled`).
-/

namespace BoxFlow

open Listing

/-! ## Lists side by side -/

section Lists

variable {α β γ δ : Type} {R : α → β → Prop} {S : β → γ → Prop}

theorem forall₂_comp {xs : List α} {ys : List β} {zs : List γ} (h : List.Forall₂ R xs ys)
    (h' : List.Forall₂ S ys zs) : List.Forall₂ (fun x z => ∃ y, R x y ∧ S y z) xs zs := by
  induction h generalizing zs with
  | nil =>
    cases h'
    exact .nil
  | cons hxy _ ih =>
    cases h' with
    | cons hyz h' => exact .cons ⟨_, hxy, hyz⟩ (ih h')

/-- Places in the parts are places in the whole. -/
theorem mem_zip_flatMap {g : α → List γ} {k : β → List δ} {xs : List α} {ys : List β}
    (h : List.Forall₂ (fun x y => (g x).length = (k y).length) xs ys) {x : α} {y : β} {z : γ}
    {w : δ} (hxy : (x, y) ∈ xs.zip ys) (hzw : (z, w) ∈ (g x).zip (k y)) :
    (z, w) ∈ (xs.flatMap g).zip (ys.flatMap k) := by
  induction h with
  | nil => cases hxy
  | cons hlength _ ih =>
    rw [List.flatMap_cons, List.flatMap_cons, List.zip_append hlength, List.mem_append]
    rcases List.mem_cons.1 hxy with heq | hxy
    · cases heq
      exact .inl hzw
    · exact .inr (ih hxy)

end Lists

/-- The names that the text gives to the values of a function. -/
def Listing.Function.named (fn : Listing.Function) : List String :=
  fn.params.map (·.2) ++ fn.lines.filterMap (·.result)

theorem Listing.Function.Matches.named {ρ : String → String} {fn fn' : Listing.Function}
    (h : fn.Matches ρ fn') : fn'.named = fn.named := by
  rw [Function.named, Function.named, h.params, h.results]

namespace Program

variable {p q : Program} {f g : FuncId} {fn fn' : Listing.Function} {ρ : String → String}
  {names globals : List String} {i j : InstId} {b d : BlockId} {v w : Value}

/-! ## The same but for labels -/

/-- The same name if it is one of `names`, and if not none of them on either side. -/
inductive SameName (names : List String) : Option String → Option String → Prop
  | none : SameName names none none
  | given {n : String} : n ∈ names → SameName names (some n) (some n)
  | invented {m n : String} : m ∉ names → n ∉ names → SameName names (some m) (some n)

/-- The same function, its labels under the names that `ρ` has for them, up to the names of results
that are not among `names`. -/
structure Relabelled (ρ : String → String) (names : List String) (p : Program) (f : FuncId)
    (q : Program) (g : FuncId) : Prop where
  name : (q.func g).name = (p.func f).name
  result : (q.func g).result = (p.func f).result
  params : (q.func g).params = (p.func f).params
  blocks : List.Forall₂ (fun b d => q.label d = ρ (p.label b) ∧
    List.Forall₂ (fun i j => p.SameKind f q g i j ∧ SameName names (p.inst i).name (q.inst j).name)
      (p.block b).insts (q.block d).insts) (p.func f).blocks (q.func g).blocks

theorem Relabelled.shape (h : Relabelled ρ names p f q g) : p.SameShape f q g :=
  h.blocks.imp fun _ _ hb => hb.2.imp fun _ _ hi => hi.1

/-! ## Functions that come of listings that match -/

theorem Realizes.placed (h : p.Realizes f fn) : List.Forall₂ (fun b B => p.label b = B.label ∧
    List.Forall₂ (fun i l => (l, i) ∈ fn.lines.zip (p.instructions f) ∧ p.IsLine f l i)
      (p.block b).insts B.lines) (p.func f).blocks fn.blocks := by
  have hlengths : List.Forall₂ (fun B b => B.lines.length = (p.block b).insts.length) fn.blocks
      (p.func f).blocks := (h.blocks.imp fun b B hb => hb.2.length_eq).flip
  refine ((forall₂_place h.blocks.flip).imp fun B b hb => ⟨hb.2.1, ?_⟩).flip
  exact ((forall₂_place hb.2.2).imp fun l i hl =>
    ⟨mem_zip_flatMap hlengths hb.1 hl.1, hl.2⟩).flip

theorem Realizes.lines (h : p.Realizes f fn) :
    List.Forall₂ (p.IsLine f) fn.lines (p.instructions f) :=
  forall₂_flatMap h.blocks.flip fun _ _ hb => hb.2

theorem name_mem_params {a : Param} (h : .param a ∈ p.params f) :
    a.name ∈ (p.func f).params.map (·.2) := by
  obtain ⟨k, hk, heq⟩ := List.mem_mapIdx.1 h
  cases heq
  exact List.mem_map_of_mem (List.getElem_mem hk)

theorem Stands.mem_locals {t : Typed} {n : String} (h : p.Stands f t v) (ht : t.operand = .named n) :
    v ∈ p.locals f ∧ p.valueName? v = some n := by
  cases h with
  | integer | global => cases ht
  | param ty ha =>
    cases ht
    exact ⟨List.mem_append_left _ ha, rfl⟩
  | inst ty hi hn =>
    cases ht
    exact ⟨inst_mem_locals.2 hi, hn⟩

/-- A made-up name is not given to another value. -/
theorem Realizes.invented (h : p.Realizes f fn) {l : Line} {n : String}
    (hplace : (l, i) ∈ fn.lines.zip (p.instructions f)) (hl : l.result = none)
    (hn : (p.inst i).name = some n) : n ∉ fn.named := by
  have hnodup := h.nodup
  have hi : n ∈ (p.instructions f).filterMap fun i => (p.inst i).name :=
    List.mem_filterMap.2 ⟨i, (List.of_mem_zip hplace).2, hn⟩
  rw [localNames, List.nodup_append] at hnodup
  intro hmem
  rcases List.mem_append.1 hmem with hmem | hmem
  · rw [← h.params] at hmem
    exact hnodup.2.2 n (List.mem_append_left _ hmem) n hi rfl
  · obtain ⟨l', hl', hresult⟩ := List.mem_filterMap.1 hmem
    obtain ⟨i', -, hplace', hline⟩ := exists_right_of_mem (forall₂_place h.lines) hl'
    have hpairs : ((fn.lines.zip (p.instructions f)).filterMap
        fun x => (p.inst x.2).name).Nodup := by
      have hmap := List.filterMap_map (f := Prod.snd) (g := fun i => (p.inst i).name)
        (l := fn.lines.zip (p.instructions f))
      rw [List.map_snd_zip (Nat.le_of_eq h.lines.length_eq.symm)] at hmap
      exact hmap ▸ hnodup.2.1
    have heq := eq_of_nodup_filterMap hpairs hplace hplace' hn (hline.given n hresult)
    cases heq
    cases hl.symm.trans hresult

section Relabelled

variable (hp : p.Realizes f fn) (hq : q.Realizes g fn') (hm : fn.Matches ρ fn')
include hp hq hm

/-- Lines that match have become instructions of names that match. -/
theorem Realizes.sameName {l l' : Line} (hi : (l, i) ∈ fn.lines.zip (p.instructions f))
    (hil : p.IsLine f l i) (hj : (l', j) ∈ fn'.lines.zip (q.instructions g)) (hjl : q.IsLine g l' j)
    (hll : l.Matches ρ l') : SameName fn.named (p.inst i).name (q.inst j).name := by
  cases hresult : l.result with
  | some n =>
    rw [hil.given n hresult, hjl.given n (hll.result.trans hresult)]
    refine .given (List.mem_append_right _ (List.mem_filterMap.2 ⟨l, ?_, hresult⟩))
    exact (List.of_mem_zip hi).1
  | none =>
    have hsome : (p.inst i).name.isSome = (q.inst j).name.isSome := by
      rw [Bool.eq_iff_iff, hil.named, hjl.named, hll.ty]
    cases hn : (p.inst i).name with
    | none =>
      rw [hn, Option.isSome_none, eq_comm, Option.isSome_eq_false_iff, Option.isNone_iff_eq_none]
        at hsome
      rw [hsome]
      exact .none
    | some n =>
      rw [hn, Option.isSome_some, eq_comm] at hsome
      obtain ⟨m, hm'⟩ := Option.isSome_iff_exists.1 hsome
      rw [hm']
      refine .invented (hp.invented hi hresult hn) ?_
      rw [← hm.named]
      exact hq.invented hj (hll.result.trans hresult) hm'

theorem Realizes.sameLocals : List.Forall₂ (fun v w =>
    SameName fn.named (p.valueName? v) (q.valueName? w)) (p.locals f) (q.locals g) := by
  refine List.rel_append ?_ ?_
  · have hparams : (q.func g).params = (p.func f).params :=
      hq.params.trans (hm.params.trans hp.params.symm)
    refine (forall₂_mem (forall₂_params hparams)).imp ?_
    rintro _ _ ⟨⟨ha, -⟩, a, a', rfl, rfl, hname, -⟩
    rw [valueName?, valueName?, hname]
    exact .given (List.mem_append_left _ (hp.params ▸ name_mem_params ha))
  · rw [List.forall₂_map_left_iff, List.forall₂_map_right_iff]
    have hlines := forall₂_comp (forall₂_place hp.lines).flip
      (forall₂_comp hm.lines (forall₂_place hq.lines))
    refine hlines.imp ?_
    rintro i j ⟨l, ⟨hi, hil⟩, l', hll, hj, hjl⟩
    exact hp.sameName hq hm hi hil hj hjl hll

/-- A block with the new label of another one is in its place. -/
theorem Realizes.sameBlock (hb : b ∈ (p.func f).blocks) (hd : d ∈ (q.func g).blocks)
    (hlabel : q.label d = ρ (p.label b)) : p.SameBlock f q g b d := by
  obtain ⟨d', hd', hplace, B, ⟨hbB, -⟩, D, hBD, hdD, -⟩ := exists_right_of_mem
    (forall₂_place (forall₂_comp hp.blocks (forall₂_comp hm.blocks hq.blocks.flip))) hb
  have hnodup : ((q.func g).blocks.map q.label).Nodup :=
    (List.nodup_append.1 (List.nodup_append.1 hq.nodup).1).2.1
  have hlabel' : q.label d' = ρ (p.label b) := by rw [hdD, hBD.label, hbB]
  obtain rfl := List.inj_on_of_nodup_map hnodup hd hd' (hlabel.trans hlabel'.symm)
  exact hplace

/-- What an operand stands for in both programs is in the same place. -/
theorem Realizes.sameValue {t : Typed} (hin : t.operand.In fn.named globals)
    (hglobals : q.globals = p.globals) (hnodup : (p.globals.map (·.1)).Nodup)
    (hv : p.Stands f t v) (hw : q.Stands g t w) : p.SameValue f q g v w := by
  obtain ⟨ty, operand⟩ := t
  cases operand with
  | integer =>
    cases hv
    cases hw
    exact .literal rfl rfl
  | global n =>
    cases hv with
    | global _ hx =>
      cases hw with
      | global _ hy =>
        have hsame : List.Forall₂ Eq p.globals q.globals := List.forall₂_eq_eq_eq ▸ hglobals.symm
        rw [hglobals] at hy
        cases List.inj_on_of_nodup_map hnodup hx hy rfl
        obtain ⟨x', -, hplace, rfl⟩ := exists_right_of_mem (forall₂_place hsame) hx
        have hvalue : p.SameValue f q g _ _ := .global hplace
        exact hvalue
  | named n =>
    obtain ⟨hv, hvn⟩ := hv.mem_locals rfl
    obtain ⟨hw, hwn⟩ := hw.mem_locals rfl
    obtain ⟨w', hw', hplace, hname⟩ :=
      exists_right_of_mem (forall₂_place (hp.sameLocals hq hm)) hv
    rw [hvn] at hname
    generalize hwn' : q.valueName? w' = n' at hname
    cases hname with
    | given =>
      obtain rfl := eq_of_nodup_filterMap (nodup_locals hq.nodup) hw hw' hwn hwn'
      exact .local_ hplace
    | invented hnot => exact absurd hin hnot

theorem Realizes.sameKind (hclosed : fn.Closed globals) (hglobals : q.globals = p.globals)
    (hnodup : (p.globals.map (·.1)).Nodup) {l l' : Line} (hl : l ∈ fn.lines)
    (hil : p.IsLine f l i) (hjl : q.IsLine g l' j) (hll : l.Matches ρ l') :
    p.SameKind f q g i j := by
  obtain ⟨form, hform, hblocks, hrel⟩ := hil.form
  obtain ⟨form', hform', hblocks', hrel'⟩ := hjl.form
  have hmap : form'.map id q.label = form.map id (ρ ∘ p.label) := by
    rw [← hform', hll.form, hform, Form.map_map]
    rfl
  have hoperands : form'.operands = form.operands := by
    simpa [Form.operands_map] using congrArg Form.operands hmap
  refine ⟨hjl.ty.trans (hll.ty.trans hil.ty.symm), .of_skeleton ?_ ?_ ?_⟩
  · have hskeleton := congrArg Form.skeleton hmap
    rw [Form.skeleton_map, Form.skeleton_map] at hskeleton
    rw [← hrel.skeleton, ← hrel'.skeleton, hskeleton]
  · have hstands' := hrel'.operands
    rw [hoperands] at hstands'
    refine (forall₂_comp (forall₂_mem hrel.operands).flip hstands').imp ?_
    rintro v w ⟨t, ⟨⟨ht, -⟩, hv⟩, hw⟩
    refine hp.sameValue hq hm (hclosed.operands l hl t ?_) hglobals hnodup hv hw
    rw [hform, Form.operands_map, List.map_id]
    exact ht
  · have hlabels := congrArg Form.blocks hmap
    rw [Form.blocks_map, Form.blocks_map, hrel.blocks_eq, hrel'.blocks_eq] at hlabels
    rw [hrel.blocks_eq] at hblocks
    rw [hrel'.blocks_eq] at hblocks'
    rw [← List.forall₂_eq_eq_eq, List.forall₂_map_left_iff, List.forall₂_map_right_iff] at hlabels
    exact (forall₂_mem hlabels).flip.imp fun b d hbd =>
      hp.sameBlock hq hm (hblocks b hbd.1.2) (hblocks' d hbd.1.1) hbd.2

/-- Functions that come of listings that match are the same but for labels. -/
theorem Realizes.relabelled (hclosed : fn.Closed globals) (hglobals : q.globals = p.globals)
    (hnodup : (p.globals.map (·.1)).Nodup) : p.Relabelled ρ fn.named f q g where
  name := hq.name.trans (hm.name.trans hp.name.symm)
  result := hq.result.trans (hm.result.trans hp.result.symm)
  params := hq.params.trans (hm.params.trans hp.params.symm)
  blocks := by
    refine (forall₂_comp hp.placed (forall₂_comp hm.blocks hq.placed.flip)).imp ?_
    rintro b d ⟨B, ⟨hb, hlines⟩, D, hBD, hd, hlines'⟩
    refine ⟨by rw [hd, hBD.label, hb], ?_⟩
    refine (forall₂_comp hlines (forall₂_comp hBD.lines hlines'.flip)).imp ?_
    rintro i j ⟨l, ⟨hi, hil⟩, l', hll, hj, hjl⟩
    exact ⟨hp.sameKind hq hm hclosed hglobals hnodup (List.of_mem_zip hi).1 hil hjl hll,
      hp.sameName hq hm hi hil hj hjl hll⟩

end Relabelled

end Program

namespace Listing

variable {items items' : List Item} {p : Program} {fn fn' : Listing.Function}
  {ρ : String → String} {globals : List String} {σ : Listing.Function → String → String}

/-! ## Listings with other labels -/

/-- The labels of the function have distinct new names, which are none of its values. -/
structure Function.Admits (fn : Function) (ρ : String → String) : Prop where
  injective : (fn.blocks.map fun b => ρ b.label).Nodup
  fresh : ∀ b ∈ fn.blocks, ρ b.label ∉ fn.named

theorem Function.Closed.matched (h : fn.Closed globals) (hm : fn.Matches ρ fn')
    (hρ : fn.Admits ρ) : fn'.Closed globals := by
  have hlabels : fn'.blocks.map (·.label) = fn.blocks.map fun b => ρ b.label :=
    (map_eq_map (hm.blocks.imp fun _ _ hb => hb.label.symm)).symm
  have hline {l' : Line} (hl' : l' ∈ fn'.lines) : ∃ l ∈ fn.lines, l.Matches ρ l' :=
    exists_left_of_mem hm.lines hl'
  refine ⟨?_, fun l' hl' n hn => ?_, fun l' hl' n hn => ?_, fun l' hl' t ht => ?_⟩
  · have hnodup := h.nodup
    rw [hm.params, hm.results, hlabels]
    have hfresh : ∀ n ∈ fn.blocks.map (fun b => ρ b.label), n ∉ fn.named := by
      simpa using hρ.fresh
    rw [Function.named] at hfresh
    simp only [List.nodup_append, List.mem_append] at hnodup hfresh ⊢
    grind [hρ.injective]
  · obtain ⟨l, hl, hll⟩ := hline hl'
    rw [hll.ty]
    exact h.results l hl n (hll.result ▸ hn)
  · obtain ⟨l, hl, hll⟩ := hline hl'
    rw [hll.form, Form.blocks_map] at hn
    obtain ⟨m, hm', rfl⟩ := List.mem_map.1 hn
    obtain ⟨b, hb, rfl⟩ := List.mem_map.1 (h.labels l hl m hm')
    rw [hlabels]
    exact List.mem_map_of_mem (f := fun b : Block => ρ b.label) hb
  · obtain ⟨l, hl, hll⟩ := hline hl'
    rw [hll.form, Form.operands_map, List.map_id] at ht
    have hin := h.operands l hl t ht
    rw [← Function.named] at hin ⊢
    exact hm.named ▸ hin

theorem Function.Closed.admits_id (h : fn.Closed globals) : fn.Admits id where
  injective := (List.nodup_append.1 (List.nodup_append.1 h.nodup).1).2.1
  fresh b hb hmem := by
    have hnodup := h.nodup
    have hlabel := List.mem_map_of_mem (f := (·.label)) hb
    rw [List.nodup_append, List.nodup_append] at hnodup
    rcases List.mem_append.1 hmem with hmem | hmem
    · exact hnodup.1.2.2 _ hmem _ hlabel rfl
    · exact hnodup.2.2 _ (List.mem_append_right _ hlabel) _ hmem rfl

end Listing

namespace Program

variable {p q : Program} {items items' : List Item} {σ : Listing.Function → String → String}
  {o : Options} {file name : String} {s : List Char}

/-- The same module up to names that are made up, the labels of the functions of a listing under the
names that `σ` has for them in each. -/
structure SameUpToLabels (σ : Listing.Function → String → String) (fns : List Listing.Function)
    (p q : Program) : Prop where
  globals : q.globals = p.globals
  declarations : q.declarations = p.declarations
  functions : List.Forall₂ (fun x y => y.1 = x.1 ∧
    ∃ fn ∈ fns, fn.name = x.1 ∧ p.Relabelled (σ fn) fn.named x.2 q y.2) p.functions q.functions

end Program

namespace Listing

variable {p : Program} {items items' : List Item} {σ : Item → String → String} {name : String}

theorem toProgram_relabelled (hp : toProgram name items = .ok p)
    (h : List.Forall₂ (fun a b => a.Matches (σ a) b) items items')
    (hσ : ∀ fn ∈ items.filterMap Item.function?, fn.Admits (σ (.function fn))) :
    ∃ q, toProgram name items' = .ok q ∧
      p.SameUpToLabels (fun fn => σ (.function fn)) (items.filterMap Item.function?) q := by
  obtain ⟨hclosed, hnodup⟩ := toProgram_closed hp
  have hfns := functions_of_matches h
  have houtline := outline_eq_of_matches h { name }
  obtain ⟨q, hq⟩ : ∃ q, toProgram name items' = .ok q := by
    refine toProgram_ok (fun fn' hfn' => ?_) ?_
    · obtain ⟨fn, hfn, hm⟩ := exists_left_of_mem hfns hfn'
      rw [houtline]
      exact (hclosed fn hfn).matched hm (hσ fn hfn)
    · rwa [← map_eq_map (hfns.imp fun _ _ hm => hm.name.symm)]
  have hlp := toProgram_listed hp
  have hlq := toProgram_listed hq
  rw [houtline] at hlq
  have hglobals : q.globals = p.globals := hlq.globals.trans hlp.globals.symm
  have hkeys : (p.globals.map (·.1)).Nodup :=
    hlp.globals ▸ (outlined name items).globals_nodup
  refine ⟨q, hq, hglobals, hlq.declarations.trans hlp.declarations.symm, ?_⟩
  refine (forall₂_comp hlp.realized
    (forall₂_comp (forall₂_mem hfns) hlq.realized.flip)).imp ?_
  rintro x y ⟨fn, ⟨hx, -, hreal⟩, fn', ⟨⟨hfn, -⟩, hm⟩, hy, -, hreal'⟩
  exact ⟨by rw [hx, hy, hm.name], fn, hfn, hx.symm,
    hreal.relabelled hreal' hm (hclosed fn hfn) hglobals hkeys⟩

/-! ## Texts with other labels -/

/-- The lexeme, with the new name of the label that it is or mentions. -/
def Lexeme.rename (ρ : String → String) (x : Lexeme) : Lexeme :=
  { x with body := if x.kind = .plain then x.body else ρ x.body }

/-- The labels have new names, which are words with white space before each definition; there may be
more layout than before. -/
structure Renamed (ρ : String → String) (e e' : List Lexeme) : Prop where
  lexemes : List.Forall₂ (fun x x' => (x.rename ρ).Padded x') e e'
  words : ∀ x ∈ e', x.kind ≠ .plain → IsName x.body
  spaced : e'.IsChain fun x y => y.kind.isLabel = true → x.gap ≠ []

/-- No label but the first starts like an instruction. -/
def Untaken (e : List Lexeme) : Prop := ∀ x ∈ e, x.kind = .label false → ¬Taken x.body

theorem Renamed.moved {ρ : String → String} {e e' : List Lexeme} (h : Renamed ρ e e')
    (hfree : Untaken e') : Moved ρ e e' where
  moves := (forall₂_mem h.lexemes).imp fun x x' ⟨⟨_, hx'⟩, ins, hins, heq⟩ => by
    have hkind : x'.kind = x.kind := by rw [heq, Lexeme.rename]
    refine ⟨hkind, by rw [heq, Lexeme.rename], fun hk => ?_, ⟨ins, hins, by rw [heq]; rfl⟩,
      fun hk _ => ?_⟩
    · exact h.words x' hx' (hkind ▸ hk)
    · have hname := h.words x' hx' (by rw [hkind, hk]; nofun)
      exact not_not.1 ((not_isFree_iff hname).not.2 (hfree x' hx' (hkind.trans hk)))
  apart := by
    have hsnd : (e.zip e').map Prod.snd = e' :=
      List.map_snd_zip (Nat.le_of_eq h.lexemes.length_eq.symm)
    have hspaced := h.spaced
    rw [← hsnd, List.isChain_map] at hspaced
    exact hspaced.imp fun x y hxy hgap hlabel => absurd hgap (hxy hlabel)

/-- Nothing but names is changed. -/
theorem renamed_map {ρ : String → String} {e : List Lexeme}
    (hwords : ∀ x ∈ e, x.kind ≠ .plain → IsName (ρ x.body))
    (hspaced : e.IsChain fun x y => y.kind.isLabel = true → x.gap ≠ []) :
    Renamed ρ e (e.map (Lexeme.rename ρ)) where
  lexemes := by
    rw [List.forall₂_map_right_iff]
    exact List.forall₂_same.2 fun x _ => ⟨[], .nil, rfl⟩
  words x hx hk := by
    obtain ⟨y, hy, rfl⟩ := List.mem_map.1 hx
    have hk : y.kind ≠ .plain := hk
    simpa [Lexeme.rename, hk] using hwords y hy hk
  spaced := (List.isChain_map _).2 hspaced

/-- The labels of that function have new names, and everything else is as before. -/
def RenamedIn (fn : Function) (ρ : String → String) (items : List Item)
    (es es' : List (List Lexeme)) : Prop :=
  List.Forall₂ (fun x e' => if x.1 = .function fn then Renamed ρ x.2 e' else e' = x.2)
    (items.zip es) es'

theorem RenamedIn.movedItems {fn : Function} {ρ : String → String} {es es' : List (List Lexeme)}
    (h : RenamedIn fn ρ items es es') (hproper : ∀ x ∈ es.flatten, x.Proper)
    (hfree : ∀ x ∈ items.zip es', x.1 = .function fn → Untaken x.2) :
    MovedItems (fun item => if item = .function fn then ρ else id) items es es' := by
  refine (forall₂_place h).imp fun x e' ⟨hmem, hx⟩ => ?_
  obtain ⟨n, hn⟩ := List.mem_iff_getElem?.1 hmem
  obtain ⟨hn, he'⟩ := List.getElem?_zip_eq_some.1 hn
  obtain ⟨hitem, he⟩ := List.getElem?_zip_eq_some.1 hn
  split at hx
  · next heq =>
    simp only [if_pos heq]
    exact hx.moved (hfree (x.1, e')
      (List.mem_iff_getElem?.2 ⟨n, List.getElem?_zip_eq_some.2 ⟨hitem, he'⟩⟩) heq)
  · next heq =>
    simp only [if_neg heq, hx]
    refine moved_of_padded (fun y hy => hproper y ?_)
      (List.forall₂_same.2 fun y _ => ⟨[], .nil, rfl⟩)
    exact List.mem_flatten.2 ⟨x.2, List.mem_of_getElem? he, hy⟩

end Listing

namespace Program

variable {p : Program} {o : Options} {file name : String} {s : List Char}

/-- What is the same but for labels passes the same checks. -/
theorem SameShape.checks {q : Program} {f g : FuncId} (h : p.SameShape f q g) (hp : p.Linked)
    (hq : q.Linked) (hpt : p.Tied f) (hqt : q.Tied g) (hverify : p.verify f = [])
    (harity : (p.instructions f).flatMap (p.callProblems o f) = []) :
    q.verify g = [] ∧ (q.instructions g).flatMap (q.callProblems o g) = [] := by
  constructor
  · exact verify_eq_nil_iff.2 (h.wellFormed hp.distinct hq.distinct hpt hqt
      (fun b _ => hp.nodup.filter _) (verify_eq_nil_iff.1 hverify))
  · refine List.flatMap_eq_nil_iff.2 fun j hj => callProblems_eq_nil_iff.2 ?_
    exact h.fitsArity (fun i hi =>
      callProblems_eq_nil_iff.1 (List.flatMap_eq_nil_iff.1 harity i hi)) j hj

/-- The labels of a function may be renamed. -/
theorem load_relabelled (h : load s file o name = .ok p) :
    ∃ items front es, IsText s items front es ∧ ∀ fn ρ es', fn.Admits ρ →
      RenamedIn fn ρ items es es' → (∀ x ∈ items.zip es', x.1 = .function fn → Untaken x.2) →
        ∃ q, load (front ++ chars es'.flatten) file o name = .ok q ∧
          p.SameUpToLabels (fun fn' => if fn' = fn then ρ else id)
            (items.filterMap Item.function?) q := by
  obtain ⟨items, hlisting, hp, hverify, harity⟩ := load_ok_iff.1 h
  obtain ⟨front, es, hs, -⟩ := listing_moved (fun _ => id) hlisting
  refine ⟨items, front, es, hs, fun fn ρ es' hadmits hes' hfree => ?_⟩
  obtain ⟨front', es'', hs', hmoves⟩ :=
    listing_moved (fun item => if item = .function fn then ρ else id) hlisting
  cases hs.lexemes.symm.trans hs'.lexemes
  obtain ⟨items', hlisting', hitems'⟩ := hmoves [] es' .nil (hes'.movedItems hs.proper hfree)
  obtain ⟨q, hq, hsame⟩ := toProgram_relabelled hp hitems' fun fn' hfn' => by
    split
    · next heq =>
      cases heq
      exact hadmits
    · exact ((toProgram_closed hp).1 fn' hfn').admits_id
  have hlp := toProgram_listed hp
  have hlq := toProgram_listed hq
  have hchecks : ∀ g ∈ q.moduleFuncs, q.verify g = [] ∧
      (q.instructions g).flatMap (q.callProblems o g) = [] := by
    intro g hg
    obtain ⟨y, hy, rfl⟩ := List.mem_map.1 hg
    obtain ⟨x, hx, -, _, -, -, hxy⟩ := exists_left_of_mem hsame.functions hy
    have hx := List.mem_map_of_mem (f := Prod.snd) hx
    exact hxy.shape.checks hlp.linked hlq.linked (hlp.tied hx) (hlq.tied hg) (hverify _ hx)
      (List.flatMap_eq_nil_iff.1 harity _ hx)
  refine ⟨q, load_ok_iff.2 ⟨items', hlisting', hq, fun g hg => (hchecks g hg).1,
    List.flatMap_eq_nil_iff.2 fun g hg => (hchecks g hg).2⟩, ?_⟩
  simpa using hsame

/-- A jump to a block, past a result without a name. -/
def jumpText : String :=
  "define i64@f()\x7b e:call i64@g()br label%x x:%a=phi i64[1,%e]ret i64%a\x7d"

/-- The first label is a word of the grammar, the second a name that was made up. -/
def firstText : String := "define i64@f()\x7b unreachable:call i64@g()br label%t " ++
  "t:%a=phi i64[1,%unreachable]ret i64%a\x7d"

/-- The second label is a word of the grammar. -/
def laterText : String := "define i64@f()\x7b e:call i64@g()br label%unreachable " ++
  "unreachable:%a=phi i64[1,%e]ret i64%a\x7d"

def jumpFunction : Listing.Function :=
  ((ofText jumpText.toList).1.filterMap Item.function?).headD ⟨"", .void, [], [], 0⟩

def jumpLexemes : List Lexeme := ((lexemes jumpText.toList).map (·.1.2.flatten)).getD []

def firstNames (n : String) : String :=
  if n = "e" then "unreachable" else if n = "x" then "t" else n

def laterNames (n : String) : String := if n = "x" then "unreachable" else n

theorem exists_load_jumpText : ∃ p, load jumpText.toList = .ok p := by
  obtain ⟨p, hp, -⟩ := exists_load (s := jumpText.toList) (P := fun _ => True) (by decide +kernel)
  exact ⟨p, hp⟩

theorem isText_jumpText : IsText jumpText.toList [.function jumpFunction] [] [jumpLexemes] := by
  have h : ofText jumpText.toList = ([.function jumpFunction], []) ∧
      lexemes jumpText.toList = some (([], [jumpLexemes]), []) ∧
      jumpText.toList = [] ++ chars [jumpLexemes].flatten ∧
      ∀ x ∈ [jumpLexemes].flatten, Opens x.text ∧ (x.kind ≠ .plain → IsName x.body) := by
    decide +kernel
  obtain ⟨hread, hlexemes, heq, hproper⟩ := h
  exact ⟨hread, hlexemes, heq, by simp, fun x hx => ⟨(hproper x hx).1, (hproper x hx).2⟩⟩

/-- The labels of the jump may have these names, as far as they are no words of the grammar. -/
def Renames (ρ : String → String) (text : String) : Prop :=
  jumpFunction.Admits ρ ∧ RenamedIn jumpFunction ρ [.function jumpFunction] [jumpLexemes]
    [jumpLexemes.map (Lexeme.rename ρ)] ∧
      [] ++ chars [jumpLexemes.map (Lexeme.rename ρ)].flatten = text.toList

theorem renames_jump {ρ : String → String} {text : String}
    (h : (jumpFunction.blocks.map fun b => ρ b.label).Nodup ∧
      (∀ b ∈ jumpFunction.blocks, ρ b.label ∉ jumpFunction.named) ∧
      (∀ x ∈ jumpLexemes, x.kind ≠ .plain → IsName (ρ x.body)) ∧
      (jumpLexemes.IsChain fun x y => y.kind.isLabel = true → x.gap ≠ []) ∧
      chars (jumpLexemes.map (Lexeme.rename ρ)) = text.toList) : Renames ρ text := by
  obtain ⟨hinjective, hfresh, hwords, hspaced, htext⟩ := h
  refine ⟨⟨hinjective, hfresh⟩, .cons ?_ .nil, by simpa using htext⟩
  rw [if_pos rfl]
  dsimp only
  exact renamed_map hwords hspaced

/-- The first label may be a word of the grammar, and a label may have a name that was made up. -/
theorem load_relabelled_first : ∃ p q, load jumpText.toList = .ok p ∧
    IsText jumpText.toList [.function jumpFunction] [] [jumpLexemes] ∧
    Renames firstNames firstText ∧ Untaken (jumpLexemes.map (Lexeme.rename firstNames)) ∧
    load firstText.toList = .ok q ∧
    p.SameUpToLabels (fun fn => if fn = jumpFunction then firstNames else id) [jumpFunction] q := by
  obtain ⟨p, hp⟩ := exists_load_jumpText
  obtain ⟨hadmits, hrenamed, htext⟩ : Renames firstNames firstText :=
    renames_jump (by decide +kernel)
  have huntaken : Untaken (jumpLexemes.map (Lexeme.rename firstNames)) := by
    have hfree : ∀ x ∈ jumpLexemes.map (Lexeme.rename firstNames), x.kind = .label false →
        IsName x.body ∧ IsFree x.body := by decide +kernel
    exact fun x hx hk => (not_isFree_iff (hfree x hx hk).1).not.1 (not_not.2 (hfree x hx hk).2)
  obtain ⟨items, front, es, hs, hmoves⟩ := load_relabelled hp
  cases hs.read.symm.trans isText_jumpText.read
  cases hs.lexemes.symm.trans isText_jumpText.lexemes
  obtain ⟨q, hq, hsame⟩ := hmoves _ _ _ hadmits hrenamed (by
    rintro x hx -
    obtain rfl := List.mem_singleton.1 hx
    dsimp only
    exact huntaken)
  exact ⟨p, q, hp, hs, ⟨hadmits, hrenamed, htext⟩, huntaken, htext ▸ hq, hsame⟩

/-- A later label may not be a word of the grammar. -/
theorem not_load_relabelled : (∃ p, load jumpText.toList = .ok p) ∧
    IsText jumpText.toList [.function jumpFunction] [] [jumpLexemes] ∧
    Renames laterNames laterText ∧ ∀ q, load laterText.toList ≠ .ok q := by
  have hnone : (load laterText.toList).toOption.isNone = true := by decide +kernel
  refine ⟨exists_load_jumpText, isText_jumpText, renames_jump (by decide +kernel),
    fun q hq => ?_⟩
  rw [hq] at hnone
  cases hnone

end Program

end BoxFlow
