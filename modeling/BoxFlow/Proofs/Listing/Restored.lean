import BoxFlow.Proofs.IR.Construction
import BoxFlow.Proofs.Listing.Isomorphic
import BoxFlow.Proofs.Listing.Resolved
import BoxFlow.Proofs.Listing.Whole

/-!
# Programs that are read back

A program that comes of the listing of another is isomorphic to it: names are distinct, so what an
operand is written as stands for what is in its place (`sameValue_of_stands`). With the text being
its listing, this makes reading undo writing (`Program.Listable.load_text`).
-/

namespace BoxFlow

open Listing

/-! ## Places do not matter -/

namespace Listing

variable {p q : Program} {f : FuncId} {fn : Listing.Function} {globals : List String}

theorem Function.lines_bare (fn : Listing.Function) : fn.bare.lines = fn.lines.map Line.bare := by
  rw [Function.lines, Function.lines, List.map_flatMap]
  exact List.flatMap_map ..

theorem Function.Closed.of_bare (h : fn.bare.Closed globals) : fn.Closed globals where
  nodup := by
    have hnodup := h.nodup
    rw [Function.lines_bare, List.filterMap_map, Function.bare, List.map_map] at hnodup
    exact hnodup
  results l hl := h.results l.bare (fn.lines_bare ▸ List.mem_map_of_mem hl)
  labels l hl n hn := by
    have hmem := h.labels l.bare (fn.lines_bare ▸ List.mem_map_of_mem hl) n hn
    simpa [Function.bare, Block.bare, Function.comp_def] using hmem
  operands l hl t ht := by
    have hin := h.operands l.bare (fn.lines_bare ▸ List.mem_map_of_mem hl) t ht
    rwa [Function.lines_bare, List.filterMap_map] at hin

theorem addOutline_bare (p : Program) (item : Item) : addOutline p item.bare = addOutline p item := by
  cases item <;> rfl

theorem foldl_addOutline_bare (items : List Item) (p : Program) :
    (items.map Item.bare).foldl addOutline p = items.foldl addOutline p := by
  induction items generalizing p with
  | nil => rfl
  | cons item items ih => rw [List.map_cons, List.foldl_cons, List.foldl_cons, addOutline_bare, ih]

theorem functions_bare (items : List Item) : (items.map Item.bare).filterMap Item.function? =
    (items.filterMap Item.function?).map Function.bare := by
  induction items with
  | nil => rfl
  | cons item items ih =>
    cases item with
    | function f => exact congrArg (List.cons f.bare) ih
    | global | declaration => exact ih

theorem overlong_bare (items : List Item) : overlong (items.map Item.bare) = overlong items := by
  rw [overlong, overlong, functions_bare, List.flatMap_map]
  refine List.flatMap_congr fun fn _ => ?_
  rw [Function.lines_bare, List.flatMap_map]
  rfl

end Listing

namespace Program

variable {p q : Program} {f g : FuncId} {fn : Listing.Function} {i j : InstId} {v w : Value}

theorem IsLine.bare {l : Line} (h : p.IsLine f l i) : p.IsLine f l.bare i :=
  ⟨h.ty, h.named, h.given, h.word, h.form⟩

theorem Realizes.bare (h : p.Realizes f fn) : p.Realizes f fn.bare where
  name := h.name
  result := h.result
  params := h.params
  blocks := by
    rw [Function.bare, List.forall₂_map_right_iff]
    refine h.blocks.imp fun b B hB => ⟨hB.1, ?_⟩
    rw [Block.bare, List.forall₂_map_left_iff]
    exact hB.2.imp fun l i hl => hl.bare
  nodup := h.nodup

/-! ## Constants -/

/-- Digits after a sign stand for the number they were made of. -/
theorem signedValue_toDigits (n : Int) :
    signedValue (n < 0) (Nat.toDigits 10 n.natAbs) = n := by
  have hdigits : Decimal.ofDigits ((Nat.toDigits 10 n.natAbs).map Decimal.digitValue) = n.natAbs := by
    rw [Decimal.ofDigits, List.foldl_map]
    exact Nat.ofDigitChars_toDigits (by decide) (by decide)
  rw [signedValue, hdigits]
  split
  · next hn => rw [Int.ofNat_natAbs_of_nonpos (Int.le_of_lt (of_decide_eq_true hn)), Int.neg_neg]
  · next hn => exact Int.natAbs_of_nonneg (Int.not_lt.1 fun h => hn (decide_eq_true h))

/-! ## Operations as they are written -/

/-- The type that an operand is written with. -/
def typeIn (p : Program) (ty : Ty) (op : Op) (v : Value) : Ty :=
  if op.isPhi then ty else p.valueTy v

theorem formOf_eq (p : Program) (ty : Ty) (op : Op) :
    p.formOf ty op = op.map (fun v => ⟨p.typeIn ty op v, p.operandOf v⟩) p.label := by
  cases op <;> rfl

/-! ## What comes of the listing -/

section Restored

variable (hf : p.ListableFunc f) (h : q.Realizes g (p.functionOf f))
include h

theorem Realizes.blocks_functionOf : List.Forall₂ (fun b d => q.label d = p.label b ∧
    List.Forall₂ (fun i j => q.IsLine g (p.lineOf i) j) (p.block b).insts (q.block d).insts)
    (p.func f).blocks (q.func g).blocks := by
  have hblocks := h.blocks
  rw [functionOf, List.forall₂_map_right_iff] at hblocks
  refine (hblocks.imp fun d b hb => ⟨hb.1, ?_⟩).flip
  have hlines := hb.2
  rwa [blockOf, List.forall₂_map_left_iff] at hlines

theorem Realizes.lines_functionOf :
    List.Forall₂ (fun i j => q.IsLine g (p.lineOf i) j) (p.instructions f) (q.instructions g) :=
  forall₂_flatMap h.blocks_functionOf fun _ _ hb => hb.2

/-- A block that is written by its label is the one in the same place. -/
theorem Realizes.sameBlock_of_label {b d : BlockId} (hb : b ∈ (p.func f).blocks)
    (hd : d ∈ (q.func g).blocks) (hlabel : q.label d = p.label b) : p.SameBlock f q g b d := by
  obtain ⟨d', hd', hplace, hlabel', -⟩ :=
    exists_right_of_mem (forall₂_place h.blocks_functionOf) hb
  have hnodup : ((q.func g).blocks.map q.label).Nodup :=
    (List.nodup_append.1 (List.nodup_append.1 h.nodup).1).2.1
  obtain rfl := List.inj_on_of_nodup_map hnodup hd hd' (hlabel.trans hlabel'.symm)
  exact hplace

omit h in
/-- An instruction has the name that it is written with. -/
theorem ListableInst.name_eq (hi : p.ListableInst f i) (hl : q.IsLine g (p.lineOf i) j) :
    (q.inst j).name = (p.inst i).name := by
  cases hn : (p.inst i).name with
  | some n => exact hl.given n hn
  | none =>
    have hty := hi.named
    rw [hn, Option.isSome_none, Inst.hasResult, eq_comm, decide_eq_false_iff_not, not_not] at hty
    exact Option.not_isSome_iff_eq_none.1 fun hsome => hl.named.1 hsome hty

include hf

theorem ListableFunc.sameNames : List.Forall₂ (fun v w => q.valueName? w = p.valueName? v)
    (p.locals f) (q.locals g) := by
  refine List.rel_append ((forall₂_params h.params).imp ?_) ?_
  · rintro _ _ ⟨a, a', rfl, rfl, hname, -⟩
    exact congrArg some hname
  · rw [List.forall₂_map_left_iff, List.forall₂_map_right_iff]
    exact (forall₂_mem h.lines_functionOf).imp fun i j hij => (hf.insts i hij.1.1).name_eq hij.2

/-- Two of the same name are in the same place. -/
theorem ListableFunc.place {n : String} (hv : v ∈ p.locals f) (hvn : p.valueName? v = some n)
    (hw : w ∈ q.locals g) (hwn : q.valueName? w = some n) :
    (v, w) ∈ (p.locals f).zip (q.locals g) := by
  obtain ⟨w', hw', hplace, hname⟩ := exists_right_of_mem (forall₂_place (hf.sameNames h)) hv
  obtain rfl := eq_of_nodup_filterMap (nodup_locals h.nodup) hw hw' hwn (hname.trans hvn)
  exact hplace

/-- What an operand is written as stands for the same operand. -/
theorem ListableFunc.sameValue_of_stands {t : Typed}
    (hglobals : List.Forall₂ (fun x y => y.1 = x.1 ∧ y.2.name = x.2.name ∧ y.2.cell = x.2.cell)
      p.globals q.globals) (hnodup : (q.globals.map (·.1)).Nodup) (hv : p.Refers f v)
    (ht : t.operand = p.operandOf v) (hty : ∀ l, v = .literal l → t.ty = l.ty)
    (hs : q.Stands g t w) : p.SameValue f q g v w := by
  have hlocal {n : String} (hmem : v ∈ p.locals f) (hname : p.valueName? v = some n)
      (hn : t.operand = .named n) : p.SameValue f q g v w := by
    cases hs with
    | param ty ha =>
      obtain rfl := Operand.named.inj hn
      exact .local_ (hf.place h hmem hname (List.mem_append_left _ ha) rfl)
    | inst ty hi hwn =>
      obtain rfl := Operand.named.inj hn
      exact .local_ (hf.place h hmem hname (inst_mem_locals.2 hi) hwn)
    | _ => cases hn
  cases v with
  | literal l =>
    rw [operandOf] at ht
    cases hs <;> cases ht
    exact .literal (signedValue_toDigits _) (hty l rfl)
  | global x =>
    rw [operandOf] at ht
    cases hs with
    | @global n y ty hy =>
      obtain rfl := Operand.global.inj ht
      obtain ⟨y', hy', hplace, hname, -⟩ := exists_right_of_mem (forall₂_place hglobals) hv
      obtain rfl : y' = (x.name, y) := List.inj_on_of_nodup_map hnodup hy' hy hname
      exact .global hplace
    | _ => cases ht
  | param a => exact hlocal (List.mem_append_left _ hv) rfl ht
  | inst i =>
    have hnamed := (hf.insts i hv.1).named
    rw [Inst.hasResult, decide_eq_true hv.2] at hnamed
    obtain ⟨n, hn⟩ := Option.isSome_iff_exists.1 hnamed
    rw [operandOf, hn] at ht
    exact hlocal (inst_mem_locals.2 hv.1) hn ht

/-- The function that comes of the listing of a function is the same. -/
theorem ListableFunc.sameFunc (hown : ∀ i ∈ p.instructions f, ∀ b ∈ (p.inst i).op.blocks,
      b ∈ (p.func f).blocks)
    (hglobals : List.Forall₂ (fun x y => y.1 = x.1 ∧ y.2.name = x.2.name ∧ y.2.cell = x.2.cell)
      p.globals q.globals) (hnodup : (q.globals.map (·.1)).Nodup) : p.SameFunc f q g := by
  have hinst {i j : InstId} (hi : i ∈ p.instructions f) (hl : q.IsLine g (p.lineOf i) j) :
      p.SameInst f q g i j := by
    have hlist := hf.insts i hi
    obtain ⟨form, hform, hblocks, hrel⟩ := hl.form
    have hform : (p.inst i).op.map (fun v => ⟨p.typeIn (p.inst i).ty (p.inst i).op v,
        p.operandOf v⟩) p.label = form.map id q.label :=
      (p.formOf_eq (p.inst i).ty (p.inst i).op).symm.trans hform
    refine ⟨hl.ty, hlist.name_eq hl, .of_skeleton ?_ ?_ ?_⟩
    · rw [← hrel.skeleton, ← Form.skeleton_map id q.label form, ← hform, Form.skeleton_map]
    · have hoperands := congrArg Form.operands hform
      rw [Form.operands_map, Form.operands_map, List.map_id] at hoperands
      have hstands := hrel.operands
      rw [← hoperands, List.forall₂_map_left_iff] at hstands
      refine (forall₂_mem hstands).imp fun v w hvw => ?_
      refine hf.sameValue_of_stands h hglobals hnodup (hlist.operands v hvw.1.1) rfl ?_ hvw.2
      rintro l rfl
      dsimp only [typeIn]
      split
      · next hphi =>
        cases hop : (p.inst i).op with
        | phi incoming =>
          have hmem := hvw.1.1
          rw [hop] at hmem
          exact (hlist.phi incoming hop l hmem).symm
        | _ => rw [hop] at hphi; cases hphi
      · rfl
    · have hlabels := congrArg Form.blocks hform
      rw [Form.blocks_map, Form.blocks_map, hrel.blocks_eq] at hlabels
      rw [hrel.blocks_eq] at hblocks
      rw [← List.forall₂_eq_eq_eq, List.forall₂_map_left_iff, List.forall₂_map_right_iff] at hlabels
      exact (forall₂_mem hlabels).imp fun b d hbd =>
        h.sameBlock_of_label (hown i hi b hbd.1.1) (hblocks d hbd.1.2) hbd.2.symm
  refine ⟨h.name, h.result, h.params, (forall₂_mem h.blocks_functionOf).imp fun b d hb => ?_⟩
  obtain ⟨⟨hb, -⟩, hlabel, hlines⟩ := hb
  exact ⟨hlabel, (forall₂_mem hlines).imp fun i j hij =>
    hinst (List.mem_flatMap.2 ⟨b, hb, hij.1.1⟩) hij.2⟩

end Restored

/-! ## Listings of programs can be resolved -/

theorem Tied.own (ht : p.Tied f) (hw : p.WellFormed f) (hi : i ∈ p.instructions f) {b : BlockId}
    (hb : b ∈ (p.inst i).op.blocks) : b ∈ (p.func f).blocks := by
  cases hop : (p.inst i).op with
  | phi incoming =>
    obtain ⟨d, hd, hmem⟩ := List.mem_flatMap.1 hi
    have hsources := mem_sameMembers (d := b)
      (hw.sources d hd i (List.mem_filter.2 ⟨hmem, by rw [hop]; rfl⟩))
    exact ((ht.predecessors d hd b).1 (hsources.1 hb)).1
  | br c ts =>
    rw [hop] at hb
    exact ht.targets i hi c ts hop b hb
  | _ => rw [hop] at hb; cases hb

theorem lines_functionOf (p : Program) (f : FuncId) :
    (p.functionOf f).lines = (p.instructions f).map p.lineOf := by
  rw [Listing.Function.lines, functionOf, instructions, List.flatMap_map, List.map_flatMap]
  rfl

theorem ListableFunc.closed (hf : p.ListableFunc f) (hown : ∀ i ∈ p.instructions f,
    ∀ b ∈ (p.inst i).op.blocks, b ∈ (p.func f).blocks) :
    (p.functionOf f).Closed (p.globals.map (·.1)) where
  nodup := by
    have hnodup := hf.distinct
    rw [lines_functionOf, List.filterMap_map, functionOf, List.map_map]
    exact hnodup
  results l hl n hn := by
    rw [lines_functionOf] at hl
    obtain ⟨i, hi, rfl⟩ := List.mem_map.1 hl
    have hnamed := (hf.insts i hi).named
    rw [show (p.inst i).name = some n from hn, Option.isSome_some, Inst.hasResult, eq_comm,
      decide_eq_true_iff] at hnamed
    exact hnamed
  labels l hl n hn := by
    rw [lines_functionOf] at hl
    obtain ⟨i, hi, rfl⟩ := List.mem_map.1 hl
    rw [lineOf, formOf_eq, Form.blocks_map] at hn
    obtain ⟨b, hb, rfl⟩ := List.mem_map.1 hn
    rw [functionOf, List.map_map]
    exact List.mem_map_of_mem (f := p.label) (hown i hi b hb)
  operands l hl t ht := by
    rw [lines_functionOf] at hl
    obtain ⟨i, hi, rfl⟩ := List.mem_map.1 hl
    rw [lineOf, formOf_eq, Form.operands_map] at ht
    obtain ⟨v, hv, rfl⟩ := List.mem_map.1 ht
    have hrefers := (hf.insts i hi).operands v hv
    have hin {n : String} (hmem : v ∈ p.locals f) (hn : p.valueName? v = some n) :
        n ∈ (p.functionOf f).params.map (·.2) ++ (p.functionOf f).lines.filterMap (·.result) := by
      have hname := List.mem_filterMap.2 ⟨v, hmem, hn⟩
      rw [filterMap_locals] at hname
      rw [lines_functionOf, List.filterMap_map]
      exact hname
    cases v with
    | literal l => exact trivial
    | global g => exact List.mem_map_of_mem (f := Prod.fst) hrefers
    | param a => exact hin (List.mem_append_left _ hrefers) rfl
    | inst j =>
      have hnamed := (hf.insts j hrefers.1).named
      rw [Inst.hasResult, decide_eq_true hrefers.2] at hnamed
      obtain ⟨n, hn⟩ := Option.isSome_iff_exists.1 hnamed
      rw [operandOf, hn]
      exact hin (inst_mem_locals.2 hrefers.1) hn

theorem functions_items (p : Program) :
    p.items.filterMap Item.function? = p.moduleFuncs.map p.functionOf := by
  simp [items, Item.function?, Function.comp_def]

/-- No constant is too long to be read. -/
theorem Listable.overlong_items (h : p.Listable) : overlong p.items = [] := by
  rw [overlong, functions_items, List.flatMap_map, List.flatMap_eq_nil_iff]
  intro f hf
  rw [lines_functionOf, List.flatMap_map, List.flatMap_eq_nil_iff]
  intro i hi
  rw [List.filterMap_eq_nil_iff]
  intro t ht
  rw [lineOf, formOf_eq, Form.operands_map] at ht
  obtain ⟨v, hv, rfl⟩ := List.mem_map.1 ht
  have hrefers := ((h.funcs f hf).insts i hi).operands v hv
  cases v with
  | literal l =>
    dsimp only [operandOf]
    rw [Decimal.ofSignDigits, if_neg (Nat.not_lt.2 hrefers)]
  | _ => rfl

end Program

/-! ## Outlines -/

namespace Listing

variable {p q o : Program} {f : FuncId} {fns : List Listing.Function}

theorem foldl_global (gs : Keyed Global) (o : Program)
    (hnodup : (o.globals.map (·.1) ++ gs.map (·.1)).Nodup) (hname : ∀ g ∈ gs, g.2.name = g.1) :
    ∃ zs, ((gs.map fun (_, g) => Item.global g.name g.cell).foldl addOutline o).globals =
        o.globals ++ zs ∧
      ((gs.map fun (_, g) => Item.global g.name g.cell).foldl addOutline o).declarations =
        o.declarations ∧
      List.Forall₂ (fun x y => y.1 = x.1 ∧ y.2.name = x.2.name ∧ y.2.cell = x.2.cell) gs zs := by
  induction gs generalizing o with
  | nil => exact ⟨[], by simp, rfl, .nil⟩
  | cons g gs ih =>
    obtain ⟨n, g⟩ := g
    obtain rfl : g.name = n := hname _ List.mem_cons_self
    have hnew : g.name ∉ o.globals.map (·.1) := fun hmem =>
      (List.nodup_append.1 hnodup).2.2 _ hmem _ List.mem_cons_self rfl
    have hglobals : (addOutline o (.global g.name g.cell)).globals = o.globals ++
        [(g.name, { serial := o.nextSerial, name := g.name, cell := g.cell })] :=
      Keyed.put_of_not_mem hnew
    obtain ⟨zs, hzs, hdeclarations, hrel⟩ := ih (addOutline o (.global g.name g.cell))
      (by rw [hglobals]; simpa using hnodup) fun g hg => hname g (List.mem_cons_of_mem _ hg)
    exact ⟨(g.name, { serial := o.nextSerial, name := g.name, cell := g.cell }) :: zs,
      by rw [List.map_cons, List.foldl_cons, hzs, hglobals, List.append_assoc]; rfl,
      hdeclarations, .cons ⟨rfl, rfl, rfl⟩ hrel⟩

theorem foldl_declaration (ds : Keyed (Ty × List Ty)) (o : Program)
    (hnodup : (o.declarations.map (·.1) ++ ds.map (·.1)).Nodup) :
    ((ds.map fun (n, r, ps) => Item.declaration n r ps).foldl addOutline o).globals = o.globals ∧
      ((ds.map fun (n, r, ps) => Item.declaration n r ps).foldl addOutline o).declarations =
        o.declarations ++ ds := by
  induction ds generalizing o with
  | nil => exact ⟨rfl, by simp⟩
  | cons d ds ih =>
    obtain ⟨n, r, ps⟩ := d
    have hnew : n ∉ o.declarations.map (·.1) := fun hmem =>
      (List.nodup_append.1 hnodup).2.2 _ hmem _ List.mem_cons_self rfl
    have hdeclarations : (addOutline o (.declaration n r ps)).declarations =
        o.declarations ++ [(n, r, ps)] := Keyed.put_of_not_mem hnew
    obtain ⟨hglobals, hds⟩ := ih (addOutline o (.declaration n r ps))
      (by rw [hdeclarations]; simpa using hnodup)
    exact ⟨hglobals, by
      rw [List.map_cons, List.foldl_cons, hds, hdeclarations, List.append_assoc]; rfl⟩

theorem foldl_function (fns : List Listing.Function) (o : Program) :
    (fns.map Item.function).foldl addOutline o = o := by
  induction fns with
  | nil => rfl
  | cons fn fns ih => exact ih

/-- The outline of a program has its globals and declarations. -/
theorem outline_items (h : p.Listable) (name : String) :
    List.Forall₂ (fun x y => y.1 = x.1 ∧ y.2.name = x.2.name ∧ y.2.cell = x.2.cell)
      p.globals (p.items.foldl addOutline { name }).globals ∧
    (p.items.foldl addOutline { name }).declarations = p.declarations := by
  obtain ⟨zs, hzs, hnone, hrel⟩ := foldl_global p.globals { name }
    (by simpa using h.globals_nodup) fun g hg => (h.globals g hg).1
  obtain ⟨hglobals, hdeclarations⟩ := foldl_declaration p.declarations
    ((p.globals.map fun (_, g) => Item.global g.name g.cell).foldl addOutline { name })
    (by rw [hnone]; simpa using h.declarations_nodup)
  have hfunctions : p.moduleFuncs.map (fun f => Item.function (p.functionOf f)) =
      (p.moduleFuncs.map p.functionOf).map Item.function := by simp
  rw [Program.items, List.foldl_append, List.foldl_append, hfunctions, foldl_function, hglobals,
    hdeclarations, hzs, hnone]
  exact ⟨hrel, rfl⟩

/-- What has come of a listing has the edges of its branches. -/
theorem Listed.tied (h : Listed o fns p) (hf : f ∈ p.moduleFuncs) : p.Tied f := by
  obtain ⟨x, hx, rfl⟩ := List.mem_map.1 hf
  obtain ⟨fn, -, -, -, hreal⟩ := exists_right_of_mem h.realized hx
  refine ⟨fun i hi c ts hop t ht => ?_, fun b _ => h.linked.nodup.filter _, fun b hb d => ?_⟩
  · obtain ⟨l, -, hl⟩ := hreal.isLine hi
    obtain ⟨form, -, hblocks, hrel⟩ := hl.form
    refine hblocks t ?_
    rw [hrel.blocks_eq, hop]
    exact ht
  · rw [h.linked.mem_predecessorBlocks_iff, Program.successorBlocks, List.mem_map]
    have hedges {d : BlockId} (hd : d ∈ (p.func x.2).blocks) :
        (∃ e ∈ (p.block d).successors, e.target = b) ↔ ∃ i ∈ (p.block d).insts,
          ∃ e ∈ Program.branchEdges d (p.inst i).op, e.target = b := by
      simp only [h.linked.edges hd]
      grind
    constructor
    · rintro ⟨e, he, htarget⟩
      have hlt : d < p.blocks.size := by
        refine Nat.lt_of_not_le fun hge => ?_
        rw [Program.block, Array.getD_eq_getD_getElem?, Array.getElem?_eq_none hge] at he
        cases he
      obtain ⟨f, hd⟩ := h.owned d hlt
      have hb' : b ∈ (p.func f).blocks := htarget ▸ h.linked.within hd he
      obtain rfl : f = x.2 := Option.some.inj ((h.linked.parent hb').symm.trans (h.linked.parent hb))
      exact ⟨hd, (hedges hd).1 ⟨e, he, htarget⟩⟩
    · rintro ⟨hd, hi⟩
      exact (hedges hd).2 hi

end Listing

namespace Program

variable {p : Program} {o : Options}

/-! ## Reading undoes writing -/

/-- The phis of a block have names, which are distinct. -/
theorem ListableFunc.nodup_phis {f : FuncId} {b : BlockId} (hf : p.ListableFunc f)
    (hb : b ∈ (p.func f).blocks) : (p.phis b).Nodup := by
  have hsub : (p.phis b).Sublist (p.instructions f) := by
    refine List.filter_sublist.trans ?_
    rw [instructions, List.flatMap_def]
    exact List.sublist_flatten_of_mem (List.mem_map_of_mem hb)
  refine nodup_of_filterMap ((List.nodup_append.1 hf.distinct).2.1.sublist (hsub.filterMap _))
    fun i hi => ?_
  have hlist := hf.insts i (hsub.subset hi)
  have hty : (p.inst i).ty ≠ .void := by
    have hphi := (List.mem_filter.1 hi).2
    have hfits := hlist.fits
    cases hop : (p.inst i).op with
    | phi incoming =>
      rw [hop] at hfits
      exact hfits.1
    | _ => rw [hop] at hphi; cases hphi
  rw [hlist.named, Inst.hasResult, decide_eq_true hty]

/-- What comes of the listing of a program is the same program. -/
theorem Listable.isomorphic {q : Program} {name : String} (h : p.Listable)
    (ht : ∀ f ∈ p.moduleFuncs, p.Tied f) {items : List Item} (hitems : items.map Item.bare = p.items)
    (hq : toProgram name items = .ok q) : p.Isomorphic q := by
  have hlisted := toProgram_listed hq
  have hrealized := hlisted.realized
  rw [← foldl_addOutline_bare, hitems] at hlisted
  obtain ⟨hglobals, hdeclarations⟩ := outline_items h name
  rw [← hlisted.globals] at hglobals
  have hfuncs : List.Forall₂ (fun y x => y.1 = (p.func x.2).name ∧
      q.Realizes y.2 (p.functionOf x.2)) q.functions p.functions := by
    have hbare : List.Forall₂ (fun y fn => y.1 = fn.name ∧ q.Realizes y.2 fn) q.functions
        ((items.filterMap Item.function?).map Function.bare) := by
      rw [List.forall₂_map_right_iff]
      exact hrealized.imp fun y fn hy => ⟨hy.1, hy.2.2.bare⟩
    rw [← functions_bare, hitems, functions_items, moduleFuncs, List.map_map,
      List.forall₂_map_right_iff] at hbare
    exact hbare
  refine ⟨hglobals, hlisted.declarations.trans hdeclarations, (forall₂_mem hfuncs).flip.imp ?_⟩
  rintro x y ⟨⟨-, hx⟩, hname, hreal⟩
  have hf := h.funcs x.2 (List.mem_map_of_mem hx)
  refine ⟨hname.trans (h.functions x hx), hf.sameFunc hreal (fun i hi b hb => ?_) hglobals ?_⟩
  · exact (ht x.2 (List.mem_map_of_mem hx)).own (verify_eq_nil_iff.1 hf.verified) hi hb
  · rw [hlisted.globals]
    exact (outlined name p.items).globals_nodup

/-- Loading the text of a program gives the same program, as long as it can be written down, its
edges are those of its branches and its operations have what they take. -/
theorem Listable.load_text (h : p.Listable) (ht : ∀ f ∈ p.moduleFuncs, p.Tied f)
    (harity : p.arityProblems o = []) (file name : String) :
    ∃ q, load p.text.toList file o name = .ok q ∧ p.Isomorphic q := by
  obtain ⟨items, htext, hitems⟩ := h.ofText_text
  have hlisting : listing p.text.toList = .ok items := by
    have hoverlong : overlong items = [] := by rw [← overlong_bare, hitems, h.overlong_items]
    simp only [listing, htext, hoverlong]
  generalize hmodule : (if name.isEmpty then "module" else name) = module
  have hbare : (items.filterMap Item.function?).map Function.bare =
      p.moduleFuncs.map p.functionOf := by rw [← functions_bare, hitems, functions_items]
  obtain ⟨q, hq⟩ : ∃ q, toProgram module items = .ok q := by
    refine toProgram_ok (fun fn hfn => .of_bare ?_) ?_
    · have hmem := List.mem_map_of_mem (f := Function.bare) hfn
      rw [hbare] at hmem
      obtain ⟨f, hf, heq⟩ := List.mem_map.1 hmem
      have hfunc := h.funcs f hf
      have hkeys : (items.foldl addOutline { name := module }).globals.map (·.1) =
          p.globals.map (·.1) := by
        rw [← foldl_addOutline_bare, hitems]
        exact (map_eq_map ((outline_items h module).1.imp fun _ _ hx => hx.1.symm)).symm
      rw [← heq, hkeys]
      exact hfunc.closed fun i hi b hb =>
        (ht f hf).own (verify_eq_nil_iff.1 hfunc.verified) hi hb
    · have hnames : (items.filterMap Item.function?).map (·.name) = p.functions.map (·.1) := by
        have hmap := congrArg (List.map Function.name) hbare
        rw [List.map_map, moduleFuncs, List.map_map, List.map_map] at hmap
        exact hmap.trans (List.map_congr_left fun x hx => h.functions x hx)
      rw [hnames]
      exact h.functions_nodup
  have hiso := h.isomorphic ht hitems hq
  have hsame {g : FuncId} (hg : g ∈ q.moduleFuncs) :
      ∃ f ∈ p.moduleFuncs, p.SameFunc f q g := by
    obtain ⟨y, hy, rfl⟩ := List.mem_map.1 hg
    obtain ⟨x, hx, -, hxy⟩ := exists_left_of_mem hiso.functions hy
    exact ⟨x.2, List.mem_map_of_mem hx, hxy⟩
  refine ⟨q, load_ok_iff.2 ⟨items, hlisting, hmodule ▸ hq, fun g hg => ?_, ?_⟩, hiso⟩
  · obtain ⟨f, hf, hfg⟩ := hsame hg
    have hfunc := h.funcs f hf
    exact verify_eq_nil_iff.2 (hfg.wellFormed hfunc.distinct (ht f hf)
      ((toProgram_listed hq).tied hg) (fun b hb => hfunc.nodup_phis hb)
      (verify_eq_nil_iff.1 hfunc.verified))
  · refine List.flatMap_eq_nil_iff.2 fun g hg => List.flatMap_eq_nil_iff.2 fun j hj => ?_
    obtain ⟨f, hf, hfg⟩ := hsame hg
    refine callProblems_eq_nil_iff.2 (hfg.shape.fitsArity (fun i hi => ?_) j hj)
    exact callProblems_eq_nil_iff.1
      (List.flatMap_eq_nil_iff.1 (List.flatMap_eq_nil_iff.1 harity f hf) i hi)

/-! ## Modules that are not read back -/

/-- A module with one function, which has no parameters and only jumps and returns in it. -/
structure Plain (p : Program) : Prop where
  module : p.globals = [] ∧ p.declarations = [] ∧ p.functions = [("f", 0)]
  func : (p.func 0).name = "f" ∧ (p.func 0).params = []
  labels : ∀ b ∈ (p.func 0).blocks, IsName (p.label b)
  later : ∀ b ∈ (p.func 0).blocks.tail, instruction ((p.label b).toList ++ [':']) = none
  distinct : ((p.func 0).blocks.map p.label).Nodup
  insts : ∀ i ∈ p.instructions 0, (p.inst i).ty = .void ∧ (p.inst i).name = none ∧
    ((p.inst i).op = .ret none ∨
      ∃ b ∈ (p.inst i).op.blocks, (p.inst i).op = .br none [b] ∧ IsName (p.label b))
  verified : p.verify 0 = []

instance (p : Program) : Decidable p.Plain :=
  decidable_of_iff (_ ∧ _ ∧ _ ∧ _ ∧ _ ∧ _ ∧ _)
    ⟨fun ⟨a, b, c, d, e, f, g⟩ => ⟨a, b, c, d, e, f, g⟩, fun ⟨a, b, c, d, e, f, g⟩ =>
      ⟨a, b, c, d, e, f, g⟩⟩

theorem Plain.listable (h : p.Plain) : p.Listable := by
  obtain ⟨⟨hglobals, hdeclarations, hfunctions⟩, ⟨hname, hparams⟩, hlabels, hlater, hdistinct,
    hinsts, hverify⟩ := h
  have hinst (i : InstId) (hi : i ∈ p.instructions 0) : p.ListableInst 0 i := by
    obtain ⟨hty, hnone, hop⟩ := hinsts i hi
    refine ⟨by rw [hnone, Inst.hasResult, hty]; rfl, by simp [hnone], ?_, ?_, ?_, ?_, ?_, ?_, ?_⟩
    all_goals
      obtain hop | ⟨b, -, hop, hb⟩ := hop
      all_goals simp_all [Form.Fits, Form.callee?, Form.operands, Form.blocks]
  have hresults : (p.instructions 0).filterMap (fun i => (p.inst i).name) = [] :=
    List.filterMap_eq_nil_iff.2 fun i hi => (hinsts i hi).2.1
  have hf : p.ListableFunc 0 :=
    ⟨by rw [hname]; decide, by simp [hparams], hlabels, hlater,
      by simpa [localNames, hparams, hresults] using hdistinct, hverify, hinst⟩
  exact ⟨by simp [hglobals], by simp [hglobals], by simp [hdeclarations], by simp [hdeclarations],
    by simp [hfunctions, hname], by simp [hfunctions], by simpa [moduleFuncs, hfunctions] using hf⟩

open BuildStep

/-- A jump to another block. -/
def plainJump : Program := run { name := "module" }
  [function "f" .void [] true, .block 0 "e", .block 0 "x",
    insert { block := 0 } (.br none [1]) .void none, insert { block := 1 } (.ret none) .void none]

theorem load_text_plainJump : plainJump.Listable ∧ (∀ f ∈ plainJump.moduleFuncs, plainJump.Tied f) ∧
    plainJump.arityProblems {} = [] ∧
    ∃ q, load plainJump.text.toList = .ok q ∧ plainJump.Isomorphic q := by
  have h : plainJump.Plain := by decide +kernel
  have htied : plainJump.Tied 0 :=
    { targets := fun i hi c ts hop t ht => by
        have hblocks : ∀ i ∈ plainJump.instructions 0, ∀ t ∈ (plainJump.inst i).op.blocks,
            t ∈ (plainJump.func 0).blocks := by decide +kernel
        exact hblocks i hi t (by rwa [hop])
      once := by decide +kernel
      predecessors := fun b hb d => by
        have hof : ∀ b ∈ (plainJump.func 0).blocks, ∀ d ∈ plainJump.predecessorBlocks b,
            d ∈ (plainJump.func 0).blocks ∧ ∃ i ∈ (plainJump.block d).insts,
              ∃ e ∈ branchEdges d (plainJump.inst i).op, e.target = b := by decide +kernel
        have hto : ∀ b ∈ (plainJump.func 0).blocks, ∀ d ∈ (plainJump.func 0).blocks,
            (∃ i ∈ (plainJump.block d).insts,
              ∃ e ∈ branchEdges d (plainJump.inst i).op, e.target = b) →
            d ∈ plainJump.predecessorBlocks b := by decide +kernel
        exact ⟨hof b hb d, fun hd => hto b hb d hd.1 hd.2⟩ }
  have hfuncs : plainJump.moduleFuncs = [0] := by decide +kernel
  have ht : ∀ f ∈ plainJump.moduleFuncs, plainJump.Tied f := by simpa [hfuncs] using htied
  have harity : plainJump.arityProblems {} = [] := by decide +kernel
  exact ⟨h.listable, ht, harity, h.listable.load_text ht harity "<input>" "module"⟩

/-- A jump to a block that is in no function. -/
def strayJump : Program := run { name := "module" }
  [function "f" .void [] true, .block 0 "e", looseBlock "x",
    insert { block := 0 } (.br none [1]) .void none]

/-- A jump of the entry to itself, put in before a return that is then taken out. -/
def bareLoop : Program := run { name := "module" }
  [function "f" .void [] true, .block 0 "e", insert { block := 0 } (.ret none) .void none,
    insert { block := 0, anchor := some 0 } (.br none [0]) .void none, erase 0]

/-- A return that is put into its block twice. -/
def doubleReturn : Program := (run { name := "module" }
  [function "f" .void [] true, .block 0 "e", insert { block := 0 } (.ret none) .void none]).append 0 0

/-- A module without parameters and operands that can be written down, but whose text is not
accepted. -/
def Lost (p : Program) : Prop :=
  p.Listable ∧ (p.func 0).params = [] ∧ (∀ i ∈ p.instructions 0, (p.inst i).op.operands = []) ∧
    p.arityProblems {} = [] ∧ ∀ q, load p.text.toList ≠ .ok q

/-- Modules are not read back if their branches leave the function, if their edges are not those of
their branches or if a block has a terminator twice. -/
theorem not_load_text : strayJump.Lost ∧ bareLoop.Lost ∧ doubleReturn.Lost := by
  have hlost {p : Program} (h : p.Plain) (harity : p.arityProblems {} = [])
      (hrejected : (load p.text.toList).toOption.isNone = true) : p.Lost := by
    refine ⟨h.listable, h.func.2, fun i hi => ?_, harity, fun q hq => ?_⟩
    · obtain ⟨-, -, hop | ⟨b, -, hop, -⟩⟩ := h.insts i hi
      all_goals rw [hop]; rfl
    · rw [hq] at hrejected
      cases hrejected
  exact ⟨hlost (by decide +kernel) (by decide +kernel) (by decide +kernel),
    hlost (by decide +kernel) (by decide +kernel) (by decide +kernel),
    hlost (by decide +kernel) (by decide +kernel) (by decide +kernel)⟩

end Program

end BoxFlow
