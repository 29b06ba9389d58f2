import BoxFlow.Proofs.Listing.Realized

/-!
# Listings that are resolved

The program that comes of a listing realizes its functions, one after the other
(`toProgram_listed`). One does come of it if every function is closed (`toProgram_ok`), and only then
(`toProgram_closed`).
-/

namespace BoxFlow.Listing

variable {o p q : Program} {fn : Function} {fns : List Function} {globals : List String}

/-! ## Functions that can be built -/

/-- The name that the operand is, if it is one, is among these. -/
def Operand.In (locals globals : List String) : Operand → Prop
  | .named n => n ∈ locals
  | .global n => n ∈ globals
  | .integer .. => True

/-- The names in the function are distinct, and what it refers to is in it or in the module. -/
structure Function.Closed (globals : List String) (fn : Function) : Prop where
  nodup : (fn.params.map (·.2) ++ fn.blocks.map (·.label) ++ fn.lines.filterMap (·.result)).Nodup
  results : ∀ l ∈ fn.lines, ∀ n ∈ l.result, l.ty ≠ .void
  labels : ∀ l ∈ fn.lines, ∀ n ∈ l.form.blocks, n ∈ fn.blocks.map (·.label)
  operands : ∀ l ∈ fn.lines, ∀ t ∈ l.form.operands,
    t.operand.In (fn.params.map (·.2) ++ fn.lines.filterMap (·.result)) globals

theorem Known.of_in {scope : Scope} {known : Keyed Global} {t : Typed}
    (h : t.operand.In (scope.values.map (·.1)) (known.map (·.1))) : Known scope known t := by
  rw [Known]
  unfold Operand.In at h
  split at h
  · next n hn =>
    rw [hn]
    exact Option.isSome_iff_ne_none.2 fun hnone => Keyed.lookup_eq_none.1 hnone h
  · next n hn =>
    rw [hn]
    exact Option.isSome_iff_ne_none.2 fun hnone => Keyed.lookup_eq_none.1 hnone h
  · next hn =>
    rw [hn]
    trivial

theorem map_snd_placedLines (labels : Keyed BlockId) (fn : Function) :
    (placedLines labels fn).map (·.2) = fn.lines := by
  rw [placedLines, Function.lines, List.map_flatMap]
  refine List.flatMap_congr fun b _ => ?_
  rw [List.map_map]
  exact List.map_id _

theorem results_placedLines (labels : Keyed BlockId) (fn : Function) :
    (placedLines labels fn).filterMap (·.2.result) = fn.lines.filterMap (·.result) := by
  rw [← map_snd_placedLines labels fn, List.filterMap_map]
  rfl

theorem buildFunction_ok (h : fn.Closed (p.globals.map (·.1))) : ∃ q, buildFunction p fn = .ok q := by
  have hnodup := List.nodup_append.1 h.nodup
  have hstart := Labelled.newFunc p fn (List.nodup_append.1 hnodup.1).1
  obtain ⟨start, q₁, h₁⟩ := hstart.run_ok fn.blocks hnodup.1
  have hl : Labelled p fn fn.blocks start q₁ := hstart.run h₁
  obtain ⟨hclaimed, hd⟩ := hl.drafted
    ((fn.lines.filterMap (·.result)).foldl (·.claimName p.funcs.size ·) q₁).insts.size
    (fn.lines.filterMap (·.result))
  have hsize : p.funcs.size < ((fn.lines.filterMap (·.result)).foldl
      (·.claimName p.funcs.size ·) q₁).funcs.size := by
    rw [hclaimed.funcs_size, hl.funcs_size]
    exact Nat.lt_succ_self _
  have hline {x : BlockId × Line} (hx : x ∈ placedLines start.labels fn) : x.2 ∈ fn.lines :=
    map_snd_placedLines start.labels fn ▸ List.mem_map_of_mem hx
  obtain ⟨⟨drafts, scope, q₃⟩, h₃⟩ := hd.run_ok [] (placedLines start.labels fn) hsize
    (fun x hx n hn => by
      have hlabel := h.labels _ (hline hx) n hn
      rw [← hl.keys_labels] at hlabel
      exact Option.isSome_iff_ne_none.2 fun hnone => Keyed.lookup_eq_none.1 hnone hlabel)
    (fun x hx n hn => ⟨mem_results hx n hn, h.results _ (hline hx) n hn⟩)
    (by rw [List.nil_append, results_placedLines, hl.keys_values, hl.keys_labels]; exact h.nodup)
  have hd := hd.run hsize h₃ fun x hx => mem_results hx
  obtain ⟨hplaced, hnew⟩ := hl.placed (hclaimed.trans hd.looks) scope
  have hblocks := (Func.of_shown ((hclaimed.trans hd.looks).func p.funcs.size)).2.2.2
  obtain ⟨q, h₄⟩ := hplaced.run_ok drafts hnew
    (fun d hmem => by rw [hblocks]; exact hl.draft_block hd.drafts d hmem)
    (fun d hmem t ht => by
      obtain ⟨x, hx, hdraft⟩ := exists_left_of_mem hd.drafts hmem
      rw [hdraft.form, Form.operands_map, List.map_id] at ht
      have hin := h.operands _ (hline hx) t ht
      have hvalues : scope.values.map (·.1) =
          fn.params.map (·.2) ++ fn.lines.filterMap (·.result) := by
        rw [hd.values, List.map_append, keys_resultValues, hl.keys_values, List.nil_append,
          results_placedLines]
      have hglobals : q₃.globals = p.globals :=
        (hclaimed.trans hd.looks).globals.trans hl.grown.globals
      rw [← hvalues, ← hglobals] at hin
      exact .of_in hin)
  refine ⟨q, ?_⟩
  unfold buildFunction
  dsimp only
  rw [bind_eq_ok]
  refine ⟨_, h₁, ?_⟩
  rw [bind_eq_ok]
  exact ⟨_, h₃, h₄⟩

/-- What is chosen of some elements is in its order among what is chosen of those beside them. -/
theorem sublist_filterMap {α β γ : Type} {k : α → Option γ} {k' : β → Option γ} {xs : List α}
    {zs : List β} (h : List.Forall₂ (fun x z => ∀ c ∈ k x, k' z = some c) xs zs) :
    (xs.filterMap k).Sublist (zs.filterMap k') := by
  induction h with
  | nil => exact .slnil
  | @cons x z xs zs hxz _ ih =>
    cases hx : k x with
    | some c =>
      rw [List.filterMap_cons_some hx, List.filterMap_cons_some (hxz c hx)]
      exact ih.cons_cons c
    | none =>
      rw [List.filterMap_cons_none hx]
      exact ih.trans ((List.sublist_cons_self z zs).filterMap k')

/-- A function that has been built is closed. -/
theorem Built.closed {start scope : Scope} {drafts : List Draft} {q₁ q₂ q₃ : Program}
    (h : Built p fn start scope drafts q₁ q₂ q₃ q) : fn.Closed (p.globals.map (·.1)) := by
  have hdraft {l : Line} (hl : l ∈ fn.lines) : ∃ x z, x.2 = l ∧ IsDraft start.labels x z.1 ∧
      z ∈ drafts.zipIdx q₃.insts.size := by
    rw [← map_snd_placedLines start.labels fn] at hl
    obtain ⟨x, hx, rfl⟩ := List.mem_map.1 hl
    obtain ⟨z, -, hd, hz⟩ := exists_right_of_mem h.forall₂_drafts hx
    exact ⟨x, z, rfl, hd, hz⟩
  have hvalues : scope.values.map (·.1) =
      fn.params.map (·.2) ++ fn.lines.filterMap (·.result) := by
    rw [h.drafted.values, List.map_append, keys_resultValues, h.labelled.keys_values,
      results_placedLines]
  have hglobals : q₃.globals = p.globals :=
    (h.placed.globals.symm.trans h.placed.grown.globals)
  refine ⟨?_, fun l hl n hn => ?_, fun l hl n hn => ?_, fun l hl t ht => ?_⟩
  · have hnodup := h.drafted.nodup
    rw [h.labelled.keys_values, h.labelled.keys_labels] at hnodup
    rw [← results_placedLines start.labels fn]
    have hsublist := sublist_filterMap (h.drafted.drafts.imp fun _ _ hd => hd.given)
    exact hnodup.sublist (hsublist.append_left _)
  · obtain ⟨x, z, rfl, hd, -⟩ := hdraft hl
    exact hd.named.1 (by rw [hd.given n hn]; rfl)
  · obtain ⟨x, z, rfl, hd, -⟩ := hdraft hl
    rw [← h.labelled.keys_labels]
    by_contra hnot
    have hknown := hd.known n hn
    rw [Keyed.lookup_eq_none.2 hnot] at hknown
    cases hknown
  · obtain ⟨x, z, rfl, hd, hz⟩ := hdraft hl
    obtain ⟨-, -, -, hrel⟩ := h.inst_of_mem hz
    rw [← List.map_id x.2.form.operands, ← Form.operands_map, ← hd.form] at ht
    obtain ⟨v, -, hv⟩ := exists_right_of_mem hrel.operands ht
    unfold Means at hv
    unfold Operand.In
    rw [← hvalues, ← hglobals]
    split at hv
    · next heq => rw [heq]; trivial
    · next n heq =>
      rw [heq]
      obtain ⟨g, hg, -⟩ := hv
      exact List.mem_map_of_mem (f := Prod.fst) (Keyed.mem_of_lookup hg)
    · next n heq =>
      rw [heq]
      exact List.mem_map_of_mem (f := Prod.fst) (Keyed.mem_of_lookup hv)

/-! ## One function after the other -/

/-- The program holds the functions of a listing, in their order, next to what an outline has. -/
structure Listed (o : Program) (fns : List Function) (p : Program) : Prop where
  linked : p.Linked
  globals : p.globals = o.globals
  declarations : p.declarations = o.declarations
  nodup : (p.functions.map (·.1)).Nodup
  realized : List.Forall₂ (fun x fn => x.1 = fn.name ∧ x.2 < p.funcs.size ∧ p.Realizes x.2 fn)
    p.functions fns
  owned : ∀ b < p.blocks.size, ∃ f, b ∈ (p.func f).blocks

namespace Listed

theorem keys (h : Listed o fns p) : p.functions.map (·.1) = fns.map (·.name) :=
  map_eq_map (h.realized.imp fun _ _ hx => hx.1)

theorem nodup_moduleFuncs (h : Listed o fns p) : p.moduleFuncs.Nodup := by
  have hnames : p.moduleFuncs.map (fun f => (p.func f).name) = p.functions.map (·.1) := by
    rw [Program.moduleFuncs, List.map_map]
    refine List.map_congr_left fun x hx => ?_
    obtain ⟨fn, -, hname, -, hreal⟩ := exists_right_of_mem h.realized hx
    exact hreal.name.trans hname.symm
  exact .of_map _ (hnames ▸ h.nodup)

theorem step (h : Listed o fns p) (hstep : addFunction p fn = .ok q) :
    Listed o (fns ++ [fn]) q := by
  unfold addFunction at hstep
  split at hstep
  · cases hstep
  next hnone =>
  rw [Option.not_isSome_iff_eq_none, Keyed.lookup_eq_none] at hnone
  split at hstep
  case isFalse => cases hstep
  next hparams =>
  obtain ⟨start, scope, drafts, q₁, q₂, q₃, hb⟩ := exists_built hstep h.linked hparams
  have hgrown : p.Extends q := hb.placed.grown
  have hfunctions : q.functions = p.functions ++ [(fn.name, p.funcs.size)] :=
    hb.functions_eq.trans (Keyed.put_of_not_mem hnone)
  refine ⟨hb.linked, hgrown.globals.trans h.globals, hgrown.declarations.trans h.declarations,
    ?_, ?_, fun b hlt => ?_⟩
  · rw [hfunctions, List.map_append]
    exact h.nodup.append (List.nodup_singleton _) (List.disjoint_singleton.2 hnone)
  · rw [hfunctions, hb.funcs_size_eq]
    refine List.rel_append (h.realized.imp fun x fn hx => ?_)
      (.cons ⟨rfl, Nat.lt_succ_self _, hb.realizes⟩ .nil)
    obtain ⟨hname, hlt, hreal⟩ := hx
    exact ⟨hname, Nat.lt_succ_of_lt hlt, hreal.mono hgrown h.linked hlt⟩
  · rcases Nat.lt_or_ge b p.blocks.size with hold | hnew
    · obtain ⟨f, hf⟩ := h.owned b hold
      exact ⟨f, (Func.of_shown (hgrown.func (Program.lt_of_mem_blocks hf))).2.2.2 ▸ hf⟩
    · exact ⟨_, hb.owned hnew hlt⟩

theorem run {rest : List Function} (h : Listed o fns p)
    (hrun : rest.foldlM addFunction p = .ok q) : Listed o (fns ++ rest) q := by
  induction rest generalizing fns p with
  | nil =>
    cases hrun
    rwa [List.append_nil]
  | cons fn rest ih =>
    rw [List.foldlM_cons, bind_eq_ok] at hrun
    obtain ⟨p₁, h₁, hrun⟩ := hrun
    have := ih (h.step h₁) hrun
    rwa [List.append_assoc] at this

/-- They can be added if they are closed and their names are distinct. -/
theorem run_ok (rest : List Function) (h : Listed o fns p)
    (hclosed : ∀ fn ∈ rest, fn.Closed (o.globals.map (·.1)))
    (hnodup : ((fns ++ rest).map (·.name)).Nodup) : ∃ q, rest.foldlM addFunction p = .ok q := by
  induction rest generalizing fns p with
  | nil => exact ⟨p, rfl⟩
  | cons fn rest ih =>
    have hfn := hclosed fn List.mem_cons_self
    have hnew : fn.name ∉ p.functions.map (·.1) := by
      rw [h.keys]
      rw [List.map_append, List.map_cons] at hnodup
      exact fun hmem => (List.nodup_append.1 hnodup).2.2 _ hmem _ List.mem_cons_self rfl
    obtain ⟨p₁, h₁⟩ : ∃ p₁, addFunction p fn = .ok p₁ := by
      rw [addFunction, if_neg, if_pos]
      · exact buildFunction_ok (h.globals ▸ hfn)
      · exact (List.nodup_append.1 (List.nodup_append.1 hfn.nodup).1).1
      · rw [Option.not_isSome_iff_eq_none, Keyed.lookup_eq_none]
        exact hnew
    obtain ⟨q, hrun⟩ := ih (h.step h₁) (fun fn hmem => hclosed fn (List.mem_cons_of_mem _ hmem))
      (by rwa [List.append_assoc])
    exact ⟨q, by rw [List.foldlM_cons, h₁]; exact hrun⟩

/-- What can be added is closed. -/
theorem closed {rest : List Function} (h : Listed o fns p)
    (hrun : rest.foldlM addFunction p = .ok q) :
    ∀ fn ∈ rest, fn.Closed (o.globals.map (·.1)) := by
  induction rest generalizing fns p with
  | nil => exact nofun
  | cons fn rest ih =>
    rw [List.foldlM_cons, bind_eq_ok] at hrun
    obtain ⟨p₁, h₁, hrun⟩ := hrun
    refine List.forall_mem_cons.2 ⟨?_, ih (h.step h₁) hrun⟩
    unfold addFunction at h₁
    split at h₁
    · cases h₁
    split at h₁
    case isFalse => cases h₁
    next hparams =>
    obtain ⟨start, scope, drafts, q₁, q₂, q₃, hb⟩ := exists_built h₁ h.linked hparams
    exact h.globals ▸ hb.closed

end Listed

/-! ## Whole listings -/

/-- The program holds globals and declarations only, each global under its name. -/
structure Outlined (o : Program) : Prop where
  linked : o.Linked
  functions : o.functions = []
  blocks_size : o.blocks.size = 0
  globals : ∀ g ∈ o.globals, g.2.name = g.1
  globals_nodup : (o.globals.map (·.1)).Nodup

theorem Outlined.step (h : Outlined o) (item : Item) : Outlined (addOutline o item) := by
  have hlinked : (addOutline o item).Linked := outline_of_kept .linked [item] h.linked
  cases item with
  | function f => exact h
  | declaration name result params =>
    exact ⟨hlinked, h.functions, h.blocks_size, h.globals, h.globals_nodup⟩
  | global name cell =>
    refine ⟨hlinked, h.functions, h.blocks_size, fun g hg => ?_, Keyed.nodup_put h.globals_nodup ..⟩
    rcases Keyed.mem_put hg with rfl | hg
    · rfl
    · exact h.globals g hg

theorem Outlined.run (items : List Item) (h : Outlined o) : Outlined (items.foldl addOutline o) := by
  induction items generalizing o with
  | nil => exact h
  | cons item items ih => exact ih (h.step item)

theorem Outlined.listed (h : Outlined o) : Listed o [] o where
  linked := h.linked
  globals := rfl
  declarations := rfl
  nodup := by simp [h.functions]
  realized := by simp [h.functions]
  owned b hb := absurd (h.blocks_size ▸ hb) (Nat.not_lt_zero b)

theorem outlined (name : String) (items : List Item) :
    Outlined (items.foldl addOutline { name }) :=
  .run items ⟨.empty, rfl, rfl, nofun, List.nodup_nil⟩

/-- What a listing describes has come of it. -/
theorem toProgram_listed {name : String} {items : List Item} (h : toProgram name items = .ok p) :
    Listed (items.foldl addOutline { name }) (items.filterMap Item.function?) p :=
  (outlined name items).listed.run h

/-- A listing describes a program if its functions are closed and have distinct names. -/
theorem toProgram_ok {name : String} {items : List Item}
    (hclosed : ∀ fn ∈ items.filterMap Item.function?,
      fn.Closed ((items.foldl addOutline { name }).globals.map (·.1)))
    (hnodup : ((items.filterMap Item.function?).map (·.name)).Nodup) :
    ∃ p, toProgram name items = .ok p :=
  (outlined name items).listed.run_ok _ hclosed (by simpa using hnodup)

/-- Only then does it describe one. -/
theorem toProgram_closed {name : String} {items : List Item} (h : toProgram name items = .ok p) :
    (∀ fn ∈ items.filterMap Item.function?,
      fn.Closed ((items.foldl addOutline { name }).globals.map (·.1))) ∧
    ((items.filterMap Item.function?).map (·.name)).Nodup :=
  ⟨(outlined name items).listed.closed h, (toProgram_listed h).keys ▸ (toProgram_listed h).nodup⟩

end BoxFlow.Listing
