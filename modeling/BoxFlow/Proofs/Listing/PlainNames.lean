import BoxFlow.Proofs.IR.TextWeight
import BoxFlow.Proofs.Listing.Reprinted

/-!
# The names of what has been read

All names in a program that loads are plain (`Program.plain_of_load`): they are words of letters,
digits and a few marks.
-/

namespace BoxFlow

open Listing

theorem isPlain_of_isName {n : String} (h : IsName n) : IsPlain n := fun c hc hmem => by
  have hchar := h.2 c hmem
  simp only [List.mem_cons, List.not_mem_nil, or_false] at hc
  rcases hc with rfl | rfl | rfl | rfl <;> cases hchar

namespace Program

variable {p : Program} {f : FuncId} {i : InstId} {v : Value}

theorem isPlain_named (h : p.Named v) : IsPlain (p.ref v) := by
  cases v with
  | literal l => exact isPlain_int l.value
  | param a => exact IsPlain.append (a := "%") (by decide) (isPlain_of_isName h)
  | global g => exact IsPlain.append (a := "@") (by decide) (isPlain_of_isName h)
  | inst i =>
    obtain ⟨n, hn, hname⟩ := h
    rw [ref, hn]
    exact IsPlain.append (a := "%") (by decide) (isPlain_of_isName hname)

/-- What an operand stands for has a word for a name. -/
theorem Stands.named {t : Typed} (h : p.Stands f t v)
    (hglobals : ∀ g ∈ p.globals, g.2.name = g.1 ∧ IsName g.1)
    (hparams : ∀ x ∈ (p.func f).params, IsName x.2)
    (hnames : ∀ j ∈ p.instructions f, ∀ n ∈ (p.inst j).name, IsName n) : p.Named v := by
  cases h with
  | integer => exact True.intro
  | global ty hg =>
    obtain ⟨hname, hword⟩ := hglobals _ hg
    rw [Named, hname]
    exact hword
  | param ty ha =>
    obtain ⟨k, hk, heq⟩ := List.mem_mapIdx.1 ha
    cases heq
    exact hparams _ (List.getElem_mem hk)
  | inst ty hi hn => exact ⟨_, hn, hnames _ hi _ hn⟩

/-- A function that comes of a proper listing has plain names. -/
theorem Realizes.plain {fn : Listing.Function} (h : p.Realizes f fn) (hproper : fn.Proper)
    (hglobals : ∀ g ∈ p.globals, g.2.name = g.1 ∧ IsName g.1) : p.PlainFunc f := by
  have hlabels : ∀ b ∈ (p.func f).blocks, IsName (p.label b) :=
    fun b hb => h.isName_label hproper hb
  have hline {j : InstId} (hj : j ∈ p.instructions f) : ∃ l, p.IsLine f l j ∧ l.Proper := by
    obtain ⟨l, hmem, hl⟩ := h.isLine hj
    obtain ⟨B, hB, hlB⟩ := List.mem_flatMap.1 hmem
    exact ⟨l, hl, (hproper.blocks B hB).lines l hlB⟩
  have hnames : ∀ j ∈ p.instructions f, ∀ n ∈ (p.inst j).name, IsName n := by
    intro j hj n hn
    obtain ⟨l, hl, hl'⟩ := hline hj
    cases hr : l.result with
    | none => exact hl.word hr n hn
    | some m =>
      obtain rfl : m = n := Option.some.inj ((hl.given m hr).symm.trans hn)
      exact hl'.result m hr
  refine ⟨fun i hi => ?_, fun b hb => isPlain_of_isName (hlabels b hb)⟩
  obtain ⟨l, hl, hl'⟩ := hline hi
  obtain ⟨form, hform, hblocks, hrel⟩ := hl.form
  refine ⟨⟨fun v hv => ?_, fun b hb => ?_, fun callee hcallee => ?_⟩, ?_⟩
  · obtain ⟨t, ht, hs⟩ := exists_left_of_mem hrel.operands hv
    exact isPlain_named (hs.named hglobals (h.params ▸ hproper.params) hnames)
  · exact isPlain_of_isName (hlabels b (hblocks b (hrel.blocks_eq ▸ hb)))
  · refine isPlain_of_isName (hl'.formed.callee callee ?_)
    rwa [hform, Form.callee?_map, hrel.callee?]
  · rw [ref]
    cases hn : (p.inst i).name with
    | none => decide
    | some n => exact IsPlain.append (a := "%") (by decide) (isPlain_of_isName (hnames i hi n hn))

variable {s : List Char} {file name : String} {o : Options}

/-- All names in a function that has been loaded are plain. -/
theorem plain_of_load (h : load s file o name = .ok p) (hf : f ∈ p.moduleFuncs) :
    p.PlainFunc f := by
  obtain ⟨items, hs, hp, -, -⟩ := load_ok_iff.1 h
  obtain ⟨hproper, -⟩ := listing_eq_ok hs
  have hlisted := toProgram_listed hp
  have houtlined := outlined (if name.isEmpty then "module" else name) items
  obtain ⟨hglobals, -, -⟩ := outline_named hproper
    { name := if name.isEmpty then "module" else name } nofun nofun List.nodup_nil
  rw [← hlisted.globals] at hglobals
  have hnames : ∀ g ∈ p.globals, g.2.name = g.1 := hlisted.globals ▸ houtlined.globals
  obtain ⟨x, hx, rfl⟩ := List.mem_map.1 hf
  obtain ⟨fn, hfn, -, -, hreal⟩ := exists_right_of_mem hlisted.realized hx
  obtain ⟨item, hitem, heq⟩ := List.mem_filterMap.1 hfn
  cases item with
  | function fn' =>
    obtain rfl := Option.some.inj heq
    exact hreal.plain (hproper _ hitem) fun g hg => ⟨hnames g hg, hglobals g hg⟩
  | global | declaration => cases heq

end Program

end BoxFlow
