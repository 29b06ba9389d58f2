import Mathlib.Algebra.Group.Nat.Defs
import BoxFlow.Proofs.Listing.Accepted
import BoxFlow.Proofs.Listing.Proper
import BoxFlow.Proofs.Listing.Restored

/-!
# Texts of loaded programs

A program that loads can be written down as long as its types stay what they are
(`Program.KeepsType`): the reader takes the type of a select from what is written before its first
value, the printer writes there what type the value has. Its text then loads again, and what has been
loaded has the same text (`Program.load_text_stable`).
-/

namespace BoxFlow

open Listing

/-! ## Constants -/

theorem Decimal.ofDigits_lt {ds : List Nat} (h : ∀ d ∈ ds, d < 10) :
    Decimal.ofDigits ds < 10 ^ ds.length := by
  have hfold (n : Nat) : ds.foldl (fun n d => 10 * n + d) n < (n + 1) * 10 ^ ds.length := by
    induction ds generalizing n with
    | nil => simp
    | cons d ds ih =>
      have hle : 10 * n + d + 1 ≤ (n + 1) * 10 := by
        have hd := h d List.mem_cons_self
        omega
      refine Nat.lt_of_lt_of_le (ih (fun e he => h e (List.mem_cons_of_mem _ he)) _) ?_
      rw [List.length_cons, Nat.pow_succ', ← Nat.mul_assoc]
      exact Nat.mul_le_mul_right _ hle
  simpa [Decimal.ofDigits] using hfold 0

/-- A constant is not written with more digits than it has been read from. -/
theorem length_toDigits_signedValue {digits : List Char} (h : ∀ d ∈ digits, d.isDigit = true)
    (hlimit : digits.length ≤ Decimal.digitLimit) (negative : Bool) :
    (Nat.toDigits 10 (signedValue negative digits).natAbs).length ≤ Decimal.digitLimit := by
  have habs : (signedValue negative digits).natAbs =
      Decimal.ofDigits (digits.map Decimal.digitValue) := by
    rw [signedValue]
    split <;> simp
  have hdigit : ∀ d ∈ digits.map Decimal.digitValue, d < 10 := by
    intro d hd
    obtain ⟨c, hc, rfl⟩ := List.mem_map.1 hd
    obtain ⟨-, hle⟩ := Char.isDigit_iff_toNat.1 (h c hc)
    exact Nat.lt_of_le_of_lt (Nat.sub_le_sub_right hle _) (by decide)
  have hlt := Decimal.ofDigits_lt hdigit
  rw [List.length_map] at hlt
  rw [Nat.length_toDigits_le_iff (by decide) (by decide), habs]
  exact Nat.lt_of_lt_of_le hlt (Nat.pow_le_pow_right (by decide) hlimit)

namespace Listing

/-- No constant of a listing that is not overlong has too many digits. -/
theorem length_le_of_overlong {items : List Item} (h : overlong items = [])
    {fn : Function} (hfn : fn ∈ items.filterMap Item.function?) {l : Line} (hl : l ∈ fn.lines)
    {t : Typed} (ht : t ∈ l.form.operands) {negative : Bool} {digits : List Char}
    (heq : t.operand = .integer negative digits) : digits.length ≤ Decimal.digitLimit := by
  have hline := List.flatMap_eq_nil_iff.1 (List.flatMap_eq_nil_iff.1 h fn hfn) l hl
  have hnone := List.filterMap_eq_nil_iff.1 hline t ht
  rw [heq] at hnone
  dsimp only [Decimal.ofSignDigits] at hnone
  refine Nat.le_of_not_lt fun hlt => ?_
  rw [if_pos hlt] at hnone
  cases hnone

/-- Globals and declarations have names, and declarations distinct ones. -/
theorem outline_named {items : List Item} (h : ∀ item ∈ items, item.Proper) (o : Program)
    (hglobals : ∀ g ∈ o.globals, IsName g.1) (hdeclarations : ∀ d ∈ o.declarations, IsName d.1)
    (hnodup : (o.declarations.map (·.1)).Nodup) :
    (∀ g ∈ (items.foldl addOutline o).globals, IsName g.1) ∧
      (∀ d ∈ (items.foldl addOutline o).declarations, IsName d.1) ∧
      ((items.foldl addOutline o).declarations.map (·.1)).Nodup := by
  induction items generalizing o with
  | nil => exact ⟨hglobals, hdeclarations, hnodup⟩
  | cons item items ih =>
    obtain ⟨hitem, hitems⟩ := List.forall_mem_cons.1 h
    rw [List.foldl_cons]
    cases item with
    | function fn => exact ih hitems o hglobals hdeclarations hnodup
    | global name cell =>
      refine ih hitems _ (fun g hg => ?_) hdeclarations hnodup
      rcases Keyed.mem_put hg with rfl | hg
      · exact hitem
      · exact hglobals g hg
    | declaration name result params =>
      refine ih hitems _ hglobals (fun d hd => ?_) (Keyed.nodup_put hnodup _ _)
      rcases Keyed.mem_put hd with rfl | hd
      · exact hitem
      · exact hdeclarations d hd

end Listing

theorem Form.fits_skeleton {V B : Type} {ty : Ty} (op : Form V B) :
    op.skeleton.Fits ty ↔ op.Fits ty := by
  cases op with
  | br c => cases c <;> simp [skeleton, map, Fits]
  | _ => simp [skeleton, map, Fits]

namespace Program

variable {p q : Program} {f : FuncId} {i : InstId} {v : Value}

/-! ## What has been read can be written down -/

/-- The types that the operation is read with are those that it is written with: a select has the
type of its first value, and no value without a type is returned. -/
def KeepsType (p : Program) (ty : Ty) : Op → Prop
  | .select _ t _ => p.valueTy t = ty
  | .ret (some v) => p.valueTy v ≠ .void
  | _ => True

instance (p : Program) (ty : Ty) (op : Op) : Decidable (p.KeepsType ty op) := by
  unfold KeepsType
  split <;> infer_instance

/-- What an operand stands for can be referred to. -/
theorem Stands.refers {t : Typed} (h : p.Stands f t v) (hproper : t.operand.Proper)
    (hlimit : ∀ negative digits, t.operand = .integer negative digits →
      digits.length ≤ Decimal.digitLimit)
    (howns : p.Owns f v) : p.Refers f v := by
  cases h with
  | integer negative digits serial ty =>
    exact length_toDigits_signedValue hproper (hlimit negative digits rfl) negative
  | global ty hg => exact Keyed.mem_of_lookup howns
  | param ty ha => exact howns
  | inst ty hi hn => exact howns

/-- An instruction that comes of a proper line can be written down. -/
theorem IsLine.listable {l : Line} (hl : p.IsLine f l i) (hproper : l.Proper)
    (hrefers : ∀ t ∈ l.form.operands, ∀ v, p.Stands f t v → p.Refers f v)
    (hlabels : ∀ b ∈ (p.func f).blocks, IsName (p.label b))
    (hkeeps : p.KeepsType (p.inst i).ty (p.inst i).op) : p.ListableInst f i := by
  obtain ⟨form, hform, hblocks, hrel⟩ := hl.form
  have hskeleton : (p.inst i).op.skeleton = l.form.skeleton := by
    rw [← hrel.skeleton, hform, Form.skeleton_map]
  have hoperands : l.form.operands = form.operands := by
    rw [hform, Form.operands_map, List.map_id]
  refine ⟨hl.hasResult, fun n hn => ?_, ?_, fun callee hcallee => ?_, fun v hv => ?_,
    fun b hb => ?_, fun incoming hop c hc => ?_, fun c t e hop => ?_, fun v hop => ?_⟩
  · cases hr : l.result with
    | none => exact hl.word hr n hn
    | some m =>
      obtain rfl : m = n := Option.some.inj ((hl.given m hr).symm.trans hn)
      exact hproper.result m hr
  · rw [← Form.fits_skeleton, hskeleton, Form.fits_skeleton, hl.ty]
    refine hproper.fits ?_
    cases hr : l.result with
    | none => exact .inl rfl
    | some m => exact .inr (hl.named.1 (by rw [hl.given m hr]; rfl))
  · refine hproper.formed.callee callee ?_
    rwa [hform, Form.callee?_map, hrel.callee?]
  · obtain ⟨t, ht, hs⟩ := exists_left_of_mem hrel.operands hv
    exact hrefers t (hoperands ▸ ht) v hs
  · exact hlabels b (hblocks b (hrel.blocks_eq ▸ hb))
  · have hphi : l.form.isPhi = true := by rw [hform, Form.isPhi_map, hrel.isPhi, hop]; rfl
    have hmem : Value.literal c ∈ (p.inst i).op.operands := by rw [hop]; exact hc
    obtain ⟨t, ht, hs⟩ := exists_left_of_mem hrel.operands hmem
    have hty := hproper.formed.phi hphi t (hoperands ▸ ht)
    cases hs
    rw [hl.ty, ← hty]
  · rw [hop] at hkeeps
    exact hkeeps
  · rw [hop] at hkeeps
    exact hkeeps

theorem Realizes.isName_label {fn : Listing.Function} {b : BlockId} (h : p.Realizes f fn)
    (hproper : fn.Proper) (hb : b ∈ (p.func f).blocks) : IsName (p.label b) := by
  obtain ⟨B, hB, hlabel, -⟩ := exists_right_of_mem h.blocks hb
  rw [hlabel]
  exact (hproper.blocks B hB).label

/-- A function that comes of a proper listing can be written down. -/
theorem Realizes.listable {fn : Listing.Function} (h : p.Realizes f fn) (hproper : fn.Proper)
    (hlimit : ∀ l ∈ fn.lines, ∀ t ∈ l.form.operands, ∀ negative digits,
      t.operand = .integer negative digits → digits.length ≤ Decimal.digitLimit)
    (hglobals : ∀ g ∈ p.globals, g.2.name = g.1) (hnodup : (p.globals.map (·.1)).Nodup)
    (hverify : p.verify f = [])
    (hkeeps : ∀ i ∈ p.instructions f, p.KeepsType (p.inst i).ty (p.inst i).op) :
    p.ListableFunc f := by
  have hlabels : ∀ b ∈ (p.func f).blocks, IsName (p.label b) :=
    fun b hb => h.isName_label hproper hb
  have hnamed : ∀ i ∈ p.instructions f, (p.inst i).name.isSome = (p.inst i).hasResult := by
    intro i hi
    obtain ⟨l, -, hl⟩ := h.isLine hi
    exact hl.hasResult
  refine ⟨h.name ▸ hproper.name, h.params ▸ hproper.params, hlabels, fun b hb => ?_, h.nodup,
    hverify, fun i hi => ?_⟩
  · have htail := List.forall₂_drop 1 h.blocks
    rw [List.drop_one, List.drop_one] at htail
    obtain ⟨B, hB, hlabel, -⟩ := exists_right_of_mem htail hb
    rw [hlabel]
    exact hproper.later B hB
  · obtain ⟨l, hmem, hl⟩ := h.isLine hi
    obtain ⟨B, hB, hlB⟩ := List.mem_flatMap.1 hmem
    have hline := (hproper.blocks B hB).lines l hlB
    exact hl.listable hline (fun t ht v hs => hs.refers (hline.formed.operands t ht)
      (hlimit l hmem t ht) (hs.owns hglobals hnodup hnamed)) hlabels (hkeeps i hi)

variable {s : List Char} {file name : String} {o : Options}

theorem listing_eq_ok {items : List Item} (h : listing s = .ok items) :
    (∀ item ∈ items, item.Proper) ∧ overlong items = [] := by
  have hproper := ofText_proper s
  unfold listing at h
  split at h
  · next items' htext =>
    rw [htext] at hproper
    split at h
    · next hoverlong =>
      cases h
      exact ⟨hproper, hoverlong⟩
    · cases h
  · cases h

/-- A program that loads can be written down if its types stay what they are. -/
theorem listable_of_load (h : load s file o name = .ok p)
    (hkeeps : ∀ f ∈ p.moduleFuncs, ∀ i ∈ p.instructions f,
      p.KeepsType (p.inst i).ty (p.inst i).op) : p.Listable := by
  obtain ⟨items, hs, hp, hverify, -⟩ := load_ok_iff.1 h
  obtain ⟨hproper, hoverlong⟩ := listing_eq_ok hs
  have hlisted := toProgram_listed hp
  have houtlined := outlined (if name.isEmpty then "module" else name) items
  obtain ⟨hglobals, hdeclarations, hnodup⟩ := outline_named hproper
    { name := if name.isEmpty then "module" else name } nofun nofun List.nodup_nil
  rw [← hlisted.globals] at hglobals
  rw [← hlisted.declarations] at hdeclarations hnodup
  have hnames : ∀ g ∈ p.globals, g.2.name = g.1 := hlisted.globals ▸ houtlined.globals
  have hfunction {x : String × FuncId} (hx : x ∈ p.functions) :
      ∃ fn ∈ items.filterMap Item.function?, x.1 = fn.name ∧ p.Realizes x.2 fn := by
    obtain ⟨fn, hfn, hname, -, hreal⟩ := exists_right_of_mem hlisted.realized hx
    exact ⟨fn, hfn, hname, hreal⟩
  refine ⟨fun g hg => ⟨hnames g hg, hglobals g hg⟩, hlisted.globals ▸ houtlined.globals_nodup,
    hdeclarations, hnodup, fun x hx => ?_, hlisted.nodup, fun f hf => ?_⟩
  · obtain ⟨fn, -, hname, hreal⟩ := hfunction hx
    rw [hname, hreal.name]
  · obtain ⟨x, hx, rfl⟩ := List.mem_map.1 hf
    obtain ⟨fn, hfn, -, hreal⟩ := hfunction hx
    obtain ⟨item, hitem, heq⟩ := List.mem_filterMap.1 hfn
    cases item with
    | function fn' =>
      obtain rfl := Option.some.inj heq
      exact hreal.listable (hproper _ hitem)
        (fun l hl t ht negative digits => length_le_of_overlong hoverlong hfn hl ht) hnames
        (hlisted.globals ▸ houtlined.globals_nodup) (hverify _ hf) (hkeeps _ hf)
    | global | declaration => cases heq

/-- A program that loads and whose types stay what they are has a text that loads again, and what is
loaded then has the same text. -/
theorem load_text_stable (h : load s file o name = .ok p)
    (hkeeps : ∀ f ∈ p.moduleFuncs, ∀ i ∈ p.instructions f,
      p.KeepsType (p.inst i).ty (p.inst i).op) (file' name' : String) :
    ∃ q, load p.text.toList file' o name' = .ok q ∧ q.text = p.text := by
  obtain ⟨items, -, hp, -, harity⟩ := load_ok_iff.1 h
  have htied : ∀ f ∈ p.moduleFuncs, p.Tied f := fun f hf => (toProgram_listed hp).tied hf
  obtain ⟨q, hq, hiso⟩ := (listable_of_load h hkeeps).load_text htied harity file' name'
  exact ⟨q, hq, hiso.text_eq⟩

/-- A select with the type of its values, and a return of what it gives. -/
def keptText : String :=
  "define i64 @f(i64 %n)\x7be:%s=select i1 1,i64 %n,i64 2 ret i64 %s\x7d"

theorem load_text_stable_kept : ∃ p, load keptText.toList = .ok p ∧
    (∀ f ∈ p.moduleFuncs, ∀ i ∈ p.instructions f, p.KeepsType (p.inst i).ty (p.inst i).op) ∧
    ∃ q, load p.text.toList = .ok q ∧ q.text = p.text := by
  obtain ⟨p, hload, -, hkeeps⟩ := exists_load (s := keptText.toList)
    (P := fun p => ∀ f ∈ p.moduleFuncs, ∀ i ∈ p.instructions f,
      p.KeepsType (p.inst i).ty (p.inst i).op) (by decide +kernel)
  exact ⟨p, hload, hkeeps, load_text_stable hload hkeeps "<input>" "module"⟩

/-- A select that is written with another type than its value has. -/
def castText : String :=
  "define i64 @f(i32 %n)\x7be:%s=select i1 1,i64 %n,i64 %n ret i64 %s\x7d"

/-- A return of a parameter without a type. -/
def voidText : String := "define i64 @f(void %n)\x7be:ret i64 %n\x7d"

/-- If a select changes its type the text changes when it is loaded again, and if a value without a
type is returned it does not load again. -/
theorem not_load_text_stable :
    (∃ p q, load castText.toList = .ok p ∧ load p.text.toList = .ok q ∧ q.text ≠ p.text) ∧
      ∃ p, load voidText.toList = .ok p ∧ ∀ q, load p.text.toList ≠ .ok q := by
  obtain ⟨p, hp, -, hq⟩ := exists_load (s := castText.toList)
    (P := fun p => (load p.text.toList).toOption.any fun q => q.text ≠ p.text) (by decide +kernel)
  obtain ⟨r, hr, -, hnone⟩ := exists_load (s := voidText.toList)
    (P := fun p => (load p.text.toList).toOption.isNone = true) (by decide +kernel)
  obtain ⟨q, hq, -, hne⟩ := exists_load (P := fun q => q.text ≠ p.text) hq
  refine ⟨⟨p, q, hp, hq, hne⟩, r, hr, fun q hq => ?_⟩
  rw [hq] at hnone
  cases hnone

end Program

end BoxFlow
