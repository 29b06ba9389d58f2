import Mathlib.Data.List.Nodup
import BoxFlow.Proofs.IR.Edits

/-!
# Functions rewritten in place

A `Layout` says what has become of each instruction of a function: what stands before it, which
literal its result has been replaced by, and whether it is gone. `Program.Rewritten` programs are as
a layout says. Each of the three edits changes the layout at one instruction.
-/

namespace BoxFlow

open Function (update)

structure Layout where
  before : InstId → List InstId := fun _ => []
  literal : InstId → Option Literal := fun _ => none
  erased : InstId → Bool := fun _ => false

namespace Layout

variable (L : Layout) (i : InstId)

/-- What stands where instruction `i` stood. -/
def segment : List InstId := L.before i ++ if L.erased i then [] else [i]

/-- The value in place of another. -/
def subst : Value → Value
  | .inst i => (L.literal i).elim (.inst i) .literal
  | v => v

def insert (new : InstId) : Layout :=
  { L with before := update L.before i (L.before i ++ [new]) }

def substitute (l : Literal) : Layout := { L with literal := update L.literal i (some l) }

def erase : Layout := { L with erased := update L.erased i true }

variable {L i} {j : InstId} {l : Literal} {v : Value}

theorem segment_of_kept (h : L.erased i = false) : L.segment i = L.before i ++ [i] := by
  simp [segment, h]

theorem segment_insert_of_ne (h : j ≠ i) (new : InstId) :
    (L.insert i new).segment j = L.segment j := by
  simp only [segment, insert, Function.update_of_ne h]
  rfl

theorem segment_erase_of_ne (h : j ≠ i) : (L.erase i).segment j = L.segment j := by
  simp only [segment, erase, Function.update_of_ne h]

theorem subst_cases (L : Layout) (v : Value) : L.subst v = v ∨ ∃ l, L.subst v = .literal l := by
  cases v with
  | inst i =>
    cases hl : L.literal i with
    | none => exact .inl (by simp [subst, hl])
    | some l => exact .inr ⟨l, by simp [subst, hl]⟩
  | _ => exact .inl rfl

/-- One more literal takes effect where the result itself still stood. -/
theorem subst_substitute (h : L.literal i = none) :
    (L.substitute i l).subst v = Program.replaced (.inst i) (.literal l) (L.subst v) := by
  cases v with
  | inst j =>
    by_cases hj : j = i
    · subst hj
      simp [subst, substitute, Program.replaced, h]
    · cases hl : L.literal j <;> simp [subst, substitute, Program.replaced, hj, hl]
  | _ => rfl

end Layout

namespace Program

/-- `q` is `p` with function `f` as the layout says. -/
structure Rewritten (p : Program) (f : FuncId) (L : Layout) (q : Program) : Prop where
  blocks : ∀ b, q.block b = { p.block b with insts := (p.block b).insts.flatMap L.segment }
  funcs : ∀ g, (q.func g).blocks = (p.func g).blocks
  functions : q.functions = p.functions
  size : p.insts.size ≤ q.insts.size
  new : ∀ {i j}, j ∈ L.before i → p.insts.size ≤ j ∧ j < q.insts.size
  inst : ∀ {i}, i ∈ p.instructions f → L.erased i = false →
    q.inst i = { p.inst i with op := (p.inst i).op.map L.subst id }
  others : ∀ {i}, i < p.insts.size → i ∉ p.instructions f → q.inst i = p.inst i
  skeleton : ∀ {i}, i < p.insts.size → (q.inst i).op.skeleton = (p.inst i).op.skeleton
  held : ∀ {b i}, i ∈ (q.block b).insts → (q.inst i).block = some b
  nodup : ∀ b, (q.block b).insts.Nodup

theorem Linked.lt_size {p : Program} {f : FuncId} {i : InstId} (hp : p.Linked)
    (hi : i ∈ p.instructions f) : i < p.insts.size := by
  obtain ⟨b, -, hi⟩ := List.mem_flatMap.1 hi
  exact lt_of_inst_block (hp.held hi)

namespace Rewritten

variable {p q r : Program} {f : FuncId} {L : Layout} {b d : BlockId} {i j : InstId} {new : Inst}
  {l : Literal}

/-- Nothing has been done yet. -/
theorem refl (hp : p.Linked) (f : FuncId) : p.Rewritten f {} p where
  blocks b := by
    have hsegment : ({} : Layout).segment = fun i => [i] := rfl
    rw [hsegment, List.flatMap_singleton']
  funcs _ := rfl
  functions := rfl
  size := Nat.le_refl _
  new h := nomatch h
  inst _ _ := by
    have hsubst : ({} : Layout).subst = id := by
      funext v
      cases v <;> rfl
    rw [hsubst, Form.map_id]
  others _ _ := rfl
  skeleton _ := rfl
  held := hp.held
  nodup _ := hp.nodup

variable (h : p.Rewritten f L q)
include h

theorem mem_instructions {g : FuncId} :
    j ∈ q.instructions g ↔ ∃ i ∈ p.instructions g, j ∈ L.segment i := by
  simp only [instructions, h.funcs, h.blocks, List.mem_flatMap]
  constructor
  · rintro ⟨b, hb, i, hi, hj⟩
    exact ⟨i, ⟨b, hb, hi⟩, hj⟩
  · rintro ⟨i, ⟨b, hb, hi⟩, hj⟩
    exact ⟨b, hb, i, hi, hj⟩

/-- An instruction of the rewritten function is an old one or new. -/
theorem old_or_new (hj : j ∈ q.instructions f) :
    j ∈ p.instructions f ∧ L.erased j = false ∨
      p.insts.size ≤ j ∧ ∃ i ∈ p.instructions f, j ∈ L.before i := by
  obtain ⟨i, hi, hj⟩ := h.mem_instructions.1 hj
  rcases List.mem_append.1 hj with hj | hj
  · exact .inr ⟨(h.new hj).1, i, hi, hj⟩
  · split at hj
    · cases hj
    · next he =>
      rw [List.mem_singleton.1 hj]
      exact .inl ⟨hi, Bool.eq_false_iff.2 he⟩

theorem mem_instructions_of_kept (hi : i ∈ p.instructions f) (he : L.erased i = false) :
    i ∈ q.instructions f :=
  h.mem_instructions.2 ⟨i, hi, by rw [Layout.segment_of_kept he]; simp⟩

variable (hp : p.Linked)
include hp

/-- Where an instruction stands that has not gone. -/
theorem place (hi : i ∈ p.instructions f) (he : L.erased i = false) :
    ∃ b, i ∈ (p.block b).insts ∧ q.Sits f b i := by
  obtain ⟨b, hb, hi⟩ := List.mem_flatMap.1 hi
  have hmem : i ∈ (q.block b).insts := by
    rw [h.blocks]
    exact List.mem_flatMap.2 ⟨i, hi, by rw [Layout.segment_of_kept he]; simp⟩
  exact ⟨b, hi, by rw [h.funcs]; exact hb, by rw [h.blocks]; exact hp.parent hb, hmem, h.held hmem⟩

/-- What stands around an instruction that has not gone. -/
theorem split (hi : i ∈ (p.block b).insts) (he : L.erased i = false) :
    ∃ pre post, (p.block b).insts = pre ++ i :: post ∧ i ∉ pre ∧ i ∉ post ∧
      i ∉ pre.flatMap L.segment ++ L.before i ∧
      (q.block b).insts =
        (pre.flatMap L.segment ++ L.before i) ++ i :: post.flatMap L.segment := by
  obtain ⟨pre, post, hsplit⟩ := List.append_of_mem hi
  have hnodup := hp.nodup (b := b)
  rw [hsplit] at hnodup
  obtain ⟨-, hpost, hpre⟩ := List.nodup_append.1 hnodup
  have hq : (q.block b).insts =
      (pre.flatMap L.segment ++ L.before i) ++ i :: post.flatMap L.segment := by
    rw [h.blocks, hsplit, List.flatMap_append, List.flatMap_cons, Layout.segment_of_kept he]
    simp
  refine ⟨pre, post, hsplit, fun hmem => hpre i hmem i List.mem_cons_self rfl,
    (List.nodup_cons.1 hpost).1, fun hmem => ?_, hq⟩
  have hnodup := h.nodup b
  rw [hq] at hnodup
  exact (List.nodup_append.1 hnodup).2.2 i hmem i List.mem_cons_self rfl

/-- The blocks are as another layout says, if it differs at instruction `i` only, and the blocks
only in what stands where `i` stood. -/
theorem blocks_of_agree {M : Layout} {pre post : List InstId}
    (hagree : ∀ j, j ≠ i → M.segment j = L.segment j)
    (hsplit : (p.block b).insts = pre ++ i :: post) (hpre : i ∉ pre) (hpost : i ∉ post)
    (hblock : r.block b = { q.block b with
      insts := pre.flatMap L.segment ++ (M.segment i ++ post.flatMap L.segment) })
    (hother : ∀ d, d ≠ b → r.block d = q.block d) (d : BlockId) :
    r.block d = { p.block d with insts := (p.block d).insts.flatMap M.segment } := by
  have hlist {l : List InstId} (hl : i ∉ l) : l.flatMap L.segment = l.flatMap M.segment :=
    List.flatMap_congr fun j hj => (hagree j fun hji => hl (hji ▸ hj)).symm
  by_cases hd : d = b
  · subst hd
    have hcode : pre.flatMap L.segment ++ (M.segment i ++ post.flatMap L.segment) =
        (p.block d).insts.flatMap M.segment := by
      rw [hsplit, hlist hpre, hlist hpost, List.flatMap_append, List.flatMap_cons]
    rw [hblock, hcode, h.blocks]
  · have hnot : i ∉ (p.block d).insts := by
      intro hid
      have hib : i ∈ (p.block b).insts := by rw [hsplit]; simp
      exact hd (Option.some.inj ((hp.held hid).symm.trans (hp.held hib)))
    rw [hother d hd, h.blocks, hlist hnot]

theorem insert (hi : i ∈ (p.block b).insts) (he : L.erased i = false)
    (hins : q.Inserted r b i new) : p.Rewritten f (L.insert i q.insts.size) r := by
  obtain ⟨pre, post, hsplit, hpre, hpost, hnot, hq⟩ := h.split hp hi he
  have hanchor : i ∈ (q.block b).insts := by rw [hq]; simp
  have hsegment : (L.insert i q.insts.size).segment i = L.before i ++ [q.insts.size, i] := by
    rw [Layout.segment_of_kept (L := L.insert i q.insts.size) he]
    simp [Layout.insert]
  have hblock : r.block b = { q.block b with insts := pre.flatMap L.segment ++
      ((L.insert i q.insts.size).segment i ++ post.flatMap L.segment) } := by
    rw [hins.block, if_pos rfl, hq, insertBeforeFirst_append hnot, hsegment]
    simp
  have hother (d : BlockId) (hd : d ≠ b) : r.block d = q.block d := by
    rw [hins.block, if_neg hd]
  have hold {j} (hj : j < q.insts.size) : r.inst j = q.inst j := by
    rw [hins.inst, if_neg (Nat.ne_of_lt hj)]
  exact {
    blocks := h.blocks_of_agree hp (fun _ hj => Layout.segment_insert_of_ne hj _) hsplit hpre hpost
      hblock hother
    funcs := fun g => (hins.blocks g).trans (h.funcs g)
    functions := hins.functions.trans h.functions
    size := by
      rw [hins.size]
      exact Nat.le_succ_of_le h.size
    new := fun {j l} hl => by
      rw [hins.size]
      by_cases hji : j = i
      · subst hji
        have hl : l ∈ L.before j ++ [q.insts.size] := by simpa [Layout.insert] using hl
        rcases List.mem_append.1 hl with hl | hl
        · exact ⟨(h.new hl).1, Nat.lt_succ_of_lt (h.new hl).2⟩
        · rw [List.mem_singleton.1 hl]
          exact ⟨h.size, Nat.lt_succ_self _⟩
      · have hl : l ∈ L.before j := by simpa [Layout.insert, hji] using hl
        exact ⟨(h.new hl).1, Nat.lt_succ_of_lt (h.new hl).2⟩
    inst := fun {j} hj hk => by
      rw [hold (Nat.lt_of_lt_of_le (hp.lt_size hj) h.size)]
      exact h.inst hj hk
    others := fun {j} hj hf => by
      rw [hold (Nat.lt_of_lt_of_le hj h.size)]
      exact h.others hj hf
    skeleton := fun {j} hj => by
      rw [hold (Nat.lt_of_lt_of_le hj h.size)]
      exact h.skeleton hj
    held := hins.held hanchor h.held
    nodup := fun d => hins.nodup hanchor h.held (h.nodup d) }

theorem erase (hb : b ∈ (p.func f).blocks) (hi : i ∈ (p.block b).insts)
    (he : L.erased i = false) (her : q.Erased r b i) : p.Rewritten f (L.erase i) r := by
  obtain ⟨pre, post, hsplit, hpre, hpost, hnot, hq⟩ := h.split hp hi he
  have hblock : r.block b = { q.block b with
      insts := pre.flatMap L.segment ++ ((L.erase i).segment i ++ post.flatMap L.segment) } := by
    have hsegment : (L.erase i).segment i = L.before i := by
      simp [Layout.segment, Layout.erase]
    rw [her.block, if_pos rfl, hq, List.erase_append_right _ hnot, List.erase_cons_head, hsegment,
      List.append_assoc]
  have hother (d : BlockId) (hd : d ≠ b) : r.block d = q.block d := by
    rw [her.block, if_neg hd]
  have herase {d} : (r.block d).insts = (q.block d).insts.erase i := by
    by_cases hd : d = b
    · rw [her.block, if_pos hd]
    · rw [hother d hd, List.erase_of_not_mem]
      intro hmem
      have hib : i ∈ (q.block b).insts := by rw [hq]; simp
      exact hd (Option.some.inj ((h.held hmem).symm.trans (h.held hib)))
  have hold {j} (hj : j ≠ i) : r.inst j = q.inst j := by rw [her.inst, if_neg hj]
  exact {
    blocks := h.blocks_of_agree hp (fun _ hj => Layout.segment_erase_of_ne hj) hsplit hpre hpost
      hblock hother
    funcs := fun g => (her.blocks g).trans (h.funcs g)
    functions := her.functions.trans h.functions
    size := her.size ▸ h.size
    new := fun hl => her.size ▸ h.new hl
    inst := fun {j} hj hk => by
      have hji : j ≠ i := by
        rintro rfl
        simp [Layout.erase] at hk
      rw [hold hji]
      exact h.inst hj (by simpa [Layout.erase, hji] using hk)
    others := fun {j} hj hf => by
      rw [hold (by rintro rfl; exact hf (List.mem_flatMap.2 ⟨b, hb, hi⟩))]
      exact h.others hj hf
    skeleton := fun {j} hj => by
      have hop : (r.inst j).op = (q.inst j).op := by
        rw [her.inst]
        split <;> rfl
      rw [hop]
      exact h.skeleton hj
    held := fun {d j} hj => by
      rw [herase, (h.nodup d).mem_erase_iff] at hj
      rw [hold hj.1]
      exact h.held hj.2
    nodup := fun d => by
      rw [herase]
      exact (h.nodup d).erase _ }

theorem substitute (hl : L.literal i = none) (hs : q.Substituted r f (.inst i) (.literal l)) :
    p.Rewritten f (L.substitute i l) r where
  blocks d := (hs.block d).trans (h.blocks d)
  funcs g := (hs.blocks g).trans (h.funcs g)
  functions := hs.functions.trans h.functions
  size := hs.size ▸ h.size
  new hj := hs.size ▸ h.new hj
  inst {j} hj he := by
    have hlt : j < q.insts.size := Nat.lt_of_lt_of_le (hp.lt_size hj) h.size
    have hsubst : (L.substitute i l).subst = replaced (.inst i) (.literal l) ∘ L.subst :=
      funext fun _ => Layout.subst_substitute hl
    rw [hs.inst, if_pos ⟨h.mem_instructions_of_kept hj he, hlt⟩, h.inst hj he, hsubst]
    simp [Form.map_map]
  others {j} hj hf := by
    rw [hs.inst, if_neg, h.others hj hf]
    rintro ⟨hmem, -⟩
    rcases h.old_or_new hmem with ⟨hmem, -⟩ | ⟨hle, -⟩
    · exact hf hmem
    · exact Nat.not_lt.2 hle hj
  skeleton {j} hj := by
    rw [hs.inst]
    split
    · exact (Form.skeleton_map ..).trans (h.skeleton hj)
    · exact h.skeleton hj
  held {d j} hj := by
    rw [hs.block] at hj
    rw [hs.inst]
    split <;> exact h.held hj
  nodup d := by
    rw [hs.block]
    exact h.nodup d

end Rewritten

end Program

end BoxFlow
