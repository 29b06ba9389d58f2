import BoxFlow.Proofs.IR.Construction
import BoxFlow.Proofs.Listing.PlainNames
import BoxFlow.Proofs.Rewriting.Account
import BoxFlow.Proofs.Rewriting.Exhausted
import BoxFlow.Proofs.Rewriting.SameRuns

/-!
# What a rewriting changes of the text

A rewriting that reports a change has changed the text of the function, if all names are plain
(`Accounted.funcText_ne`). A call that gives way to a write makes the text lighter, as the call has
three arguments and the write has two; and if only reads go, there are fewer lines.
-/

namespace BoxFlow

open Listing (chunks)
open Program (indent)

namespace Program

/-- The text of an instruction on a line of its own. -/
def instChars (p : Program) (i : InstId) : List Char := indent ++ (p.instText i).toList

/-- The text of a function from its first block on. -/
def bodyChars (p : Program) (f : FuncId) : List Char :=
  (p.func f).blocks.flatMap fun b =>
    '\n' :: ((p.label b).toList ++ ':' :: (p.block b).insts.flatMap p.instChars)

theorem funcText_eq (p : Program) (f : FuncId) : (p.funcText f).toList =
    (p.headText f).toList ++ (p.bodyChars f ++ ['\n', '}']) := by
  rw [toList_funcText, bodyChars]
  congr 2
  rw [chunks, List.flatMap_map]
  refine List.flatMap_congr fun b _ => ?_
  rw [blockChunk, blockChars, chunks, List.flatMap_map]
  rfl

theorem weight_instChars (p : Program) (i : InstId) (s : List Char) :
    weight (p.instChars i ++ s) = weight ((p.instText i).toList ++ s) := by
  rw [instChars, List.append_assoc, weight_append (by decide)]

theorem PlainInst.weight_line {p : Program} {i : InstId} (h : p.PlainInst i) (s : List Char) :
    weight (p.instChars i ++ s) = weight s + if isHeavy (p.inst i).op then 1 else 0 := by
  rw [weight_instChars, h.weight_instText]

/-- A call of plain names with no more than two arguments is light. -/
theorem weight_call {p : Program} {i : InstId} {callee : String} {args : List Value}
    (hop : (p.inst i).op = .call callee args) (hcallee : IsPlain callee)
    (hargs : ∀ v ∈ args, IsPlain (p.ref v)) (hlength : args.length ≤ 2)
    (hname : IsPlain (p.ref (.inst i))) (s : List Char) :
    weight (p.instChars i ++ s) = weight s := by
  have hplain : p.PlainInst i := by
    refine ⟨⟨?_, ?_, ?_⟩, hname⟩ <;> rw [hop]
    · exact hargs
    · rintro _ ⟨⟩
    · rintro _ ⟨⟩
      exact hcallee
  rw [hplain.weight_line, hop]
  simp only [isHeavy, decide_eq_true_eq]
  rw [if_neg (by omega), Nat.add_zero]

theorem isPlain_unnamed {p : Program} {i : InstId} (h : (p.inst i).name = none) :
    IsPlain (p.ref (.inst i)) := by
  rw [ref, h]
  decide

theorem weight_headText (p : Program) (f : FuncId) (s : List Char) :
    weight ((p.headText f).toList ++ s) = weight (p.headText f).toList + weight s := by
  have heq : ∃ u, (p.headText f).toList = u ++ ')' :: [' ', '{'] := ⟨_, by
    rw [headText, String.toList_append]
    rfl⟩
  obtain ⟨u, hu⟩ := heq
  rw [hu, List.append_assoc]
  exact weight_append_closed u [' ', '{'] s (by decide)

end Program

namespace Analysis.Arithmetic

variable {p : Program} {a : Analysis} {i : InstId} {handle x y : Value}
  (h : a.Arithmetic p i handle x y)
include h

theorem mem_operands : handle ∈ (p.inst i).op.operands := by
  obtain ⟨callee, rest, hop⟩ := h.op
  rw [hop]
  exact List.mem_cons_self

/-- An arithmetic call weighs something. -/
theorem isHeavy : Program.isHeavy (p.inst i).op = true := by
  obtain ⟨callee, rest, hop⟩ := h.op
  rw [hop]
  simp [Program.isHeavy]

end Analysis.Arithmetic

namespace Accounted

variable {p : Program} {a : Analysis} {names : Names} {φ : Fates} {t : RewriteState}
  {i j : InstId} {b : BlockId} {v : Value}
  (h : Accounted p a names φ t)
include h

theorem headText_eq : t.program.headText a.func = p.headText a.func := by
  have hparams : (t.program.params a.func).map t.program.typedRef =
      (p.params a.func).map p.typedRef := by
    rw [Program.map_typedRef_params, Program.map_typedRef_params, h.grows.items.func]
  rw [Program.headText, Program.headText, hparams, h.grows.items.func]

/-- A relation between what follows in the two texts, and a number, holds of the texts from the
first block on if it goes on from line to line, the number growing at some of the instructions. -/
theorem rel_body {R : Nat → List Char → List Char → Prop} {P : InstId → Bool}
    (hlabel : ∀ b ∈ (p.func a.func).blocks, ∀ m s s', R m s s' →
      R m ('\n' :: ((p.label b).toList ++ ':' :: s)) ('\n' :: ((p.label b).toList ++ ':' :: s')))
    (hinst : ∀ i ∈ p.instructions a.func, ∀ m s s', R m s s' → R (m + if P i then 1 else 0)
      (p.instChars i ++ s) ((φ.segment i).flatMap t.program.instChars ++ s'))
    (s s' : List Char) (hend : R 0 s s') :
    R ((p.instructions a.func).countP P) (p.bodyChars a.func ++ s)
      (t.program.bodyChars a.func ++ s') := by
  have hinsts (is : List InstId) (his : ∀ i ∈ is, i ∈ p.instructions a.func) {m : Nat}
      {s s' : List Char} (hs : R m s s') : R (m + is.countP P) (is.flatMap p.instChars ++ s)
        ((is.flatMap φ.segment).flatMap t.program.instChars ++ s') := by
    induction is with
    | nil => exact hs
    | cons i is ih =>
      have hi := hinst i (his i List.mem_cons_self) _ _ _
        (ih fun j hj => his j (List.mem_cons_of_mem _ hj))
      rw [List.countP_cons, List.flatMap_cons, List.flatMap_cons, List.flatMap_append,
        List.append_assoc, List.append_assoc, ← Nat.add_assoc]
      exact hi
  have hblocks (bs : List BlockId) (hbs : ∀ b ∈ bs, b ∈ (p.func a.func).blocks) :
      R ((bs.flatMap fun b => (p.block b).insts).countP P)
        ((bs.flatMap fun b =>
          '\n' :: ((p.label b).toList ++ ':' :: (p.block b).insts.flatMap p.instChars)) ++ s)
        ((bs.flatMap fun b => '\n' :: ((t.program.label b).toList ++
          ':' :: (t.program.block b).insts.flatMap t.program.instChars)) ++ s') := by
    induction bs with
    | nil => exact hend
    | cons b bs ih =>
      have hb := hbs b List.mem_cons_self
      have hrest := ih fun d hd => hbs d (List.mem_cons_of_mem _ hd)
      have hcode := hinsts (p.block b).insts (fun i hi => List.mem_flatMap.2 ⟨b, hb, hi⟩) hrest
      have hline := hlabel b hb _ _ _ hcode
      have hlabel : t.program.label b = p.label b := by rw [Program.label, h.blocks]; rfl
      rw [List.flatMap_cons, List.countP_append, Nat.add_comm]
      simp only [List.flatMap_cons, List.cons_append, List.append_assoc, hlabel]
      rw [h.blocks]
      exact hline
  rw [Program.bodyChars, Program.bodyChars, h.grows.items.func]
  exact hblocks _ fun _ hb => hb

/-! ## Plain names -/

theorem isPlain_ref (hv : IsPlain (p.ref v)) : IsPlain (t.program.ref v) := by
  cases v with
  | inst j =>
    by_cases hj : j < p.insts.size
    · rw [Program.ref, (h.grows.look j hj).2]
      exact hv
    · rcases h.grows.new j (Nat.le_of_not_lt hj) with ⟨-, -, n, hn, -, -, k, rfl⟩ | ⟨-, -, hn⟩
      · rw [Program.ref, hn]
        exact IsPlain.append (a := "%") (by decide) (isPlain_numbered (by decide) k)
      · exact Program.isPlain_unnamed hn
  | _ => exact hv

theorem isPlain_subst (hv : IsPlain (p.ref v)) : IsPlain (t.program.ref (φ.subst v)) := by
  rcases φ.subst_cases v with heq | ⟨_, l, -, -, heq⟩
  · rw [heq]
    exact h.isPlain_ref hv
  · rw [heq]
    exact isPlain_int l.value

theorem plainInst (hi : i ∈ p.instructions a.func) (hx : φ i = .kept) (hplain : p.PlainInst i) :
    t.program.PlainInst i := by
  have hinst := h.became i hi
  rw [hx] at hinst
  have hinst : t.program.inst i = { p.inst i with op := (p.inst i).op.map φ.subst id } := hinst
  refine ⟨⟨fun v hv => ?_, fun b hb => ?_, fun callee hcallee => ?_⟩, h.isPlain_ref hplain.result⟩
  · rw [hinst, Form.operands_map] at hv
    obtain ⟨w, hw, rfl⟩ := List.mem_map.1 hv
    exact h.isPlain_subst (hplain.operands w hw)
  · rw [hinst, Form.blocks_map, List.map_id] at hb
    rw [Program.label, h.blocks]
    exact hplain.labels b hb
  · rw [hinst, Form.callee?_map] at hcallee
    exact hplain.callee callee hcallee

variable (hplain : p.PlainFunc a.func)

section Calls

variable (hread : IsPlain (names.nameOf .read)) (hwrite : IsPlain (names.nameOf .write))
include hplain hread hwrite

/-- What is in the place of an instruction weighs no more than it, and less if there is a write. -/
theorem weight_segment_le (hi : i ∈ p.instructions a.func) (s : List Char) :
    weight ((φ.segment i).flatMap t.program.instChars ++ s) +
        (if (φ i).write?.isSome then 1 else 0) ≤
      weight s + if Program.isHeavy (p.inst i).op then 1 else 0 := by
  have hold := hplain.insts i hi
  have hbecame := h.became i hi
  cases hx : φ i with
  | kept =>
    have hline := (h.plainInst hi hx hold).weight_line s
    rw [hx] at hbecame
    have hop : (t.program.inst i).op = (p.inst i).op.map φ.subst id := congrArg Inst.op hbecame
    rw [hop, Program.isHeavy_map] at hline
    rw [Fates.segment_eq_self hx, List.flatMap_singleton, hline]
    exact Nat.le_refl _
  | dropped l =>
    rw [Fates.segment_eq_code (by simp [hx]), hx]
    exact Nat.le_add_right ..
  | written w l =>
    rw [hx] at hbecame
    obtain ⟨-, handle, x, y, ha, hw⟩ := hbecame
    have hhandle := h.isPlain_subst (hold.operands handle ha.mem_operands)
    have hargs : ∀ v ∈ [φ.subst handle, .literal l], IsPlain (t.program.ref v) := by
      rintro v (_ | ⟨_, _ | ⟨_, ⟨⟩⟩⟩)
      exacts [hhandle, isPlain_int l.value]
    have hlight := Program.weight_call (congrArg Inst.op hw) hwrite hargs (Nat.le_refl _)
      (Program.isPlain_unnamed (congrArg Inst.name hw)) s
    rw [ha.isHeavy, Fates.segment_eq_code (by simp [hx]), hx, Fate.code,
      List.flatMap_singleton, hlight]
    exact Nat.le_refl _
  | copied r w u =>
    rw [hx] at hbecame
    obtain ⟨-, handle, x, y, n, ha, hzero, -, hr, hw⟩ := hbecame
    have hhandle := h.isPlain_subst (hold.operands handle ha.mem_operands)
    have hu : u ∈ (p.inst i).op.operands := by
      obtain ⟨callee, rest, hop⟩ := ha.op
      rw [hop]
      rcases hzero with ⟨-, rfl⟩ | ⟨-, rfl⟩ <;> simp [Form.operands]
    have hname : IsPlain (t.program.ref (.inst r)) := by
      obtain ⟨k, rfl⟩ := h.grows.named (h.new (i := i) (by rw [hx]; exact List.mem_cons_self))
        (congrArg Inst.name hr)
      rw [Program.ref, hr]
      exact IsPlain.append (a := "%") (by decide) (isPlain_numbered (by decide) k)
    have hlight := Program.weight_call (congrArg Inst.op hw) hwrite (by simp [hhandle, hname])
      (Nat.le_refl _) (Program.isPlain_unnamed (congrArg Inst.name hw)) s
    have hcopy := Program.weight_call (congrArg Inst.op hr) hread
      (by simp [h.isPlain_subst (hold.operands u hu)]) (by simp) hname
      (t.program.instChars w ++ s)
    rw [ha.isHeavy, Fates.segment_eq_code (by simp [hx]), hx, Fate.code, List.flatMap_cons,
      List.flatMap_singleton, List.append_assoc, hcopy, hlight]
    exact Nat.le_refl _

/-- Every call that gives way to a write makes the text lighter. -/
theorem weight_funcText_le : weight (t.program.funcText a.func).toList +
    (t.rewriter.stats.folded + t.rewriter.stats.simplified) ≤
      weight (p.funcText a.func).toList := by
  have hbody := h.rel_body (R := fun m s s' => weight s' + m ≤ weight s)
    (P := fun i => (φ i).write?.isSome) (fun b hb m s s' hs => ?_)
    (fun i hi m s s' hs => ?_) ['\n', '}'] ['\n', '}'] (Nat.le_refl _)
  · rw [← h.replaced] at hbody
    rw [Program.funcText_eq, Program.funcText_eq, h.headText_eq, Program.weight_headText,
      Program.weight_headText]
    omega
  · have hline := hplain.blocks b hb '(' (by simp)
    have hlabel (r : List Char) :
        weight ('\n' :: ((p.label b).toList ++ ':' :: r)) = weight r := by
      have heq : '\n' :: ((p.label b).toList ++ ':' :: r) =
          ('\n' :: ((p.label b).toList ++ [':'])) ++ r := by simp
      rw [heq, weight_append (by simp [hline])]
    rw [hlabel, hlabel]
    exact hs
  · have hold := (hplain.insts i hi).weight_line s
    have hsegment := h.weight_segment_le hplain hread hwrite hi s'
    omega

end Calls

include hplain

/-- Every read that goes takes its line with it, if nothing else is put in. -/
theorem count_newline_le (hnone : t.rewriter.stats.folded + t.rewriter.stats.simplified = 0) :
    (t.program.funcText a.func).toList.count '\n' + t.rewriter.stats.propagated ≤
      (p.funcText a.func).toList.count '\n' := by
  have hbody := h.rel_body (R := fun m s s' => s'.count '\n' + m ≤ s.count '\n')
    (P := fun i => (φ i).literal?.isSome) (fun b hb m s s' hs => ?_)
    (fun i hi m s s' hs => ?_) ['\n', '}'] ['\n', '}'] (Nat.le_refl _)
  · have hhead (s : List Char) : ((p.headText a.func).toList ++ s).count '\n' =
        (p.headText a.func).toList.count '\n' + s.count '\n' := List.count_append
    rw [← h.propagated] at hbody
    rw [Program.funcText_eq, Program.funcText_eq, h.headText_eq, hhead, hhead]
    omega
  · simp only [List.count_cons, List.count_append]
    omega
  · have hline {q : Program} (hq : q.PlainInst i) : (q.instChars i).count '\n' = 1 := by
      rw [Program.instChars, List.count_append, List.count_eq_zero.2 hq.newline_not_mem]
      rfl
    have hold := hline (hplain.insts i hi)
    rw [h.replaced, List.countP_eq_zero] at hnone
    have hwrite := hnone i hi
    rw [List.count_append, List.count_append, hold]
    cases hx : φ i with
    | kept =>
      have hnew := hline (h.plainInst hi hx (hplain.insts i hi))
      rw [Fates.segment_eq_self hx, List.flatMap_singleton, hnew]
      simp only [Fate.literal?, Option.isSome_none, Bool.false_eq_true, if_false]
      omega
    | dropped l =>
      rw [Fates.segment_eq_code (by simp [hx]), hx]
      simp only [Fate.code, Fate.literal?, List.flatMap_nil, List.count_nil, Option.isSome_some,
        if_true]
      omega
    | written w l | copied r w u =>
      rw [hx] at hwrite
      exact absurd rfl hwrite

/-- Whatever is reported shows in the text. -/
theorem funcText_ne (hread : IsPlain (names.nameOf .read)) (hwrite : IsPlain (names.nameOf .write))
    (hstats : 0 < t.rewriter.stats.total) :
    t.program.funcText a.func ≠ p.funcText a.func := by
  intro heq
  have hweight := h.weight_funcText_le hplain hread hwrite
  have hcount := h.count_newline_le hplain
  rw [heq] at hweight hcount
  rw [RewriteStats.total] at hstats
  omega

end Accounted

namespace RewriteM

variable {p : Program} {a : Analysis}

/-- A rewriting that reports no change has not touched the program. -/
theorem run_unchanged {s : RewriteState} (hreplaced : s.rewriter.replaced = []) :
    Yields run s fun changed t => changed = false → t = s := by
  cases hconv : s.rewriter.analysis.converged with
  | true => exact (run_idles hconv hreplaced).mono fun _ _ ht => ht.2
  | false =>
    unfold run
    refine .bind_get ?_
    rw [hconv]
    exact .pure fun _ => rfl

/-- A rewriting changes nothing but what it reports. Each instruction has met its fate, all that is
not kept is counted, and if the names are plain, those in the function and those of the calls that
are put in, the text of the function has changed exactly if something is reported. -/
theorem ends_run_reports (hp : p.Linked) (hknown : ∀ i ∈ a.before, i < p.insts.size)
    (names : Names) :
    Ends run { program := p, rewriter := { analysis := a, names } } fun changed t =>
      ∃ φ, Accounted p a names φ t ∧ (changed = true ↔ 0 < t.rewriter.stats.total) ∧
        (p.PlainFunc a.func → IsPlain (names.nameOf .read) → IsPlain (names.nameOf .write) →
          (changed = true ↔ t.program.funcText a.func ≠ p.funcText a.func)) := by
  refine ((ends_run_accounted hp hknown names).and (run_unchanged rfl)).mono ?_
  rintro changed t ⟨⟨φ, h, hchanged⟩, hsame⟩
  refine ⟨φ, h, hchanged, fun hplain hread hwrite => ⟨fun hc => ?_, fun hne => ?_⟩⟩
  · exact h.funcText_ne hplain hread hwrite (hchanged.1 hc)
  · by_contra hc
    rw [Bool.not_eq_true] at hc
    exact hne (by rw [hsame hc])

/-- A sum of constants, a sum with zero, and a read. -/
def sumsText : String :=
  "define i64 @f(ptr %d)\x7be:%a=call ptr @create(i64 2)%z=call ptr @create(i64 0)" ++
  "%c=call ptr @create(i64 9)call void @add(ptr %c,ptr %a,ptr %a)" ++
  "call void @opaque(ptr %c)%b=call ptr @create(i64 7)call void @add(ptr %b,ptr %c,ptr %z)" ++
  "%x=call i64 @read(ptr %a)call void @printf(i64 %x)ret i64 %x\x7d"

theorem ends_run_reports_sums : ∃ p a, Program.load sumsText.toList = .ok p ∧ p.Linked ∧
    a = Analysis.solve p 0 {} .conservative (Classification.ofFunc p {} 0).1 ∧
    (∀ i ∈ a.before, i < p.insts.size) ∧ p.PlainFunc a.func ∧
    Ends run { program := p, rewriter := { analysis := a, names := Options.names {} } }
      fun changed t =>
        (changed = true ∧ t.rewriter.stats = { folded := 1, simplified := 1, propagated := 1 }) ∧
        ∃ φ, Accounted p a {} φ t ∧ (changed = true ↔ 0 < t.rewriter.stats.total) ∧
          (changed = true ↔ t.program.funcText a.func ≠ p.funcText a.func) := by
  obtain ⟨p, hload, hp, hfuncs, hv, hconv, hrun⟩ := Program.exists_load (s := sumsText.toList)
    (P := fun p => 0 ∈ p.moduleFuncs ∧ p.verify 0 = [] ∧
      (Analysis.solve p 0 {} .conservative (Classification.ofFunc p {} 0).1).converged = true ∧
      Ends run
        { program := p
          rewriter := {
            analysis := Analysis.solve p 0 {} .conservative (Classification.ofFunc p {} 0).1
            names := Options.names {} } }
        fun changed t => changed = true ∧
          t.rewriter.stats = { folded := 1, simplified := 1, propagated := 1 })
      (by decide +kernel)
  have ha := Analysis.run_settled hp hv (Classification.ofFunc_numbered p {} 0)
    (Analysis.run_of_converged hconv)
  have hplain := Program.plain_of_load hload hfuncs
  rw [← ha.func] at hplain
  have hknown := (ha.describes hp).known
  refine ⟨p, _, hload, hp, rfl, hknown, hplain,
    (hrun.and (ends_run_reports hp hknown (Options.names {})).yields).mono ?_⟩
  rintro changed t ⟨hstats, φ, h, hchanged, htext⟩
  exact ⟨hstats, φ, h, hchanged, htext hplain (by decide) (by decide)⟩

/-- Names by which a write is written like an addition. -/
def forgedNames : Names := { write := "add(ptr %a, ptr %b, ptr %q" }

/-- An addition of constants, the second of which has a name that is written like two arguments. -/
def forgedSteps : List BuildStep := [
  .function "f" .void [] true,
  .block 0 "e",
  .insert ⟨0, none⟩ (.call "create" [.literal ⟨0, 1, .i64⟩]) .ptr (some "a"),
  .insert ⟨0, none⟩ (.call "create" [.literal ⟨1, 2, .i64⟩]) .ptr (some "b"),
  .insert ⟨0, none⟩ (.call "create" [.literal ⟨2, 3, .i64⟩]) .ptr (some "q(ptr %a, i64 5"),
  .insert ⟨0, none⟩ (.call "add" [.inst 0, .inst 1, .inst 2]) .void none,
  .insert ⟨0, none⟩ (.ret none) .void none]

/-- What is reported need not show in the text: the write that takes the place of the addition is
written as it was. -/
theorem text_kept_forged : ∃ p a, p = BuildStep.run { name := "module" } forgedSteps ∧
    BuildStep.Legal { name := "module" } forgedSteps ∧ p.verify 0 = [] ∧
    a = Analysis.solve p 0 { names := forgedNames } .conservative
      (Classification.ofFunc p { names := forgedNames } 0).1 ∧ a.converged = true ∧
    Ends run { program := p, rewriter := { analysis := a, names := forgedNames } }
      fun changed t => changed = true ∧ t.rewriter.stats.folded = 1 ∧
        t.program.funcText 0 = p.funcText 0 := by
  refine ⟨_, _, rfl, ?_, ?_, rfl, ?_, ?_⟩ <;> decide +kernel

end RewriteM

end BoxFlow
