import BoxFlow.Proofs.IR.TextWeight
import BoxFlow.Proofs.Rewriting.Follows
import BoxFlow.Proofs.Rewriting.Mirrors

/-!
# What a rewriting accounts for

A rewriting changes nothing but what it counts (`RewriteM.ends_run_accounted`): every instruction
but the calls that have met their fates stays what and where it was, each of these calls is counted,
and the rewriting says that it has changed the function exactly if there are any.
-/

namespace BoxFlow

open Function (update)

/-- One more of the elements of a list is told apart when the fate of one is. -/
theorem countP_update {φ : Fates} {l : List InstId} {i : InstId} {x : Fate} {P : Fate → Bool}
    (hl : l.Nodup) (hi : i ∈ l) (hx : P (φ i) = false) :
    l.countP (fun j => P (update φ i x j)) =
      l.countP (fun j => P (φ j)) + if P x then 1 else 0 := by
  obtain ⟨pre, post, rfl⟩ := List.append_of_mem hi
  obtain ⟨-, hpost, hpre⟩ := List.nodup_append.1 hl
  have hsame {m : List InstId} (hm : i ∉ m) :
      m.countP (fun j => P (update φ i x j)) = m.countP fun j => P (φ j) :=
    List.countP_congr fun j hj => by
      have hji : j ≠ i := fun hji => hm (hji ▸ hj)
      rw [Function.update_of_ne hji]
  have hnot : i ∉ pre := fun hmem => hpre i hmem i List.mem_cons_self rfl
  rw [List.countP_append, List.countP_append, List.countP_cons, List.countP_cons, hsame hnot,
    hsame (List.nodup_cons.1 hpost).1, Function.update_self, hx]
  simp only [Bool.false_eq_true, if_false]
  omega

namespace Program

/-- `q` is `p` with more calls in function `f`: reads with fresh names, and writes. Instructions
that were there keep their types and names. -/
structure Grows (p q : Program) (f : FuncId) (names : Names) : Prop where
  items : p.SameItems q f
  size : p.insts.size ≤ q.insts.size
  look : ∀ i < p.insts.size, (q.inst i).ty = (p.inst i).ty ∧ (q.inst i).name = (p.inst i).name
  new : ∀ i, p.insts.size ≤ i →
    ((q.inst i).op.callee? = some (names.nameOf .read) ∧ (q.inst i).ty = .i64 ∧
        ∃ n, (q.inst i).name = some n ∧ n ∉ (p.func f).names ∧ n ∈ (q.func f).names ∧
          ∃ k, n = numbered "val" k) ∨
      (q.inst i).op.callee? ≠ some (names.nameOf .read) ∧ (q.inst i).ty = .void ∧
        (q.inst i).name = none
  apart : ∀ i j, p.insts.size ≤ i → p.insts.size ≤ j → (q.inst i).name ≠ none →
    (q.inst i).name = (q.inst j).name → i = j

theorem inst_of_size_le {p : Program} {i : InstId} (h : p.insts.size ≤ i) :
    p.inst i = { op := .unreachable, ty := .void } := by
  rw [inst, Array.getD_eq_getD_getElem?, Array.getElem?_eq_none h]
  rfl

/-- A read is given a fresh name. -/
theorem Christens.read {p q : Program} {f : FuncId} {name : Option String}
    (h : p.Christens q f .i64 (some "val") name) : ∃ n, name = some n ∧ n ∉ (p.func f).names ∧
      n ∈ (q.func f).names ∧ ∃ k, n = numbered "val" k := by
  cases name with
  | none => cases h
  | some n =>
    obtain ⟨-, hnot, hmem, base, k, hk, hbase⟩ := h
    obtain rfl : "val" = base := by
      rcases hbase with hbase | ⟨-, hbase⟩
      · exact Option.some.inj hbase
      · exact absurd hbase (by decide)
    exact ⟨n, rfl, hnot, hmem, k, hk⟩

/-- What has no result is given no name. -/
theorem Christens.void {p q : Program} {f : FuncId} {hint name : Option String}
    (h : p.Christens q f .void hint name) : name = none := by
  cases name with
  | none => rfl
  | some n => exact absurd rfl h.1

namespace Grows

variable {p q r : Program} {f : FuncId} {names : Names} {i : InstId} {b : BlockId}

theorem refl (p : Program) (f : FuncId) (names : Names) : p.Grows p f names where
  items := .refl p f
  size := Nat.le_refl _
  look _ _ := ⟨rfl, rfl⟩
  new i hi := by
    rw [inst_of_size_le hi]
    exact .inr ⟨nofun, rfl, rfl⟩
  apart i j hi _ hne := by
    rw [inst_of_size_le hi] at hne
    exact absurd rfl hne

variable (h : p.Grows q f names)
include h

/-- Operands and places do not matter. -/
theorem congr (hitems : q.SameItems r f) (hsize : r.insts.size = q.insts.size)
    (hinst : ∀ i, (r.inst i).ty = (q.inst i).ty ∧ (r.inst i).name = (q.inst i).name ∧
      (r.inst i).op.callee? = (q.inst i).op.callee?) : p.Grows r f names where
  items := h.items.trans hitems
  size := hsize ▸ h.size
  look i hi := by
    rw [(hinst i).1, (hinst i).2.1]
    exact h.look i hi
  new i hi := by
    rw [(hinst i).1, (hinst i).2.1, (hinst i).2.2]
    refine (h.new i hi).imp_left fun ⟨hop, hty, n, hn, hnot, hmem, hk⟩ => ?_
    exact ⟨hop, hty, n, hn, hnot, hitems.given hmem, hk⟩
  apart i j hi hj := by
    rw [(hinst i).2.1, (hinst j).2.1]
    exact h.apart i j hi hj

theorem substitute {old new : Value} (hitems : q.SameItems r f)
    (hs : q.Substituted r f old new) : p.Grows r f names := by
  refine h.congr hitems hs.size fun i => ?_
  rw [hs.inst]
  split
  · exact ⟨rfl, rfl, by cases (q.inst i).op <;> rfl⟩
  · exact ⟨rfl, rfl, rfl⟩

theorem erase (hitems : q.SameItems r f) (her : q.Erased r b i) : p.Grows r f names := by
  refine h.congr hitems her.size fun j => ?_
  rw [her.inst]
  split <;> exact ⟨rfl, rfl, rfl⟩

/-- One more call, a named read or a write. -/
theorem insert {o : Operation} {args : List Value} {ty : Ty} {hint name : Option String}
    (hitems : q.SameItems r f) (hname : q.Christens r f ty hint name)
    (hins : q.Inserted r b i { op := .call (names.nameOf o) args, ty, name })
    (ho : o = .read ∧ ty = .i64 ∧ hint = some "val" ∨ o = .write ∧ ty = .void) :
    p.Grows r f names := by
  have hold {j : InstId} (hj : j ≠ q.insts.size) : r.inst j = q.inst j := by
    rw [hins.inst, if_neg hj]
  -- A name that has just been given away differs from all that were before.
  have hfresh {j : InstId} (hj : p.insts.size ≤ j) (hne : j ≠ q.insts.size)
      (hsome : name ≠ none) : (r.inst j).name ≠ name := by
    intro heq
    rw [hold hne] at heq
    rcases h.new j hj with ⟨-, -, n, hn, -, hmem, -⟩ | ⟨-, -, hn⟩
    · rw [hn] at heq
      rw [← heq] at hname
      exact hname.2.1 hmem
    · exact hsome (heq.symm.trans hn)
  have hlast : (r.inst q.insts.size).name = name := by rw [hins.inst, if_pos rfl]
  exact {
    items := h.items.trans hitems
    size := by
      rw [hins.size]
      exact Nat.le_succ_of_le h.size
    look := fun j hj => by
      rw [hold (Nat.ne_of_lt (Nat.lt_of_lt_of_le hj h.size))]
      exact h.look j hj
    new := fun j hj => by
      by_cases hjq : j = q.insts.size
      · rw [hins.inst, if_pos hjq]
        rcases ho with ⟨rfl, rfl, rfl⟩ | ⟨rfl, rfl⟩
        · obtain ⟨n, rfl, hnot, hmem, k, hk⟩ := hname.read
          exact .inl ⟨rfl, rfl, n, rfl, fun hn => hnot (h.items.given hn), hmem, k, hk⟩
        · refine .inr ⟨fun heq => ?_, rfl, hname.void⟩
          have hkinds := congrArg names.operation? (Option.some.inj heq)
          rw [names.operation?_nameOf, names.operation?_nameOf] at hkinds
          cases hkinds
      · rw [hold hjq]
        refine (h.new j hj).imp_left fun ⟨hop, hty, n, hn, hnot, hmem, hk⟩ => ?_
        exact ⟨hop, hty, n, hn, hnot, hitems.given hmem, hk⟩
    apart := fun j k hj hk hne heq => by
      by_cases hjq : j = q.insts.size
      · subst hjq
        rw [hlast] at hne heq
        by_contra hjk
        exact hfresh hk (Ne.symm hjk) hne heq.symm
      · by_cases hkq : k = q.insts.size
        · subst hkq
          rw [hlast] at heq
          exact (hfresh hj hjq (heq ▸ hne) heq).elim
        · rw [hold hjq] at hne heq
          rw [hold hkq] at heq
          exact h.apart j k hj hk hne heq }

omit h in
theorem named (h : p.Grows q f names) (hi : p.insts.size ≤ i) {n : String}
    (hn : (q.inst i).name = some n) : ∃ k, n = numbered "val" k := by
  rcases h.new i hi with ⟨-, -, m, hm, -, -, k, hk⟩ | ⟨-, -, hnone⟩
  · exact ⟨k, (Option.some.inj (hn.symm.trans hm)).trans hk⟩
  · cases hn.symm.trans hnone

end Grows

end Program

/-! ## The ledger -/

/-- At a stage of the rewriting, when some of the fates had been met, what stood for the value `v`
was known to be `c` right before instruction `i`. -/
def Fates.Showed (φ : Fates) (p : Program) (a : Analysis) (names : Names) (i : InstId) (v : Value)
    (c : Int) : Prop :=
  ∃ ψ ds s, Rewriting p a names (fun _ _ => True) ψ ds s ∧ (∀ j, ψ j ≠ .kept → φ j = ψ j) ∧
    s.rewriter.constantOf s.program i (ψ.subst v) = some c

theorem Fates.Showed.update {φ : Fates} {p : Program} {a : Analysis} {names : Names}
    {i j : InstId} {v : Value} {c : Int} {x : Fate} (h : φ.Showed p a names i v c)
    (hj : φ j = .kept) : Fates.Showed (update φ j x) p a names i v c := by
  obtain ⟨ψ, ds, s, hs, hle, hc⟩ := h
  refine ⟨ψ, ds, s, hs, fun k hk => ?_, hc⟩
  have hkj : k ≠ j := by
    rintro rfl
    exact hk ((hle k hk).symm.trans hj)
  rw [Function.update_of_ne hkj]
  exact hle k hk

/-- What a fate has to do with what was there and with what was known. -/
def Fate.Due (p : Program) (a : Analysis) (names : Names) (φ : Fates) (i : InstId) : Fate → Prop
  | .kept => True
  | .dropped l => l.ty = if (p.inst i).hasResult then (p.inst i).ty else .i64
  | .written _ l => l.ty = .i64
  | .copied _ _ u => a.cls.kindOf i = .operation .add ∧ ∃ handle x y,
      a.Arithmetic p i handle x y ∧
      (φ.Showed p a names i x 0 ∧ u = y ∨ φ.Showed p a names i y 0 ∧ u = x)

/-- What is kept count of in the course of a rewriting. -/
structure Ledger (p : Program) (a : Analysis) (names : Names) (φ : Fates) (s : RewriteState) :
    Prop where
  grows : p.Grows s.program a.func names
  due : ∀ i, (φ i).Due p a names φ i
  replaced : s.rewriter.stats.folded + s.rewriter.stats.simplified =
    (p.instructions a.func).countP fun i => (φ i).write?.isSome
  propagated : s.rewriter.stats.propagated =
    (p.instructions a.func).countP fun i => (φ i).literal?.isSome

namespace Ledger

variable {p : Program} {a : Analysis} {names : Names} {φ : Fates} {s t : RewriteState}
  {i : InstId} {x : Fate}

theorem start (p : Program) (a : Analysis) (names : Names) :
    Ledger p a names (fun _ => .kept) { program := p, rewriter := { analysis := a, names } } where
  grows := .refl p a.func names
  due _ := True.intro
  replaced := by simp [Fate.write?]
  propagated := by simp [Fate.literal?]

/-- One more fate. -/
theorem meet (h : Ledger p a names φ s) (hp : p.Linked) (hx : φ i = .kept)
    (hi : i ∈ p.instructions a.func) (hgrows : p.Grows t.program a.func names)
    (hdue : x.Due p a names φ i)
    (hreplaced : t.rewriter.stats.folded + t.rewriter.stats.simplified =
      s.rewriter.stats.folded + s.rewriter.stats.simplified + if x.write?.isSome then 1 else 0)
    (hpropagated : t.rewriter.stats.propagated =
      s.rewriter.stats.propagated + if x.literal?.isSome then 1 else 0) :
    Ledger p a names (update φ i x) t where
  grows := hgrows
  due j := by
    have hupdate {k : InstId} {y : Fate} (hy : y.Due p a names φ k) :
        y.Due p a names (update φ i x) k := by
      cases y with
      | copied r w u =>
        obtain ⟨hkind, handle, y, z, ha, hzero⟩ := hy
        exact ⟨hkind, handle, y, z, ha, hzero.imp (And.imp_left (·.update hx))
          (And.imp_left (·.update hx))⟩
      | _ => exact hy
    by_cases hji : j = i
    · subst hji
      rw [Function.update_self]
      exact hupdate hdue
    · rw [Function.update_of_ne hji]
      exact hupdate (h.due j)
  replaced := by
    rw [countP_update (P := fun y => y.write?.isSome) (hp.nodup_instructions _) hi
      (by rw [hx]; rfl), ← h.replaced, hreplaced]
  propagated := by
    rw [countP_update (P := fun y => y.literal?.isSome) (hp.nodup_instructions _) hi
      (by rw [hx]; rfl), ← h.propagated, hpropagated]

/-- The ledger is kept throughout a rewriting. -/
theorem upholds (hp : p.Linked) (a : Analysis) (names : Names) :
    Upholds p a names (fun _ _ => True) (Ledger p a names) where
  written {φ ds s t i b handle y z w l} h hs hx ha hl ht _ := by
    obtain ⟨u, hw, hprog, -⟩ := ht.added
    obtain ⟨name, hname, hins⟩ := hw.program
    have hnames : s.rewriter.names = names := h.names
    rw [← hprog, show RewriteState.rewriter _ = s.rewriter from rfl, hnames] at hins
    refine hs.meet hp hx ha.mem ?_ hl ht.replaced ht.propagated
    exact Program.Grows.insert (q := { s.program with nextSerial := s.program.nextSerial + 1 })
      (hs.grows.congr (.of_func rfl rfl rfl rfl fun _ => rfl) rfl fun _ => ⟨rfl, rfl, rfl⟩)
      (hprog ▸ hw.items) (hprog ▸ hname) hins (.inr ⟨rfl, rfl⟩)
  copied {φ ds s u t i b handle y z r w operand} h hs hx ha hkind hzero hr ht _ := by
    obtain ⟨v, hw, hprog, -⟩ := ht.added
    obtain ⟨name, hname, hins⟩ := hr.program
    obtain ⟨name', hname', hins'⟩ := hw.program
    have hnames : u.rewriter.names = names := by rw [hr.rewriter]; exact h.names
    rw [h.names] at hins
    rw [hnames] at hins'
    have hgrown := hs.grows.insert hr.items hname hins (.inl ⟨rfl, rfl, rfl⟩)
    have hstats : u.rewriter.stats = s.rewriter.stats := by rw [hr.rewriter]
    refine hs.meet hp hx ha.mem ?_ ⟨hkind, handle, y, z, ha, ?_⟩ (hstats ▸ ht.replaced)
      (hstats ▸ ht.propagated)
    · rw [hprog]
      exact hgrown.insert hw.items hname' hins' (.inr ⟨rfl, rfl⟩)
    · exact hzero.imp (And.imp_left fun hc => ⟨φ, ds, s, h, fun _ _ => rfl, hc⟩)
        (And.imp_left fun hc => ⟨φ, ds, s, h, fun _ _ => rfl, hc⟩)
  dropped {φ ds s t i value l} h hs hx ha ht _ := by
    have hlook := hs.grows.look i (hp.lt_size ha.mem)
    refine hs.meet hp hx ha.mem ?_ ?_ ht.replaced ht.propagated
    · refine Program.Grows.substitute
        (q := { s.program with nextSerial := s.program.nextSerial + 1 })
        (hs.grows.congr (.of_func rfl rfl rfl rfl fun _ => rfl) rfl fun _ => ⟨rfl, rfl, rfl⟩)
        ((h.func_eq ▸ ht.items).congr rfl rfl rfl rfl fun _ => rfl) (h.func_eq ▸ ht.program)
    · show l.ty = _
      rw [ht.literal, Inst.hasResult, Inst.hasResult, hlook.1]
  erased _ hs hitems hq := ⟨hs.grows.erase hitems hq, hs.due, hs.replaced, hs.propagated⟩

end Ledger

/-! ## What is accounted for -/

/-- What has become of instruction `i` of the analysed function: it is kept, a `read` has gone, or
there is a `write` to the same destination in the place of an arithmetic call, right after a `read`
of one operand of an addition if the other one was known to be zero. -/
def Program.Became (p q : Program) (a : Analysis) (names : Names) (φ : Fates) (i : InstId) :
    Fate → Prop
  | .kept => q.inst i = { p.inst i with op := (p.inst i).op.map φ.subst id }
  | .dropped l => a.Reading p i ∧ l.ty = if (p.inst i).hasResult then (p.inst i).ty else .i64
  | .written w l => l.ty = .i64 ∧ ∃ handle x y, a.Arithmetic p i handle x y ∧
      q.inst w = {
        op := .call (names.nameOf .write) [φ.subst handle, .literal l]
        ty := .void
        block := (p.inst i).block }
  | .copied r w u => a.cls.kindOf i = .operation .add ∧ ∃ handle x y n,
      a.Arithmetic p i handle x y ∧
      (φ.Showed p a names i x 0 ∧ u = y ∨ φ.Showed p a names i y 0 ∧ u = x) ∧
      n ∉ (p.func a.func).names ∧
      q.inst r = {
        op := .call (names.nameOf .read) [φ.subst u]
        ty := .i64
        name := some n
        block := (p.inst i).block } ∧
      q.inst w = {
        op := .call (names.nameOf .write) [φ.subst handle, .inst r]
        ty := .void
        block := (p.inst i).block }

/-- The rewriting of the function of `a` in the program `p` has come to its end, and each
instruction has met its fate. Nothing else has changed, and all that has is counted. -/
structure Accounted (p : Program) (a : Analysis) (names : Names) (φ : Fates) (t : RewriteState) :
    Prop where
  grows : p.Grows t.program a.func names
  blocks : ∀ b, t.program.block b = { p.block b with insts := (p.block b).insts.flatMap φ.segment }
  others : ∀ {i}, i < p.insts.size → i ∉ p.instructions a.func → t.program.inst i = p.inst i
  within : ∀ i, φ i ≠ .kept → i ∈ p.instructions a.func
  new : ∀ {i j}, j ∈ (φ i).code → p.insts.size ≤ j
  became : ∀ i ∈ p.instructions a.func, p.Became t.program a names φ i (φ i)
  apart : ∀ {i j r w u r' w' u'}, φ i = .copied r w u → φ j = .copied r' w' u' →
    (t.program.inst r).name = (t.program.inst r').name → i = j
  replaced : t.rewriter.stats.folded + t.rewriter.stats.simplified =
    (p.instructions a.func).countP fun i => (φ i).write?.isSome
  propagated : t.rewriter.stats.propagated =
    (p.instructions a.func).countP fun i => (φ i).literal?.isSome

namespace Ledger

variable {p : Program} {a : Analysis} {names : Names} {φ : Fates} {t : RewriteState} {i j : InstId}
  (hp : p.Linked) (h : Rewriting p a names (fun _ _ => True) φ [] t)
  (hl : Ledger p a names φ t)
include hp h

theorem held_of_mem_code (hi : i ∈ p.instructions a.func) (hj : j ∈ (φ i).code) :
    (t.program.inst j).block = (p.inst i).block := by
  obtain ⟨b, -, hib⟩ := List.mem_flatMap.1 hi
  rw [hp.held hib]
  refine h.program.held ?_
  rw [h.program.blocks]
  exact List.mem_flatMap.2 ⟨i, hib, List.mem_append_left _ hj⟩

include hl

/-- What has been put in for an operation that yields nothing. -/
theorem inst_of_write (hi : i ∈ p.instructions a.func) (hj : j ∈ (φ i).code) {args : List Value}
    (hcalls : t.Calls j .write args) : t.program.inst j = {
      op := .call (names.nameOf .write) args
      ty := .void
      block := (p.inst i).block } := by
  have hop := hcalls.op
  rw [h.names] at hop
  have hblock := held_of_mem_code hp h hi hj
  rcases hl.grows.new j (h.lt_of_mem_code hj).1 with ⟨hread, -⟩ | ⟨-, hty, hname⟩
  · rw [hop] at hread
    have hkinds := congrArg names.operation? (Option.some.inj hread)
    rw [names.operation?_nameOf, names.operation?_nameOf] at hkinds
    cases hkinds
  · rw [← hop, ← hblock, ← hty]
    cases hinst : t.program.inst j
    rw [hinst] at hname
    simp only at hname
    rw [hname]

theorem inst_of_read (hi : i ∈ p.instructions a.func) (hj : j ∈ (φ i).code) {args : List Value}
    (hcalls : t.Calls j .read args) : ∃ n, n ∉ (p.func a.func).names ∧ t.program.inst j = {
      op := .call (names.nameOf .read) args
      ty := .i64
      name := some n
      block := (p.inst i).block } := by
  have hop := hcalls.op
  rw [h.names] at hop
  have hblock := held_of_mem_code hp h hi hj
  rcases hl.grows.new j (h.lt_of_mem_code hj).1 with ⟨-, hty, n, hname, hnot, -⟩ | ⟨hread, -⟩
  · refine ⟨n, hnot, ?_⟩
    rw [← hop, ← hblock, ← hty, ← hname]
  · rw [hop] at hread
    exact absurd rfl hread

theorem became (hi : i ∈ p.instructions a.func) : p.Became t.program a names φ i (φ i) := by
  have hfits := h.fits i
  have hdue := hl.due i
  cases hx : φ i with
  | kept => exact h.program.inst hi (Fates.erased_layout.2 (.inl hx))
  | dropped l =>
    rw [hx] at hfits hdue
    exact ⟨hfits, hdue⟩
  | written w l =>
    rw [hx] at hfits hdue
    obtain ⟨handle, x, y, ha, hw⟩ := hfits
    exact ⟨hdue, handle, x, y, ha, inst_of_write hp h hl hi (by rw [hx]; simp [Fate.code]) hw⟩
  | copied r w u =>
    rw [hx] at hfits hdue
    obtain ⟨handle, x, y, ha, -, hr, hw⟩ := hfits
    obtain ⟨hkind, handle', x', y', ha', hzero⟩ := hdue
    obtain ⟨n, hn, hread⟩ := inst_of_read hp h hl hi (by rw [hx]; simp [Fate.code]) hr
    have hwrite := inst_of_write hp h hl hi (by rw [hx]; simp [Fate.code]) hw
    obtain ⟨rfl, rfl, rfl⟩ := ha.operands_eq ha'
    exact ⟨hkind, handle, x, y, n, ha, hzero, hn, hread, hwrite⟩

/-- At the end of a rewriting all is accounted for. -/
theorem accounted : Accounted p a names φ t where
  grows := hl.grows
  blocks := h.program.blocks
  others := h.program.others
  within _ := h.mem_instructions
  new hj := (h.lt_of_mem_code hj).1
  became _ hi := became hp h hl hi
  apart {i j r w u r' w' u'} hi hj heq := by
    have hri : r ∈ (φ i).code := by rw [hi]; simp [Fate.code]
    have hrj : r' ∈ (φ j).code := by rw [hj]; simp [Fate.code]
    have hiin : i ∈ p.instructions a.func := h.mem_instructions (by simp [hi])
    have hjin : j ∈ p.instructions a.func := h.mem_instructions (by simp [hj])
    have hname : (t.program.inst r).name ≠ none := by
      have hread := became hp h hl hiin
      rw [hi] at hread
      obtain ⟨-, _, _, _, n, -, -, -, hread, -⟩ := hread
      rw [hread]
      exact Option.some_ne_none n
    obtain rfl := hl.grows.apart r r' (h.lt_of_mem_code hri).1 (h.lt_of_mem_code hrj).1 hname heq
    by_contra hne
    have hdisjoint : (φ.segment i).Disjoint (φ.segment j) := by
      have hsegments : ((p.instructions a.func).flatMap φ.segment).Nodup := by
        have heq : t.program.instructions a.func =
            (p.instructions a.func).flatMap φ.segment := by
          rw [Program.instructions, Program.instructions, h.program.funcs, List.flatMap_assoc]
          exact List.flatMap_congr fun b _ => by rw [h.program.blocks]; rfl
        rw [← heq]
        exact h.nodup_instructions hp
      rw [List.nodup_flatMap] at hsegments
      have : Std.Symm (Function.onFun List.Disjoint φ.segment) := ⟨fun _ _ h => h.symm⟩
      exact hsegments.2.forall hiin hjin hne
    exact hdisjoint (List.mem_append_left _ hri) (List.mem_append_left _ hrj)
  replaced := hl.replaced
  propagated := hl.propagated

end Ledger

/-- A rewriting counts all that has met its fate, and says that it has changed the function exactly
if something has. -/
theorem RewriteM.ends_run_accounted {p : Program} {a : Analysis} (hp : p.Linked)
    (hknown : ∀ i ∈ a.before, i < p.insts.size) (names : Names) :
    Ends run { program := p, rewriter := { analysis := a, names } } fun changed t =>
      ∃ φ, Accounted p a names φ t ∧ (changed = true ↔ 0 < t.rewriter.stats.total) := by
  have hS : Sanctions p a names fun _ _ => True :=
    ⟨fun _ _ _ _ _ => True.intro, fun _ _ _ _ => True.intro⟩
  refine (ends_run_upholds hp hS (Ledger.upholds hp a names) hknown (.start p a names)).mono ?_
  rintro changed t ⟨φ, h, hl, hchanged⟩
  refine ⟨φ, hl.accounted hp h, ?_⟩
  rw [← hchanged, RewriteStats.total, hl.replaced, hl.propagated, Nat.add_pos_iff_pos_or_pos,
    List.countP_pos_iff, List.countP_pos_iff]
  constructor
  · rintro ⟨i, hi⟩
    have hin := h.mem_instructions hi
    cases hx : φ i with
    | kept => exact absurd hx hi
    | dropped l => exact .inr ⟨i, hin, by rw [hx]; rfl⟩
    | written w l => exact .inl ⟨i, hin, by rw [hx]; rfl⟩
    | copied r w u => exact .inl ⟨i, hin, by rw [hx]; rfl⟩
  · rintro (⟨i, -, hi⟩ | ⟨i, -, hi⟩) <;> exact ⟨i, fun hx => by rw [hx] at hi; cases hi⟩

end BoxFlow
