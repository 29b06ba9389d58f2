import BoxFlow.Proofs.Loading
import BoxFlow.Proofs.Machine.Sources

/-!
# What a call can get at

Where a run enters an opaque call, the call can get at its arguments and at what can be reached from
them through cells. The oracle of a function lets the call write all that the function has made of
it (`Escape.oracle_of_reached`), as long as the oracle follows what escaping values may be loaded
from (`Escape.Thorough`). It does so where they are loaded through local pointers
(`Escape.thorough_of_origins`), but not where the pointers are loaded themselves
(`Escape.not_oracle_of_reached_nested`).
-/

namespace BoxFlow

open Relation (ReflTransGen)

open Machine (Traced Source From Came MadeBy)

/-- The address of a cell leads to what the cell holds. -/
def Machine.Holds (m : Machine) (x y : Datum) : Prop :=
  ∃ c, x = .cell c ∧ m.heap.cells[c]? = some (some y)

theorem Program.Makes.isRoot {p : Program} {o : Options} {r : InstId} {x : Datum}
    (h : p.Makes o r x) : Escape.isRoot p o r = true := by
  cases x with
  | int => exact h.elim
  | handle => exact Escape.isRoot_iff.2 (.inr h)
  | cell => exact Escape.isRoot_iff.2 (.inl h)

namespace Escape

/-- Where an escaping value may have been loaded from a cell of the function, all that is stored
into the cell escapes. -/
def Thorough (p : Program) (o : Options) (f : FuncId) : Prop :=
  ∀ i pointer a, .inst i ∈ escapingValues p o f → (p.inst i).op = .load pointer →
    (Origin.root a).IsCell p → p.Stems o f pointer (.root a) →
    storedIn (stores p o f) [.root a] ⊆ escapingValues p o f

variable {p : Program} {o : Options} {f : FuncId} {w : World} {m : Machine} {c i r : InstId}
  {u v : Value} {x y : Datum} {s t : Origin} {k size : Nat} {rest : List InstId}
  {callee : String} {args : List Value}

/-- What is stored through a pointer is taken for stored where the pointer stems from, or where it
is not tracked. -/
theorem storedIn_of_stems {q : Value} (hi : i ∈ p.instructions f)
    (hop : (p.inst i).op = .store v q) (hq : p.Stems o f q s) :
    v ∈ storedIn (stores p o f) [s] ∨ v ∈ storedIn (stores p o f) [.elsewhere] := by
  refine hq.origin.imp ?_ ?_
  · exact fun h => mem_storedIn.2 ⟨i, hi, q, hop, s, h, List.mem_singleton.2 rfl⟩
  · exact fun h => mem_storedIn.2 ⟨i, hi, q, hop, .elsewhere, h, List.mem_singleton.2 rfl⟩

/-- The roots that an escaping value stems from escape. -/
theorem Thorough.mem_of_stems (h : Thorough p o f) (hv : v ∈ escapingValues p o f)
    (hs : p.Stems o f v (.root r)) : .inst r ∈ escapingValues p o f := by
  generalize ht : Origin.root r = t at hs
  -- Back from the value to the root: what a merge takes escapes with it, and what has been stored
  -- escapes with what is loaded.
  induction hs with
  | root => cases ht; exact hv
  | outside | content => cases ht
  | merge _ hu _ ih =>
    rw [← mergeInputs_inst] at hu
    exact ih (mem_of_merge hv hu) ht
  | @load i j pointer value q s t hi hop hj hjop hcell hpointer hq _ _ _ ih =>
    refine ih ?_ ht
    rcases storedIn_of_stems hj hjop hq with hstored | hstored
    · cases s with
      | root a => exact h i pointer a hv hop hcell hpointer hstored
      | elsewhere => exact mem_of_storedIn_elsewhere hstored
    · exact mem_of_storedIn_elsewhere hstored

/-- What is not from outside escapes. -/
def Escapes (p : Program) (o : Options) (f : FuncId) : Origin → Prop
  | .root r => .inst r ∈ escapingValues p o f
  | .elsewhere => True

theorem Thorough.escapes_of_stems (h : Thorough p o f) (hv : v ∈ escapingValues p o f)
    (hs : p.Stems o f v t) : Escapes p o f t := by
  cases t with
  | root r => exact h.mem_of_stems hv hs
  | elsewhere => trivial

/-- What a cell holds that escapes, escapes. -/
theorem Thorough.from_holds {M : InstId → Datum → Prop} (h : Thorough p o f)
    (hm : Traced p o f w M m) (hx : From p f w M (Escapes p o f) x) (hxy : m.Holds x y) :
    From p f w M (Escapes p o f) y := by
  obtain ⟨c, rfl, hc⟩ := hxy
  obtain ⟨s, hs⟩ := hx.source trivial
  have hcontent := hm.cells hs hc
  refine ⟨hcontent.source, fun ht => ?_⟩
  rcases hcontent.all ht with ⟨j, hj, value, q, hop, hq, hvalue⟩ | ⟨-, rfl⟩
  · refine h.escapes_of_stems ?_ hvalue
    rcases storedIn_of_stems hj hop hq with hstored | hstored
    · cases s with
      | root a => exact mem_of_root (hx.all hs) (hm.made hs).1.isRoot hstored
      | elsewhere => exact mem_of_storedIn_elsewhere hstored
    · exact mem_of_storedIn_elsewhere hstored
  · trivial

/-- Before the first opaque call has run, the oracle lets it write whatever the function has made
and the call can get at. -/
theorem oracle_of_reached (hp : p.Linked) (hw : w.Bounded p f) (h : Thorough p o f)
    (hk : Machine.after? p o w f k = some m)
    (htrace : ∀ e ∈ m.trace, o.kindOf e.callee ≠ .opaqueCall) (hrest : m.rest = c :: rest)
    (hop : (p.inst c).op = .call callee args) (hkind : o.kindOf callee = .opaqueCall)
    (hreadonly : callee ∉ o.readonlyCallees) (hv : v ∈ args) (hx : m.eval w v = some x)
    (hreach : ReflTransGen m.Holds x y) (hmade : MadeBy p o w f k r y) :
    (ofFunc p o f).oracle c (.inst r) size = true := by
  have hm := Machine.after_traced hp hw hk htrace
  have hc := Machine.mem_instructions_of_reaches hp (Machine.reaches_of_after hk) hrest
  have harg : From p f w (MadeBy p o w f k) (Escapes p o f) x := by
    have hfrom := hm.eval hw hc (by rw [hop]; exact hv) hx
    exact ⟨hfrom.source, fun ht => h.escapes_of_stems (mem_of_arg hc hop hkind hv) (hfrom.all ht)⟩
  have hy : From p f w (MadeBy p o w f k) (Escapes p o f) y := by
    clear hmade
    induction hreach with
    | refl => exact harg
    | tail _ hxy ih => exact h.from_holds hm ih hxy
  have hr : .inst r ∈ escapingValues p o f := hy.all (t := .root r) hmade
  have horigin : origins p o (.inst r) ≠ [] :=
    List.ne_nil_of_mem ((mem_origins_root (hm.made hmade).1.isRoot).2 rfl)
  exact oracle_of_escapes hop hreadonly (escapes_of_mem hr horigin) size

/-- Only what is loaded through a pointer that is not local is not followed. -/
theorem thorough_of_origins (h : ∀ i pointer, .inst i ∈ escapingValues p o f →
    (p.inst i).op = .load pointer → .elsewhere ∉ origins p o pointer) : Thorough p o f := by
  intro i pointer a hi hop _ hs v hv
  obtain ⟨j, hj, q, hjop, t, ht, hta⟩ := mem_storedIn.1 hv
  have horigin := hs.origin.resolve_right (h i pointer hi hop)
  refine mem_of_load hi hop (mem_storedIn.2 ⟨j, hj, q, hjop, t, ht, ?_⟩)
  rwa [List.mem_singleton.1 hta]

/-- The oracle is thorough if all that is stored escapes. -/
theorem thorough_of_stores (h : ∀ s ∈ stores p o f, s.2 ∈ escapingValues p o f) :
    Thorough p o f := by
  intro i pointer a _ _ _ _ v hv
  obtain ⟨s, hs, rfl⟩ := List.mem_map.1 hv
  exact h s (List.mem_filter.1 hs).1

/-- A cell that holds a cell that holds a handle is passed to a call. -/
def chainText : String :=
  "define void @f()\x7be:%a=call ptr @create(i64 1)%p=alloca ptr %q=alloca ptr " ++
  "store ptr %a,ptr %p store ptr %p,ptr %q %r=load ptr,ptr %q %b=load ptr,ptr %r " ++
  "call void @g(ptr %q,ptr %b)ret void\x7d"

theorem oracle_of_reached_chain : ∃ p m x, Program.load chainText.toList = .ok p ∧ p.Linked ∧
    Thorough p {} 0 ∧ Machine.after? p {} {} 0 7 = some m ∧ m.eval {} (.inst 2) = some x ∧
    ReflTransGen m.Holds x (.handle 0) ∧ MadeBy p {} {} 0 7 0 (.handle 0) ∧
    (ofFunc p {} 0).oracle 7 (.inst 0) 8 = true := by
  obtain ⟨p, hload, hp, hstores, hclosed, hop, hroot, ⟨m, hm, hrest, htrace, henv, hcells⟩,
      ⟨m₀, hm₀, hrest₀⟩, m₁, hm₁, henv₁⟩ :=
    Program.exists_load (s := chainText.toList) (P := fun p =>
      ((stores p {} 0).all fun s => s.2 ∈ escapingValues p {} 0) = true ∧ p.SelfContained 0 ∧
      (p.inst 7).op = .call "g" [.inst 2, .inst 6] ∧ isRoot p {} 0 = true ∧
      (∃ m ∈ Machine.after? p {} {} 0 7, m.rest = [7, 8] ∧ m.trace = [] ∧
        m.env 2 = some (.cell 1) ∧ m.heap.cells = [some (.handle 0), some (.cell 0)]) ∧
      (∃ m ∈ Machine.after? p {} {} 0 0, m.rest = [0, 1, 2, 3, 4, 5, 6, 7, 8]) ∧
      ∃ m ∈ Machine.after? p {} {} 0 1, m.env 0 = some (.handle 0))
      (by decide +kernel)
  have hreach : ReflTransGen m.Holds (.cell 1) (.handle 0) :=
    .head ⟨1, rfl, by rw [hcells]; rfl⟩ (.single ⟨0, rfl, by rw [hcells]; rfl⟩)
  have hmade : MadeBy p {} {} 0 7 0 (.handle 0) :=
    ⟨0, by decide, m₀, m₁, _, hm₀, hrest₀, hroot, hm₁, henv₁⟩
  have hthorough : Thorough p {} 0 :=
    thorough_of_stores fun s hs => of_decide_eq_true (List.all_eq_true.1 hstores s hs)
  exact ⟨p, m, .cell 1, hload, hp, hthorough, hm, henv, hreach, hmade,
    oracle_of_reached hp (World.bounded hclosed) hthorough hm (by simp [htrace]) hrest hop rfl
      (by decide) List.mem_cons_self henv hreach hmade⟩

/-- A handle is passed to a call that has been loaded through a loaded pointer. -/
def nestedText : String :=
  "define void @f()\x7be:%a=call ptr @create(i64 1)%p=alloca ptr %q=alloca ptr " ++
  "store ptr %a,ptr %p store ptr %p,ptr %q %r=load ptr,ptr %q %b=load ptr,ptr %r " ++
  "call void @g(ptr %b)ret void\x7d"

/-- Nothing is taken to be stored where a loaded pointer leads. -/
theorem not_oracle_of_reached_nested : ∃ p m, Program.load nestedText.toList = .ok p ∧ p.Linked ∧
    p.verify 0 = [] ∧ World.Bounded p 0 {} ∧ Machine.after? p {} {} 0 7 = some m ∧ m.trace = [] ∧
    m.rest = [7, 8] ∧ (p.inst 7).op = .call "g" [.inst 6] ∧
    m.eval {} (.inst 6) = some (.handle 0) ∧ MadeBy p {} {} 0 7 0 (.handle 0) ∧
    ∀ size, (ofFunc p {} 0).oracle 7 (.inst 0) size = false := by
  obtain ⟨p, hload, hp, hv, hclosed, hop, hroot, ⟨m, hm, hrest, htrace, henv⟩, ⟨m₀, hm₀, hrest₀⟩,
      ⟨m₁, hm₁, henv₁⟩, horacle⟩ :=
    Program.exists_load (s := nestedText.toList) (P := fun p =>
      p.verify 0 = [] ∧ p.SelfContained 0 ∧
      (p.inst 7).op = .call "g" [.inst 6] ∧ isRoot p {} 0 = true ∧
      (∃ m ∈ Machine.after? p {} {} 0 7,
        m.rest = [7, 8] ∧ m.trace = [] ∧ m.env 6 = some (.handle 0)) ∧
      (∃ m ∈ Machine.after? p {} {} 0 0, m.rest = [0, 1, 2, 3, 4, 5, 6, 7, 8]) ∧
      (∃ m ∈ Machine.after? p {} {} 0 1, m.env 0 = some (.handle 0)) ∧
      (ofFunc p {} 0).oracle 7 (.inst 0) 0 = false)
      (by decide +kernel)
  exact ⟨p, m, hload, hp, hv, World.bounded hclosed, hm, htrace, hrest, hop, henv,
    ⟨0, by decide, m₀, m₁, _, hm₀, hrest₀, hroot, hm₁, henv₁⟩, fun _ => horacle⟩

end Escape

end BoxFlow
