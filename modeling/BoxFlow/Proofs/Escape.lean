import BoxFlow.Proofs.Classification
import BoxFlow.Proofs.Escape.Origins
import BoxFlow.Proofs.Worklist

/-!
# What escapes

The search for escaping values comes to its end, and it meets exactly what can be reached from the
values that escape by themselves (`Escape.spread_spec`), by phis and selects, by loads and by cells
that hold something (`Escape.EscapesWith`). A value that escapes may be written through as far as
the oracle goes (`Escape.escapes_of_mem`).
-/

namespace BoxFlow

open Relation (ReflTransGen)

namespace Escape

variable {p : Program} {o : Options} {f : FuncId} {u v : Value} {i : InstId} {r : Origin}
  {cells : List Origin} {known : Known} {is : List InstId}

/-! ## Bounds -/

/-- The operands of the whole program. -/
def allOperands (p : Program) : List Value := p.insts.toList.flatMap fun i => i.op.operands

theorem operands_subset (p : Program) (i : InstId) : (p.inst i).op.operands ⊆ allOperands p := by
  intro v hv
  rw [Program.inst, Array.getD_eq_getD_getElem?] at hv
  cases hi : p.insts[i]? with
  | none =>
    rw [hi] at hv
    cases hv
  | some inst =>
    rw [hi] at hv
    exact List.mem_flatMap.2 ⟨inst, Array.mem_toList_iff.2 (Array.mem_of_getElem? hi), hv⟩

theorem length_allOperands_lt (p : Program) : (allOperands p).length < valueBound p :=
  Nat.lt_succ_of_le (Nat.le_add_right ..)

theorem mergeInputs_inst : mergeInputs p (.inst i) = (p.inst i).op.merged := by
  unfold mergeInputs Form.merged
  cases hop : (p.inst i).op <;> simp [hop]

theorem merged_subset {V B : Type} (op : Form V B) : op.merged ⊆ op.operands := by
  cases op with
  | phi incoming => exact fun _ h => h
  | select c t e => exact List.subset_cons_self c [t, e]
  | _ => exact List.nil_subset _

theorem mergeInputs_subset (p : Program) (v : Value) : mergeInputs p v ⊆ allOperands p := by
  cases v with
  | inst i =>
    rw [mergeInputs_inst]
    exact List.Subset.trans (merged_subset _) (operands_subset p i)
  | _ => exact List.nil_subset _

/-! ## Origins -/

theorem mem_origins_of_own (h : ownOrigin p o v = some r) : r ∈ origins p o v :=
  mem_origins_iff.2 ⟨v, .refl, h⟩

/-- What a phi or select takes, it may be. -/
theorem mem_origins_of_merge (hu : u ∈ mergeInputs p v) (h : r ∈ origins p o u) :
    r ∈ origins p o v :=
  mem_origins_iff.2 (ComesFrom.head (mem_origins_iff.1 h) hu)

/-- The only origin of what makes something is itself. -/
theorem mem_origins_root (hi : isRoot p o i) : r ∈ origins p o (.inst i) ↔ r = .root i :=
  mem_origins_iff.trans (comesFrom_of_own (if_pos hi))

/-! ## Stored values -/

/-- Right about what is stored, and into which cells. -/
theorem storesFrom_spec (is : List InstId) (hknown : Honest p o known) :
    Honest p o (storesFrom p o is known).2 ∧
      (∀ s ∈ (storesFrom p o is known).1, ∃ i ∈ is, ∃ pointer,
        (p.inst i).op = .store s.2 pointer ∧ ∀ r, r ∈ s.1 ↔ r ∈ origins p o pointer) ∧
      ∀ i ∈ is, ∀ value pointer, (p.inst i).op = .store value pointer →
        ∃ s ∈ (storesFrom p o is known).1, s.2 = value ∧
          ∀ r, r ∈ s.1 ↔ r ∈ origins p o pointer := by
  induction is generalizing known with
  | nil => exact ⟨hknown, by simp [storesFrom], by simp⟩
  | cons i is ih =>
    unfold storesFrom
    split
    · next value pointer hop =>
      obtain ⟨hknown', hsound, hfull⟩ := ih (trace_originsFrom pointer hknown).2.1
      have hcell (r : Origin) := mem_originsFrom (v := pointer) (r := r) hknown
      refine ⟨hknown', fun s hs => ?_, fun j hj value' pointer' hjop => ?_⟩
      · rcases List.mem_cons.1 hs with rfl | hs
        · exact ⟨i, List.mem_cons_self, pointer, hop, hcell⟩
        · obtain ⟨j, hj, hs⟩ := hsound s hs
          exact ⟨j, List.mem_cons_of_mem _ hj, hs⟩
      · rcases List.mem_cons.1 hj with rfl | hj
        · rw [hop] at hjop
          cases hjop
          exact ⟨_, List.mem_cons_self, rfl, hcell⟩
        · obtain ⟨s, hs, hsop⟩ := hfull j hj value' pointer' hjop
          exact ⟨s, List.mem_cons_of_mem _ hs, hsop⟩
    · next hno =>
      obtain ⟨hknown', hsound, hfull⟩ := ih hknown
      refine ⟨hknown', fun s hs => ?_, fun j hj value' pointer' hjop => ?_⟩
      · obtain ⟨j, hj, hs⟩ := hsound s hs
        exact ⟨j, List.mem_cons_of_mem _ hj, hs⟩
      · rcases List.mem_cons.1 hj with rfl | hj
        · exact absurd hjop (hno value' pointer')
        · exact hfull j hj value' pointer' hjop

theorem mem_stores {pointer : Value} (hi : i ∈ p.instructions f)
    (hop : (p.inst i).op = .store v pointer) : v ∈ (stores p o f).map Prod.snd := by
  obtain ⟨-, -, hfull⟩ := storesFrom_spec (o := o) (p.instructions f) (honest_nil (p := p))
  obtain ⟨s, hs, rfl, -⟩ := hfull i hi v pointer hop
  exact List.mem_map_of_mem hs

theorem mem_storedIn : u ∈ storedIn (stores p o f) cells ↔ ∃ i ∈ p.instructions f, ∃ pointer,
    (p.inst i).op = .store u pointer ∧ ∃ r ∈ origins p o pointer, r ∈ cells := by
  obtain ⟨-, hsound, hfull⟩ := storesFrom_spec (o := o) (p.instructions f) (honest_nil (p := p))
  simp only [storedIn, List.mem_map, List.mem_filter, List.any_eq_true, decide_eq_true_eq]
  constructor
  · rintro ⟨s, ⟨hs, r, hr, hcell⟩, rfl⟩
    obtain ⟨i, hi, pointer, hop, hcells⟩ := hsound s hs
    exact ⟨i, hi, pointer, hop, r, (hcells r).1 hr, hcell⟩
  · rintro ⟨i, hi, pointer, hop, r, hr, hcell⟩
    obtain ⟨s, hs, rfl, hcells⟩ := hfull i hi u pointer hop
    exact ⟨s, ⟨hs, r, (hcells r).2 hr, hcell⟩, rfl⟩

theorem storedIn_subset : storedIn (stores p o f) cells ⊆ allOperands p := by
  intro u hu
  obtain ⟨i, -, pointer, hop, -⟩ := mem_storedIn.1 hu
  apply operands_subset p i
  rw [hop]
  exact List.mem_cons_self

/-! ## Escaping values -/

/-- What escapes with a value: what a phi or select takes, what may be loaded, and what a cell
holds. -/
def EscapesWith (p : Program) (o : Options) (f : FuncId) : Value → Value → Prop
  | .inst i, v => v ∈ mergeInputs p (.inst i) ∨
      (∃ pointer, (p.inst i).op = .load pointer ∧
        v ∈ storedIn (stores p o f) (origins p o pointer)) ∨
      isRoot p o i = true ∧ v ∈ storedIn (stores p o f) [.root i]
  | _, _ => False

theorem mem_loadedBy (op : Op) (hknown : Honest p o known) :
    (∀ v, v ∈ (loadedBy p o (stores p o f) op known).1 ↔
      ∃ pointer, op = .load pointer ∧ v ∈ storedIn (stores p o f) (origins p o pointer)) ∧
      Honest p o (loadedBy p o (stores p o f) op known).2 := by
  cases op with
  | load pointer =>
    refine ⟨fun v => ?_, (trace_originsFrom pointer hknown).2.1⟩
    simp only [loadedBy, mem_storedIn, mem_originsFrom hknown, Form.load.injEq, exists_eq_left']
  | _ => exact ⟨fun v => by simp [loadedBy], hknown⟩

theorem mem_escapeFrom (u : Value) (hknown : Honest p o known) :
    (∀ v, v ∈ (escapeFrom p o (stores p o f) u known).1 ↔ EscapesWith p o f u v) ∧
      Honest p o (escapeFrom p o (stores p o f) u known).2 := by
  cases u with
  | inst i =>
    obtain ⟨hloaded, hknown'⟩ := mem_loadedBy (f := f) (p.inst i).op hknown
    refine ⟨fun v => ?_, hknown'⟩
    simp only [escapeFrom, EscapesWith, List.mem_append, hloaded, or_assoc]
    refine or_congr_right (or_congr_right ?_)
    cases isRoot p o i <;> simp
  | _ => exact ⟨fun v => by simp [escapeFrom, EscapesWith], hknown⟩

theorem escapesWith_mem_allOperands (h : EscapesWith p o f u v) : v ∈ allOperands p := by
  cases u with
  | inst i =>
    rcases h with h | ⟨_, -, h⟩ | ⟨-, h⟩
    · exact mergeInputs_subset p _ h
    · exact storedIn_subset h
    · exact storedIn_subset h
  | _ => cases h

theorem mem_given : v ∈ given p o f ↔ ∃ i ∈ p.instructions f, (p.inst i).op = .ret (some v) ∨
    ∃ callee args, (p.inst i).op = .call callee args ∧ o.kindOf callee = .opaqueCall ∧
      v ∈ args := by
  rw [given, List.mem_flatMap]
  refine exists_congr fun i => and_congr_right fun _ => ?_
  cases (p.inst i).op <;> simp [eq_comm]

theorem start_subset : given p o f ++ storedIn (stores p o f) [.elsewhere] ⊆ allOperands p := by
  refine List.append_subset.2 ⟨fun u hu => ?_, storedIn_subset⟩
  obtain ⟨i, -, hop | ⟨callee, args, hop, -, hu⟩⟩ := mem_given.1 hu
  · apply operands_subset p i
    rw [hop]
    exact List.mem_singleton.2 rfl
  · apply operands_subset p i
    rwa [hop]

/-- The search ends, with what is known still right; it has met what escapes, each value once. -/
theorem spread_spec (p : Program) (o : Options) (f : FuncId) :
    (spread p o f).1.waiting = [] ∧ (spread p o f).1.met.Nodup ∧
      (∀ v, v ∈ escapingValues p o f ↔
        ∃ r ∈ given p o f ++ storedIn (stores p o f) [.elsewhere],
          ReflTransGen (EscapesWith p o f) r v) ∧
      Honest p o (spread p o f).2 :=
  Worklist.search_spec (U := allOperands p) .oldest (fun _ => Honest p o)
    (fun _ u _ hknown _ => mem_escapeFrom u hknown)
    (fun r hr x hx => by
      rcases hx.cases_tail with rfl | ⟨y, -, hy⟩
      · exact start_subset hr
      · exact escapesWith_mem_allOperands hy)
    (Nat.le_of_lt (length_allOperands_lt p))
    (storesFrom_spec (p.instructions f) honest_nil).1 rfl

theorem mem_escapingValues_iff : v ∈ escapingValues p o f ↔
    ∃ r ∈ given p o f ++ storedIn (stores p o f) [.elsewhere],
      ReflTransGen (EscapesWith p o f) r v :=
  (spread_spec p o f).2.2.1 v

/-- The arguments of opaque calls escape. -/
theorem mem_of_arg {callee : String} {args : List Value} (hi : i ∈ p.instructions f)
    (hop : (p.inst i).op = .call callee args) (hk : o.kindOf callee = .opaqueCall)
    (hv : v ∈ args) : v ∈ escapingValues p o f :=
  mem_escapingValues_iff.2
    ⟨v, List.mem_append_left _ (mem_given.2 ⟨i, hi, .inr ⟨callee, args, hop, hk, hv⟩⟩), .refl⟩

/-- What is stored where it is not tracked escapes. -/
theorem mem_of_storedIn_elsewhere (h : v ∈ storedIn (stores p o f) [.elsewhere]) :
    v ∈ escapingValues p o f :=
  mem_escapingValues_iff.2 ⟨v, List.mem_append_right _ h, .refl⟩

theorem mem_of_escapesWith (hu : u ∈ escapingValues p o f) (h : EscapesWith p o f u v) :
    v ∈ escapingValues p o f := by
  obtain ⟨r, hr, hru⟩ := mem_escapingValues_iff.1 hu
  exact mem_escapingValues_iff.2 ⟨r, hr, hru.tail h⟩

/-- With a phi or select escapes what it takes. -/
theorem mem_of_merge (hu : u ∈ escapingValues p o f) (hv : v ∈ mergeInputs p u) :
    v ∈ escapingValues p o f := by
  cases u with
  | inst i => exact mem_of_escapesWith hu (.inl hv)
  | _ => cases hv

/-- With a loaded value escapes what is stored into a cell that it is loaded from. -/
theorem mem_of_load {pointer : Value} (hi : .inst i ∈ escapingValues p o f)
    (hop : (p.inst i).op = .load pointer)
    (hv : v ∈ storedIn (stores p o f) (origins p o pointer)) : v ∈ escapingValues p o f :=
  mem_of_escapesWith hi (.inr (.inl ⟨pointer, hop, hv⟩))

/-- With a cell escapes what is stored into it. -/
theorem mem_of_root (hi : .inst i ∈ escapingValues p o f) (hroot : isRoot p o i)
    (hv : v ∈ storedIn (stores p o f) [.root i]) : v ∈ escapingValues p o f :=
  mem_of_escapesWith hi (.inr (.inr ⟨hroot, hv⟩))

/-! ## The oracle -/

theorem honest_ofFunc (p : Program) (o : Options) (f : FuncId) :
    Honest p o (ofFunc p o f).known :=
  (spread_spec p o f).2.2.2

/-- What is known makes no difference to the oracle. -/
theorem escapes_eq {e : Escape} (h : Honest e.program e.options e.known) (v : Value) :
    e.escapes v = (origins e.program e.options v).any (·.isOut e.escaped) := by
  rw [escapes, ask, Bool.eq_iff_iff, List.any_eq_true, List.any_eq_true]
  exact exists_congr fun r => and_congr_left' (mem_originsFrom h)

theorem escapes_ofFunc :
    (ofFunc p o f).escapes v = (origins p o v).any (·.isOut (escapingValues p o f)) :=
  escapes_eq (honest_ofFunc p o f) v

theorem escapes_iff : (ofFunc p o f).escapes v = true ↔
    ∃ r ∈ origins p o v, ∀ i, r = .root i → .inst i ∈ escapingValues p o f := by
  rw [escapes_ofFunc, List.any_eq_true]
  refine exists_congr fun r => and_congr_right fun _ => ?_
  cases r with
  | root i => simp only [Origin.isOut_root, Origin.root.injEq, forall_eq']
  | elsewhere => simp [Origin.isOut]

/-- All that an escaping value may be escapes. -/
theorem mem_of_origin (hv : v ∈ escapingValues p o f) (h : .root i ∈ origins p o v) :
    .inst i ∈ escapingValues p o f := by
  obtain ⟨u, hvu, hu⟩ := mem_origins_iff.1 h
  rw [← (root_of_ownOrigin hu).1]
  clear hu h
  induction hvu with
  | refl => exact hv
  | tail _ hmerge ih => exact mem_of_merge ih hmerge

/-- A value that escapes may be written through, unless it is nothing at all. -/
theorem escapes_of_mem (hv : v ∈ escapingValues p o f) (hne : origins p o v ≠ []) :
    (ofFunc p o f).escapes v = true := by
  obtain ⟨r, hr⟩ := List.exists_mem_of_ne_nil _ hne
  exact escapes_iff.2 ⟨r, hr, fun i hi => mem_of_origin hv (hi ▸ hr)⟩

theorem oracle_of_escapes {c : InstId} {callee : String} {args : List Value}
    (hop : (p.inst c).op = .call callee args) (hreadonly : callee ∉ o.readonlyCallees)
    (h : (ofFunc p o f).escapes v = true) (size : Nat) :
    (ofFunc p o f).oracle c v size = true := by
  have hop : ((ofFunc p o f).program.inst c).op = .call callee args := hop
  have hcontains : (ofFunc p o f).options.readonlyCallees.contains callee = false :=
    Bool.eq_false_iff.2 hreadonly
  rw [oracle, hop]
  simp [mayModifyBy, h, hcontains]

end Escape

end BoxFlow
