import BoxFlow.Proofs.Classification.Closed

/-!
# The order of the blocks

The rules are tried in textual order, and what they find depends on it where a value is taken for a
handle and for a cell: a phi or select passes on the first class that it is of. Where there is no
such conflict a classification is the least that its rules allow. In any other order the scans stay
under it (`Under`), and are free of conflicts then, so that it stays under them as well: the classes
are the same (`classOf_of_perm`). With a conflict they need not be (`not_classOf_of_perm`).
-/

namespace BoxFlow

namespace Program

/-- The program with other blocks in a function, or the same in another order. -/
def withBlocks (p : Program) (f : FuncId) (blocks : List BlockId) : Program :=
  p.modifyFunc f fun fn => { fn with blocks }

theorem instructions_withBlocks {p : Program} {f : FuncId} {blocks : List BlockId}
    (h : blocks.Perm (p.func f).blocks) :
    ((p.withBlocks f blocks).instructions f).Perm (p.instructions f) := by
  rw [instructions, withBlocks, func_modifyFunc]
  split
  · exact h.flatMap_right fun b => (p.block b).insts
  · exact .refl _

end Program

namespace Classification

variable {c c' d : Classification} {p q : Program} {o : Options} {f : FuncId} {i : InstId}
  {x y : Value} {k : ValueClass} {m n : Fin 4}

/-! ## Membership by value -/

/-- The value is in set `n`. -/
def In (c : Classification) (n : Fin 4) (x : Value) : Prop :=
  ∃ id ∈ c.members n, c.arena.find x = some id

theorem not_has_irrelevant : ¬c.Has x .irrelevant := fun ⟨_, hid, _⟩ => by simp [setOf] at hid

theorem not_mayHold_irrelevant : ¬c.MayHold x .irrelevant := fun ⟨_, hid, _⟩ => by
  simp [pointeeSetOf] at hid

/-- Only the value that enters a set is in it and was not before: a number that is given out is in
no set. -/
theorem Enters.in_cases (h : Enters c n x d) (hc : c.Marked) (hy : d.In m y) :
    m = n ∧ y = x ∨ c.In m y := by
  obtain ⟨id, hid, hfind⟩ := hy
  rw [h.arena] at hfind
  by_cases hyx : y = x
  · subst hyx
    obtain rfl : c.arena.idOf y = id :=
      Option.some.inj ((Arena.find_insert_self c.arena y).symm.trans hfind)
    rcases (h.members _ _).1 hid with ⟨rfl, -⟩ | hid
    · exact .inl ⟨rfl, rfl⟩
    · refine .inr ⟨_, hid, ?_⟩
      by_contra hne
      have hlt := ((hc _).1 ⟨m, hid⟩).2
      cases hf : c.arena.find y with
      | none => rw [Arena.idOf, hf, Option.getD_none] at hlt; exact Int.lt_irrefl _ hlt
      | some id => rw [hf, Arena.idOf_of_find hf] at hne; exact hne rfl
  · rw [Arena.find_insert_of_ne hyx] at hfind
    rcases (h.members _ _).1 hid with ⟨-, rfl⟩ | hid
    · exact absurd (Arena.eq_of_value?_idOf (Arena.value?_of_find hfind)) hyx
    · exact .inr ⟨id, hid, hfind⟩

/-! ## Classifications without conflicts -/

theorem has_of_classOf (h : c.classOf x = k) (hk : k ≠ .irrelevant) : c.Has x k := by
  subst h
  have hfind := find_of_classOf hk
  have hclass := classOfId_idOf hk
  cases hx : c.classOf x with
  | data => exact has_of_classOf_data hx
  | pointer => exact ⟨_, mem_pointer (hclass.trans hx), hfind⟩
  | irrelevant => exact absurd hx hk

theorem mayHold_of_pointeeClass (h : c.pointeeClass x = k) (hk : k ≠ .irrelevant) :
    c.MayHold x k := by
  subst h
  unfold pointeeClass at hk ⊢
  cases hfind : c.arena.find x with
  | none => rw [hfind] at hk; exact absurd rfl hk
  | some id =>
    rw [hfind] at hk
    dsimp only [pointeeClassOfId] at hk ⊢
    split
    · exact ⟨id, by assumption, hfind⟩
    · next hdata =>
      rw [if_neg hdata] at hk
      split
      · exact ⟨id, by assumption, hfind⟩
      · next hpointer => exact absurd (if_neg hpointer) hk

theorem Unmixed.classOf_of_has (hc : c.Unmixed) (h : c.Has x k) : c.classOf x = k := by
  cases k with
  | data =>
    obtain ⟨id, hid, hfind⟩ := h
    exact classOf_eq_data.2 ⟨id, hfind, hid⟩
  | pointer =>
    obtain ⟨id, hid, hfind⟩ := h
    exact hc.classOf_of_mem hid hfind
  | irrelevant => exact absurd h not_has_irrelevant

theorem Unmixed.pointeeClass_of_mayHold (hc : c.Unmixed) (h : c.MayHold x k) :
    c.pointeeClass x = k := by
  cases k with
  | data =>
    obtain ⟨id, hid, hfind⟩ := h
    rw [pointeeClass, hfind]
    exact if_pos hid
  | pointer =>
    obtain ⟨id, hid, hfind⟩ := h
    rw [pointeeClass, hfind]
    exact (if_neg (hc.pointees _ hid)).trans (if_pos hid)
  | irrelevant => exact absurd h not_mayHold_irrelevant

/-! ## Under a classification -/

/-- Whatever has been put into a set in `c` is in it in `d`; their numbers may differ. -/
structure Under (d c : Classification) : Prop where
  marked : c.Marked
  members : ∀ n x, c.In n x → d.In n x

namespace Under

variable (h : Under d c)
include h

theorem has (hx : c.Has x k) : d.Has x k := by
  cases k with
  | data => exact h.members 0 x hx
  | pointer => exact h.members 1 x hx
  | irrelevant => exact absurd hx not_has_irrelevant

theorem mayHold (hx : c.MayHold x k) : d.MayHold x k := by
  cases k with
  | data => exact h.members 2 x hx
  | pointer => exact h.members 3 x hx
  | irrelevant => exact absurd hx not_mayHold_irrelevant

theorem classOf (hd : d.Unmixed) (hx : c.classOf x = k) (hk : k ≠ .irrelevant) :
    d.classOf x = k :=
  hd.classOf_of_has (h.has (has_of_classOf hx hk))

theorem pointeeClass (hd : d.Unmixed) (hx : c.pointeeClass x = k) (hk : k ≠ .irrelevant) :
    d.pointeeClass x = k :=
  hd.pointeeClass_of_mayHold (h.mayHold (mayHold_of_pointeeClass hx hk))

theorem enters (hc : Enters c n x c') (hx : d.In n x) : Under d c' where
  marked := hc.marked h.marked
  members m y hy := by
    rcases hc.in_cases h.marked hy with ⟨rfl, rfl⟩ | hy
    · exact hx
    · exact h.members m y hy

/-- What is added is in the set of the class already. -/
theorem add (hx : x.isLiteral = false → k ≠ .irrelevant → d.Has x k) : Under d (c.add x k) := by
  rcases add_cases c x k with heq | ⟨hlit, hk⟩
  · rwa [heq]
  have hx := hx hlit hk
  cases k with
  | data => exact h.enters (enters_add_data hlit) hx
  | pointer => exact h.enters (enters_add_pointer hlit) hx
  | irrelevant => exact absurd rfl hk

theorem addPointee (hx : k ≠ .irrelevant → d.MayHold x k) : Under d (c.addPointee x k) := by
  cases k with
  | data => exact h.enters enters_addPointee_data (hx (by decide))
  | pointer => exact h.enters enters_addPointee_pointer (hx (by decide))
  | irrelevant => exact h

/-- Without conflicts above there are none below. -/
theorem unmixed (hd : d.Unmixed) : c.Unmixed := by
  have hvalue {n : Fin 4} {id : Id} (hid : id ∈ c.members n) : ∃ x, c.arena.find x = some id := by
    obtain ⟨h0, hlt⟩ := (h.marked id).1 ⟨n, hid⟩
    have hlt : id.toNat < c.arena.values.length := (Int.toNat_lt h0).2 hlt
    exact ⟨_, Arena.find_eq_some_iff.2 ⟨h0, List.getElem?_eq_getElem hlt⟩⟩
  constructor
  · intro id hpointer hdata
    obtain ⟨x, hx⟩ := hvalue (n := 1) hpointer
    have hx₁ := hd.classOf_of_has (h.has (k := .pointer) ⟨id, hpointer, hx⟩)
    have hx₀ := hd.classOf_of_has (h.has (k := .data) ⟨id, hdata, hx⟩)
    cases hx₁.symm.trans hx₀
  · intro id hpointer hdata
    obtain ⟨x, hx⟩ := hvalue (n := 3) hpointer
    have hx₁ := hd.pointeeClass_of_mayHold (h.mayHold (k := .pointer) ⟨id, hpointer, hx⟩)
    have hx₀ := hd.pointeeClass_of_mayHold (h.mayHold (k := .data) ⟨id, hdata, hx⟩)
    cases hx₁.symm.trans hx₀

/-- Classifications that are under each other have the same classes. -/
theorem classOf_eq (hd : d.Unmixed) (h' : Under c d) : c.classOf x = d.classOf x := by
  by_cases hx : c.classOf x = .irrelevant
  · by_cases hx' : d.classOf x = .irrelevant
    · rw [hx, hx']
    · exact h'.classOf (h.unmixed hd) rfl hx'
  · exact (h.classOf hd rfl hx).symm

theorem pointeeClass_eq (hd : d.Unmixed) (h' : Under c d) :
    c.pointeeClass x = d.pointeeClass x := by
  by_cases hx : c.pointeeClass x = .irrelevant
  · by_cases hx' : d.pointeeClass x = .irrelevant
    · rw [hx, hx']
    · exact h'.pointeeClass (h.unmixed hd) rfl hx'
  · exact (h.pointeeClass hd rfl hx).symm

end Under

/-! ## The rules stay under a closed classification -/

section Rules

variable (hd : (ofFunc p o f).1.Unmixed) (hi : i ∈ p.instructions f)
include hd hi

theorem Under.visitStore {value pointer : Value} (h : Under (ofFunc p o f).1 c)
    (hop : (p.inst i).op = .store value pointer) :
    Under (ofFunc p o f).1 (c.visitStore value pointer) := by
  have hstored := (closed_ofFunc p o f).stored i hi value pointer hop
  unfold Classification.visitStore
  split
  · exact h
  · next hk =>
    have hclass := h.classOf hd rfl hk
    rw [hclass] at hstored
    obtain ⟨hholds, hcell⟩ := hstored hk
    exact (h.add fun hlit _ => hcell hlit).addPointee fun _ => hholds

theorem Under.visitLoad {pointer : Value} (h : Under (ofFunc p o f).1 c)
    (hop : (p.inst i).op = .load pointer) :
    Under (ofFunc p o f).1 (c.visitLoad (.inst i) pointer) := by
  have hclosed := closed_ofFunc p o f
  have hloaded : Under (ofFunc p o f).1 (c.loadedFrom (.inst i) pointer) := by
    unfold Classification.loadedFrom
    split
    · next hk =>
      have hk : c.classOf (.inst i) ≠ .irrelevant := of_decide_eq_true hk
      have hcell := (hclosed.loaded i hi pointer hop (by rwa [h.classOf hd rfl hk])).2
      have hadd : Under (ofFunc p o f).1 (c.add pointer .pointer) := h.add fun hlit _ => hcell hlit
      refine hadd.addPointee fun hk' => ?_
      have hclass := hadd.classOf hd rfl hk'
      have hholds := hclosed.loaded i hi pointer hop
      rw [hclass] at hholds
      exact (hholds hk').1
    · exact h
  unfold Classification.visitLoad
  dsimp only
  split
  · next hpointer =>
    refine hloaded.add fun _ hk => ?_
    have hpointer := hloaded.classOf hd hpointer (by decide)
    have hpointee := hloaded.pointeeClass hd rfl hk
    have hyielded := hclosed.yielded i hi pointer hop hpointer
    rw [hpointee] at hyielded
    exact hyielded hk
  · exact hloaded

theorem Under.spread (h : Under (ofFunc p o f).1 c) :
    Under (ofFunc p o f).1 (c.spread (.inst i) (p.inst i).op.merged) := by
  have hclosed := closed_ofFunc p o f
  unfold Classification.spread
  split
  · refine List.foldlRecOn (motive := Under _) _ _ h fun c hc x hx => hc.add fun _ hk => ?_
    -- what is passed on is the class of the result, and that is the class of its inputs
    have hclass := hc.classOf hd rfl hk
    have hlit := isLiteral_of_classOf (by rwa [hclass])
    have hresult : (ofFunc p o f).1.classOf (.inst i) ≠ .irrelevant := fun hresult =>
      hk (hclass.symm.trans (hclosed.unclassified i hi hresult x hx))
    have hsame := hd.classOf_of_has (hclosed.taken i hi hresult x hx hlit)
    exact has_of_classOf (hsame.symm.trans hclass) hk
  · next hk =>
    refine List.foldlRecOn (motive := Under _) _ _ h fun c' hc x hx => hc.add fun hlit _ => ?_
    have hresult := h.classOf hd rfl hk
    have htaken := hclosed.taken i hi
    rw [hresult] at htaken
    exact htaken hk x hx hlit

theorem Under.visitMerge (h : Under (ofFunc p o f).1 c) :
    Under (ofFunc p o f).1 (c.visitMerge (.inst i) (p.inst i).op.merged) := by
  have hclosed := closed_ofFunc p o f
  have hspread := h.spread hd hi
  unfold Classification.visitMerge
  dsimp only
  split
  · next hresult =>
    have hresult := hspread.classOf hd hresult (by decide)
    -- all cells that are merged may hold what one of them may hold
    have hshared {x : Value} (hx : x ∈ Value.inst i :: (p.inst i).op.merged.filter fun v =>
        (c.spread (.inst i) (p.inst i).op.merged).classOf v = .pointer) :
        (ofFunc p o f).1.pointeeClass (.inst i) = (ofFunc p o f).1.pointeeClass x := by
      rcases List.mem_cons.1 hx with rfl | hx
      · rfl
      · obtain ⟨hx, hclass⟩ := List.mem_filter.1 hx
        have hclass := hspread.classOf hd (of_decide_eq_true hclass) (by decide)
        exact hclosed.shared i hi hresult x hx hclass
    refine List.foldlRecOn (motive := Under _) _ _ hspread fun c hc x hx => ?_
    refine List.foldlRecOn (motive := Under _) _ _ hc fun c hc y hy => hc.addPointee fun hk => ?_
    have hpointee := hc.pointeeClass hd rfl hk
    exact mayHold_of_pointeeClass ((hshared hx).symm.trans ((hshared hy).trans hpointee)) hk
  · exact hspread

theorem Under.visit (hop : (q.inst i).op = (p.inst i).op) (h : Under (ofFunc p o f).1 c) :
    Under (ofFunc p o f).1 (Classification.visit q c i) := by
  have hmerge := h.visitMerge hd hi
  unfold Classification.visit
  rw [hop]
  split
  · next hop => exact h.visitStore hd hi hop
  · next hop => exact h.visitLoad hd hi hop
  · next hop => rwa [hop] at hmerge
  · next hop => rwa [hop] at hmerge
  · exact h

end Rules

theorem Under.seed (hi : i ∈ p.instructions f) (hop : (q.inst i).op = (p.inst i).op)
    (h : Under (ofFunc p o f).1 c) : Under (ofFunc p o f).1 (Classification.seed q o c i) := by
  have hclosed := closed_ofFunc p o f
  unfold Classification.seed
  rw [hop]
  split
  · next ty hop => exact h.add fun _ _ => hclosed.cell i hi ty hop
  · next callee args hop =>
    have hnoted : Under (ofFunc p o f).1
        { c with kinds := c.kinds.insert i (o.kindOf callee) } := ⟨h.marked, h.members⟩
    dsimp only
    refine List.foldlRecOn (motive := Under _) _ _ ?_ fun c hc x hx => hc.add fun hlit _ => ?_
    · split
      · next hkind => exact hnoted.add fun _ _ => hclosed.made i hi callee args hop hkind
      · exact hnoted
    · cases hkind : o.kindOf callee with
      | operation op =>
        rw [hkind] at hx
        exact hclosed.handle i hi callee args op hop hkind x hx hlit
      | benign | opaqueCall =>
        rw [hkind] at hx
        simp [CallKind.handleArgs] at hx
  · exact h

/-! ## The same instructions in another order -/

/-- Without conflicts, the same instructions give no more in another order. -/
theorem under_ofFunc (hd : (ofFunc p o f).1.Unmixed) (hop : ∀ i, (q.inst i).op = (p.inst i).op)
    (hi : ∀ i ∈ q.instructions f, i ∈ p.instructions f) :
    Under (ofFunc p o f).1 (ofFunc q o f).1 := by
  have hempty : Under (ofFunc p o f).1 {} :=
    ⟨empty_marked, fun _ _ ⟨_, hid, _⟩ => absurd hid not_mem_members_empty⟩
  have hseeds : Under (ofFunc p o f).1 ((q.instructions f).foldl (seed q o) {}) :=
    List.foldlRecOn _ _ hempty fun c hc i hmem => hc.seed (hi i hmem) (hop i)
  have hscans (n : Nat) : Under (ofFunc p o f).1
      ((scan q (q.instructions f))^[n] ((q.instructions f).foldl (seed q o) {})) := by
    induction n with
    | zero => exact hseeds
    | succ n ih =>
      rw [Function.iterate_succ_apply']
      exact List.foldlRecOn _ _ ih fun c hc i hmem => hc.visit hd (hi i hmem) (hop i)
  obtain ⟨n, -, hn, -⟩ := ofFunc_spec q o f
  rw [hn]
  exact hscans n

/-- In whatever order the blocks of a function are, its values are of the same classes, if no value
is taken for a handle and for a cell in one order. -/
theorem classOf_of_perm {blocks : List BlockId} (hc : (ofFunc p o f).1.Unmixed)
    (hperm : blocks.Perm (p.func f).blocks) :
    (ofFunc (p.withBlocks f blocks) o f).1.Unmixed ∧ ∀ x,
      (ofFunc (p.withBlocks f blocks) o f).1.classOf x = (ofFunc p o f).1.classOf x ∧
      (ofFunc (p.withBlocks f blocks) o f).1.pointeeClass x = (ofFunc p o f).1.pointeeClass x := by
  have hmem (i : InstId) : i ∈ (p.withBlocks f blocks).instructions f ↔ i ∈ p.instructions f :=
    (Program.instructions_withBlocks hperm).mem_iff
  have hunder := under_ofFunc (q := p.withBlocks f blocks) hc (fun _ => rfl) fun i => (hmem i).1
  have hunmixed := hunder.unmixed hc
  have hover := under_ofFunc (q := p) hunmixed (fun _ => rfl) fun i => (hmem i).2
  exact ⟨hunmixed, fun x => ⟨hunder.classOf_eq hc hover, hunder.pointeeClass_eq hc hover⟩⟩

/-- A handle that is put into a cell in the last of three blocks. -/
def keptText : String :=
  "define void @f()\x7be:%a=call ptr @create(i64 1)%p=alloca ptr br label%x " ++
  "x:%n=select i1 1,ptr %p,ptr %p br label%y y:store ptr %a,ptr %n ret void\x7d"

/-- The store may come before the select that it stores to. -/
theorem classOf_of_perm_kept : ∃ p, Program.load keptText.toList = .ok p ∧
    (p.func 0).blocks = [0, 1, 2] ∧ (ofFunc p {} 0).1.Unmixed ∧
    (ofFunc p {} 0).1.pointeeClass (.inst 1) = .data ∧
    (ofFunc (p.withBlocks 0 [0, 2, 1]) {} 0).1.pointeeClass (.inst 1) = .data := by
  obtain ⟨p, hload, -, hblocks, hc, hdata⟩ := Program.exists_load (s := keptText.toList)
    (P := fun p => (p.func 0).blocks = [0, 1, 2] ∧ (ofFunc p {} 0).1.Unmixed ∧
      (ofFunc p {} 0).1.pointeeClass (.inst 1) = .data) (by decide +kernel)
  have hperm : [0, 2, 1].Perm (p.func 0).blocks := by
    rw [hblocks]
    decide
  obtain ⟨-, hsame⟩ := classOf_of_perm hc hperm
  exact ⟨p, hload, hblocks, hc, hdata, (hsame (.inst 1)).2.trans hdata⟩

/-- A select of a handle and a cell, and a store of the handle to it in the block after. -/
def eitherText : String :=
  "define void @f()\x7be:%a=call ptr @create(i64 1)%p=alloca ptr br label%x " ++
  "x:%n=select i1 1,ptr %a,ptr %p br label%y y:store ptr %a,ptr %n ret void\x7d"

/-- With conflicts it matters which block comes first: the select is a handle in one order, and a
cell in the other. -/
theorem not_classOf_of_perm : ∃ p, Program.load eitherText.toList = .ok p ∧
    (p.func 0).blocks = [0, 1, 2] ∧ (p.func 0).blocks.Perm [0, 2, 1] ∧
    ((p.withBlocks 0 [0, 2, 1]).func 0).blocks = [0, 2, 1] ∧
    (ofFunc p {} 0).1.classOf (.inst 3) = .data ∧
    (ofFunc (p.withBlocks 0 [0, 2, 1]) {} 0).1.classOf (.inst 3) = .pointer := by
  obtain ⟨p, hload, -, h⟩ := Program.exists_load (s := eitherText.toList) (P := fun p =>
    (p.func 0).blocks = [0, 1, 2] ∧ (p.func 0).blocks.Perm [0, 2, 1] ∧
    ((p.withBlocks 0 [0, 2, 1]).func 0).blocks = [0, 2, 1] ∧
    (ofFunc p {} 0).1.classOf (.inst 3) = .data ∧
    (ofFunc (p.withBlocks 0 [0, 2, 1]) {} 0).1.classOf (.inst 3) = .pointer) (by decide +kernel)
  exact ⟨p, hload, h⟩

end Classification

end BoxFlow
