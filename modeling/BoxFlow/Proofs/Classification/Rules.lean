import BoxFlow.Proofs.Classification.Scans

/-!
# What follows from the rules

A classification that its rules leave alone has the classes that they give: of handles and cells,
and of what cells may hold. If no value is taken for both (`Unmixed`), whatever a rule gives is the
class (`Unmixed.classOf_of_add`, `Unmixed.pointeeClass_of_addPointee`).
-/

namespace BoxFlow

namespace Classification

variable {c d : Classification} {x y : Value} {id : Id} {w : List Value} {k : ValueClass}
  {p : Program} {is : List InstId} {i : InstId} {o : Options} {f : FuncId}

/-! ## Classes and sets -/

/-- The numbers in the set of a class. -/
def setOf (c : Classification) : ValueClass → IdSet
  | .data => c.data
  | .pointer => c.pointer
  | .irrelevant => ∅

/-- The numbers of what may hold something of a class. -/
def pointeeSetOf (c : Classification) : ValueClass → IdSet
  | .data => c.holdsData
  | .pointer => c.holdsPointers
  | .irrelevant => ∅

/-- The value is in the set of the class. It may be in both, and counts as `data` then. -/
def Has (c : Classification) (x : Value) (k : ValueClass) : Prop :=
  ∃ id ∈ c.setOf k, c.arena.find x = some id

/-- The class is one of those that the value may hold. -/
def MayHold (c : Classification) (x : Value) (k : ValueClass) : Prop :=
  ∃ id ∈ c.pointeeSetOf k, c.arena.find x = some id

theorem classOf_eq_data : c.classOf x = .data ↔ ∃ id, c.arena.find x = some id ∧ id ∈ c.data := by
  unfold classOf classOfId
  cases c.arena.find x with
  | none => simp
  | some id =>
    dsimp only
    split
    · simp_all
    · split <;> simp_all

theorem classOf_ne_irrelevant : c.classOf x ≠ .irrelevant ↔
    ∃ id, c.arena.find x = some id ∧ (id ∈ c.data ∨ id ∈ c.pointer) := by
  unfold classOf
  cases c.arena.find x with
  | none => simp
  | some id =>
    simp only [Option.some.injEq, exists_eq_left']
    exact classOfId_ne_irrelevant

theorem Adds.classOf_eq_data (h : Adds w c d) (hx : c.classOf x = .data) : d.classOf x = .data := by
  obtain ⟨id, hfind, hid⟩ := Classification.classOf_eq_data.1 hx
  exact Classification.classOf_eq_data.2
    ⟨id, Arena.find_of_prefix h.arena hfind, h.members (n := 0) hid⟩

theorem classOf_add_data (hx : x.isLiteral = false) : (c.add x .data).classOf x = .data := by
  rw [add, if_neg (by simp [hx])]
  exact classOf_eq_data.2 ⟨_, Arena.find_insert_self .., Std.ExtTreeSet.mem_insert_self⟩

theorem has_of_classOf_data (h : c.classOf x = .data) : c.Has x .data := by
  obtain ⟨id, hfind, hid⟩ := classOf_eq_data.1 h
  exact ⟨id, hid, hfind⟩

theorem Has.classOf_ne (h : c.Has x k) : c.classOf x ≠ .irrelevant := by
  obtain ⟨id, hid, hfind⟩ := h
  refine classOf_ne_irrelevant.2 ⟨id, hfind, ?_⟩
  cases k with
  | data => exact .inl hid
  | pointer => exact .inr hid
  | irrelevant => exact absurd hid (by simp [setOf])

/-- What is there already when it is put in has been in the set. -/
theorem has_of_add_eq (h : c.add x k = c) (hk : k ≠ .irrelevant) (hx : x.isLiteral = false) :
    c.Has x k := by
  rw [add, if_neg (by simp [hx])] at h
  rw [← h]
  cases k with
  | data | pointer => exact ⟨_, Std.ExtTreeSet.mem_insert_self, Arena.find_insert_self ..⟩
  | irrelevant => exact absurd rfl hk

theorem classOf_of_add_eq (h : c.add x k = c) (hk : k ≠ .irrelevant) (hx : x.isLiteral = false) :
    c.classOf x ≠ .irrelevant :=
  (has_of_add_eq h hk hx).classOf_ne

theorem mayHold_of_addPointee_eq (h : c.addPointee x k = c) (hk : k ≠ .irrelevant) :
    c.MayHold x k := by
  rw [← h]
  cases k with
  | data | pointer => exact ⟨_, Std.ExtTreeSet.mem_insert_self, Arena.find_insert_self ..⟩
  | irrelevant => exact absurd rfl hk

theorem MayHold.pointeeClass_ne (h : c.MayHold x k) : c.pointeeClass x ≠ .irrelevant := by
  obtain ⟨id, hid, hfind⟩ := h
  rw [pointeeClass, hfind]
  dsimp only
  unfold pointeeClassOfId
  cases k with
  | data => simp [show id ∈ c.holdsData from hid]
  | pointer => split <;> simp [show id ∈ c.holdsPointers from hid]
  | irrelevant => exact absurd hid (by simp [pointeeSetOf])

theorem pointeeClass_of_addPointee_data (h : c.addPointee x .data = c) :
    c.pointeeClass x = .data := by
  rw [← h, pointeeClass, addPointee, Arena.find_insert_self]
  exact if_pos Std.ExtTreeSet.mem_insert_self

/-- Two values that each may hold what the other does are of one pointee class. -/
theorem pointeeClass_eq_of_addPointee (hx : c.addPointee x (c.pointeeClass y) = c)
    (hy : c.addPointee y (c.pointeeClass x) = c) : c.pointeeClass x = c.pointeeClass y := by
  have hdata {a b : Value} (h : c.addPointee a (c.pointeeClass b) = c)
      (hb : c.pointeeClass b = .data) : c.pointeeClass a = .data :=
    pointeeClass_of_addPointee_data (hb ▸ h)
  have hsome {a b : Value} (h : c.addPointee a (c.pointeeClass b) = c)
      (hb : c.pointeeClass b ≠ .irrelevant) : c.pointeeClass a ≠ .irrelevant :=
    (mayHold_of_addPointee_eq h hb).pointeeClass_ne
  have hxy := hdata hx
  have hyx := hdata hy
  have hxy' := hsome hx
  have hyx' := hsome hy
  cases hcx : c.pointeeClass x <;> cases hcy : c.pointeeClass y <;> simp_all

/-- No value is taken for a handle and for a cell, and none to hold both. -/
@[mk_iff]
structure Unmixed (c : Classification) : Prop where
  classes : ∀ id ∈ c.pointer, id ∉ c.data
  pointees : ∀ id ∈ c.holdsPointers, id ∉ c.holdsData

instance (c : Classification) : Decidable c.Unmixed :=
  decidable_of_iff ((∀ id ∈ c.pointer.toList, id ∉ c.data) ∧
      ∀ id ∈ c.holdsPointers.toList, id ∉ c.holdsData)
    (by simp only [Std.ExtTreeSet.mem_toList, unmixed_iff])

theorem Unmixed.classOf_of_mem (hc : c.Unmixed) (hid : id ∈ c.pointer)
    (hfind : c.arena.find x = some id) : c.classOf x = .pointer := by
  rw [classOf, hfind]
  exact (if_neg (hc.classes id hid)).trans (if_pos hid)

theorem Unmixed.classOf_of_add (hc : c.Unmixed) (h : c.add x k = c) (hk : k ≠ .irrelevant)
    (hx : x.isLiteral = false) : c.classOf x = k := by
  cases k with
  | data => exact h ▸ classOf_add_data hx
  | pointer =>
    obtain ⟨id, hid, hfind⟩ := has_of_add_eq h hk hx
    exact hc.classOf_of_mem hid hfind
  | irrelevant => exact absurd rfl hk

theorem Unmixed.pointeeClass_of_addPointee (hc : c.Unmixed) (h : c.addPointee x k = c)
    (hk : k ≠ .irrelevant) : c.pointeeClass x = k := by
  cases k with
  | data => exact pointeeClass_of_addPointee_data h
  | pointer =>
    obtain ⟨id, hid, hfind⟩ := mayHold_of_addPointee_eq h hk
    rw [pointeeClass, hfind]
    exact (if_neg (hc.pointees _ hid)).trans (if_pos hid)
  | irrelevant => exact absurd rfl hk

/-! ## Rules -/

/-- If something has been added in two goes and nothing has changed, neither has changed
anything. -/
theorem Adds.eq_of_eq {e : Classification} (h : Adds w c d) (h' : Adds w d e) (he : e = c) :
    d = c := by
  subst he
  exact h'.antisymm h

/-- The rule of a store adds nothing. -/
theorem visitStore_ofFunc {value pointer : Value} (hi : i ∈ p.instructions f)
    (hop : (p.inst i).op = .store value pointer) :
    (ofFunc p o f).1.visitStore value pointer = (ofFunc p o f).1 := by
  have h := visit_ofFunc (o := o) hi
  rwa [visit, hop] at h

theorem visitLoad_ofFunc {pointer : Value} (hi : i ∈ p.instructions f)
    (hop : (p.inst i).op = .load pointer) :
    (ofFunc p o f).1.visitLoad (.inst i) pointer = (ofFunc p o f).1 := by
  have h := visit_ofFunc (o := o) hi
  rwa [visit, hop] at h

theorem visitMerge_ofFunc (hi : i ∈ p.instructions f) (hx : x ∈ (p.inst i).op.merged) :
    (ofFunc p o f).1.visitMerge (.inst i) (p.inst i).op.merged = (ofFunc p o f).1 := by
  have h := visit_ofFunc (o := o) hi
  unfold visit at h
  cases hop : (p.inst i).op <;> simp only [hop, Form.merged, List.not_mem_nil] at hx h ⊢
  · exact h
  · exact h

/-- A cell into which something classified is stored holds it. -/
theorem add_of_visitStore {value pointer : Value} (h : c.visitStore value pointer = c)
    (hk : c.classOf value ≠ .irrelevant) :
    c.add pointer .pointer = c ∧ c.addPointee pointer (c.classOf value) = c := by
  have h : (c.add pointer .pointer).addPointee pointer (c.classOf value) = c := by
    unfold visitStore at h
    split at h
    · exact absurd (by assumption) hk
    · exact h
  have hadd : c.add pointer .pointer = c := Adds.eq_of_eq (w := [pointer])
    (Adds.refl.add _ List.mem_cons_self) (Adds.refl.addPointee _ List.mem_cons_self) h
  rw [hadd] at h
  exact ⟨hadd, h⟩

theorem loadedFrom_of_visitLoad {result pointer : Value} (h : c.visitLoad result pointer = c) :
    c.loadedFrom result pointer = c := by
  have hadds : Adds [result] (c.loadedFrom result pointer) (c.visitLoad result pointer) := by
    unfold visitLoad
    dsimp only
    split
    · exact Adds.refl.add _ List.mem_cons_self
    · exact .refl
  exact Adds.eq_of_eq (w := [result, pointer])
    ((loadedFrom_adds List.mem_cons_self).mono (List.subset_cons_self ..))
    (hadds.mono (by simp)) h

/-- A cell from which something classified is loaded holds it. -/
theorem add_of_visitLoad {result pointer : Value} (h : c.visitLoad result pointer = c)
    (hk : c.classOf result ≠ .irrelevant) :
    c.add pointer .pointer = c ∧ c.addPointee pointer (c.classOf result) = c := by
  have hloaded := loadedFrom_of_visitLoad h
  rw [loadedFrom, isClassified, if_pos (decide_eq_true hk)] at hloaded
  have hadd : c.add pointer .pointer = c := Adds.eq_of_eq (w := [pointer])
    (Adds.refl.add _ List.mem_cons_self) (Adds.refl.addPointee _ List.mem_cons_self) hloaded
  rw [hadd] at hloaded
  exact ⟨hadd, hloaded⟩

/-- What is loaded from a cell is of the class of what the cell holds. -/
theorem add_of_pointeeClass {result pointer : Value} (h : c.visitLoad result pointer = c)
    (hk : c.classOf pointer = .pointer) : c.add result (c.pointeeClass pointer) = c := by
  rwa [visitLoad, loadedFrom_of_visitLoad h, if_pos hk] at h

theorem spread_of_visitMerge {result : Value} {inputs : List Value}
    (h : c.visitMerge result inputs = c) : c.spread result inputs = c :=
  have hvs : inputs ⊆ result :: inputs := List.subset_cons_self ..
  Adds.eq_of_eq (spread_adds List.mem_cons_self hvs) (visitMerge_adds List.mem_cons_self hvs) h

/-- The inputs of a merge are of the class of its result. -/
theorem add_of_visitMerge {result : Value} {inputs : List Value}
    (h : c.visitMerge result inputs = c) (hk : c.classOf result ≠ .irrelevant) (hx : x ∈ inputs) :
    c.add x (c.classOf result) = c := by
  have hspread := spread_of_visitMerge h
  have hfold : inputs.foldl (·.add · (c.classOf result)) c = c := by
    unfold spread at hspread
    split at hspread
    · exact absurd (by assumption) hk
    · exact hspread
  exact eq_of_foldl_eq (w := inputs) (fun d v hv => Adds.refl.add _ hv) hfold hx

/-- If its inputs are classified, so is the result of a merge. -/
theorem result_of_visitMerge {result : Value} {inputs : List Value}
    (h : c.visitMerge result inputs = c) (hx : x ∈ inputs) (hk : c.classOf x ≠ .irrelevant)
    (hr : result.isLiteral = false) : c.classOf result ≠ .irrelevant := by
  intro hres
  have hspread := spread_of_visitMerge h
  rw [spread, hres] at hspread
  have hadd : c.add result (c.classOf x) = c :=
    eq_of_foldl_eq (w := [result]) (g := fun d v => d.add result (d.classOf v))
      (fun d v _ => Adds.refl.add _ List.mem_cons_self) hspread hx
  exact classOf_of_add_eq hadd hk hr hres

/-- Cells that are merged hold the same. -/
theorem addPointee_of_visitMerge {result : Value} {inputs : List Value}
    (h : c.visitMerge result inputs = c) (hk : c.classOf result = .pointer) (hx : x ∈ inputs)
    (hkx : c.classOf x = .pointer) :
    c.addPointee result (c.pointeeClass x) = c ∧ c.addPointee x (c.pointeeClass result) = c := by
  rw [visitMerge, spread_of_visitMerge h, if_pos hk] at h
  let members := result :: inputs.filter fun v => c.classOf v = .pointer
  have hinner (d : Classification) (a : Value) (ha : a ∈ members) : Adds members d
      (members.foldl (fun c b => c.addPointee a (c.pointeeClass b)) d) :=
    .foldl (fun d b _ => Adds.refl.addPointee _ ha) d
  have hpair {a b : Value} (ha : a ∈ members) (hb : b ∈ members) :
      c.addPointee a (c.pointeeClass b) = c :=
    eq_of_foldl_eq (g := fun d b => d.addPointee a (d.pointeeClass b))
      (fun d b _ => Adds.refl.addPointee _ ha) (eq_of_foldl_eq hinner h ha) hb
  have hresult : result ∈ members := List.mem_cons_self
  have hinput : x ∈ members :=
    List.mem_cons_of_mem _ (List.mem_filter.2 ⟨hx, decide_eq_true hkx⟩)
  exact ⟨hpair hresult hinput, hpair hinput hresult⟩

/-- The inputs of a phi or select are of its class; those of a cell may be taken for handles. -/
theorem classOf_merged (hi : i ∈ p.instructions f) (hx : x ∈ (p.inst i).op.merged)
    (hlit : x.isLiteral = false) :
    ((ofFunc p o f).1.classOf (.inst i) = .data → (ofFunc p o f).1.classOf x = .data) ∧
      ((ofFunc p o f).1.classOf (.inst i) = .pointer →
        (ofFunc p o f).1.classOf x ≠ .irrelevant) := by
  have hmerge := visitMerge_ofFunc (o := o) hi hx
  generalize (ofFunc p o f).1 = c at hmerge
  constructor
  · intro hk
    have hadd := add_of_visitMerge hmerge (by simp [hk]) hx
    rw [hk] at hadd
    exact hadd ▸ classOf_add_data hlit
  · intro hk
    exact classOf_of_add_eq (add_of_visitMerge hmerge (by simp [hk]) hx) (by simp [hk]) hlit

/-- If one load from a cell yields a handle, all do. -/
theorem classOf_load {j : InstId} {pointer : Value} (hi : i ∈ p.instructions f)
    (hj : j ∈ p.instructions f) (hopi : (p.inst i).op = .load pointer)
    (hopj : (p.inst j).op = .load pointer) (hptr : (ofFunc p o f).1.classOf pointer = .pointer)
    (hk : (ofFunc p o f).1.classOf (.inst i) = .data) :
    (ofFunc p o f).1.classOf (.inst j) = .data := by
  obtain ⟨-, hholds⟩ := add_of_visitLoad (visitLoad_ofFunc (o := o) hi hopi) (by simp [hk])
  rw [hk] at hholds
  have hadd := add_of_pointeeClass (visitLoad_ofFunc hj hopj) hptr
  rw [pointeeClass_of_addPointee_data hholds] at hadd
  exact hadd ▸ classOf_add_data rfl

/-! ## Seeds -/

/-- What every seed keeps and that of one instruction brings about holds of a classification. -/
theorem ofFunc_of_seed {P : Classification → Prop} (hi : i ∈ p.instructions f)
    (hadds : ∀ {w c d}, Adds w c d → P c → P d) (hnoted : ∀ c j, P c → P (noted p o c j))
    (hseed : ∀ c, P (seed p o c i)) : P (ofFunc p o f).1 := by
  refine hadds (settle_adds ..) ?_
  have hkeep (l : List InstId) (c : Classification) (hc : P c) : P (l.foldl (seed p o) c) :=
    List.foldlRecOn (motive := P) _ _ hc fun c hc j _ => hadds (seed_adds p o c j) (hnoted c j hc)
  obtain ⟨l, l', hsplit⟩ := List.append_of_mem hi
  rw [hsplit, List.foldl_append, List.foldl_cons]
  exact hkeep _ _ (hseed _)

theorem kindOf_ofFunc {callee : String} {args : List Value} (hi : i ∈ p.instructions f)
    (hop : (p.inst i).op = .call callee args) :
    (ofFunc p o f).1.kindOf i = o.kindOf callee := by
  refine ofFunc_of_seed (P := fun c => c.kindOf i = o.kindOf callee) hi
    (fun h hc => by rw [kindOf, h.kinds]; exact hc) (fun c j hc => ?_) (fun c => ?_)
  · unfold noted
    split
    · next callee' args' hj =>
      rw [kindOf, Std.ExtTreeMap.getD_insert]
      split
      · next hij =>
        obtain rfl : j = i := Std.LawfulEqCmp.eq_of_compare hij
        rw [hop] at hj
        cases hj
        rfl
      · exact hc
    · exact hc
  · rw [kindOf, (seed_adds p o c i).kinds, noted, hop]
    exact Std.ExtTreeMap.getD_insert_self

/-- Only calls of the function are operations. -/
theorem mem_calls_of_kindOf {op : Operation} (h : (ofFunc p o f).1.kindOf i = .operation op) :
    i ∈ p.calls f := by
  have hfold : ∀ j op, ((p.instructions f).foldl (seed p o) {}).kindOf j = .operation op →
      j ∈ p.calls f := by
    refine List.foldlRecOn (motive := fun c : Classification =>
      ∀ j op, c.kindOf j = .operation op → j ∈ p.calls f) _ _ ?_ fun c hc i hi j op hj => ?_
    · intro j op hj
      simp [kindOf] at hj
    · rw [kindOf, (seed_adds p o c i).kinds] at hj
      unfold noted at hj
      split at hj
      · next callee args hop =>
        rw [Std.ExtTreeMap.getD_insert] at hj
        split at hj
        · next hij =>
          obtain rfl : i = j := Std.LawfulEqCmp.eq_of_compare hij
          exact List.mem_filter.2 ⟨hi, by rw [hop]; rfl⟩
        · exact hc j op hj
      · exact hc j op hj
  refine hfold i op ?_
  rw [← h, kindOf, kindOf]
  exact congrArg (·.getD i .opaqueCall) (settle_adds ..).kinds.symm

/-- The handles that an operation takes are classified as such. -/
theorem classOf_handleArg {callee : String} {args : List Value} (hi : i ∈ p.instructions f)
    (hop : (p.inst i).op = .call callee args) (hx : x ∈ args.take (o.kindOf callee).handleArgs)
    (hlit : x.isLiteral = false) : (ofFunc p o f).1.classOf x = .data := by
  refine ofFunc_of_seed (P := fun c => c.classOf x = .data) (o := o) hi
    (fun h hc => h.classOf_eq_data hc) (fun c j hc => ?_) (fun c => ?_)
  · unfold noted
    split <;> exact hc
  · have hfold (l : List Value) (c : Classification) (hl : x ∈ l) :
        (l.foldl (·.add · .data) c).classOf x = .data := by
      obtain ⟨l₁, l₂, rfl⟩ := List.append_of_mem hl
      rw [List.foldl_append, List.foldl_cons]
      refine Adds.classOf_eq_data (w := l₂) (.foldl (fun d v hv => Adds.refl.add _ hv) _) ?_
      exact classOf_add_data hlit
    rw [seed, hop]
    exact hfold _ _ hx

/-- What a `create` makes is classified as a handle. -/
theorem classOf_create {callee : String} {args : List Value} (hi : i ∈ p.instructions f)
    (hop : (p.inst i).op = .call callee args) (hk : o.kindOf callee = .operation .create) :
    (ofFunc p o f).1.classOf (.inst i) = .data := by
  refine ofFunc_of_seed (P := fun c => c.classOf (.inst i) = .data) (o := o) hi
    (fun h hc => h.classOf_eq_data hc) (fun c j hc => ?_) (fun c => ?_)
  · unfold noted
    split <;> exact hc
  · rw [seed, hop]
    dsimp only
    rw [if_pos hk]
    refine Adds.classOf_eq_data (w := args.take (o.kindOf callee).handleArgs)
      (.foldl (fun d v hv => Adds.refl.add _ hv) _) ?_
    exact classOf_add_data rfl

/-- What an alloca makes is classified as a cell. -/
theorem mem_pointer_of_alloca {ty : Ty} (hi : i ∈ p.instructions f)
    (hop : (p.inst i).op = .alloca ty) : ∃ id ∈ (ofFunc p o f).1.pointer,
      (ofFunc p o f).1.arena.find (.inst i) = some id := by
  refine ofFunc_of_seed (o := o)
    (P := fun c => ∃ id ∈ c.pointer, c.arena.find (.inst i) = some id) hi ?_ ?_ ?_
  · rintro w c d h ⟨id, hid, hfind⟩
    exact ⟨id, h.members (n := 1) hid, Arena.find_of_prefix h.arena hfind⟩
  · intro c j hc
    unfold noted
    split <;> exact hc
  · intro c
    rw [seed, hop]
    exact ⟨_, Std.ExtTreeSet.mem_insert_self, Arena.find_insert_self ..⟩

end Classification

end BoxFlow
