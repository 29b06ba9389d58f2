import BoxFlow.Proofs.Dataflow.Domain
import BoxFlow.Proofs.Dataflow.Lockstep
import BoxFlow.Proofs.Rewriting.Escaping

/-!
# The rewritten function analysed again

If a rewriting leaves the classes of the values as they are, the analysis of the rewritten function
goes in step with that of the function before: it makes the same visits, and what it knows is the
same by other numbers (`Analysis.exists_redone`). The write in the place of an arithmetic call
counts as what that call was, for the rules do not ask what a handle is set to.
-/

namespace BoxFlow

/-- A classified number is that of a value. -/
theorem Classification.Numbered.exists_find {c : Classification} (hc : c.Numbered) {id : Id}
    (h : c.classOfId id ≠ .irrelevant) : ∃ x, c.arena.find x = some id ∧
      c.classOf x = c.classOfId id := by
  obtain ⟨x, hx⟩ := Arena.exists_value?_iff.2 (hc id h)
  have hfind : c.arena.find x = some id := by
    rw [Arena.find_eq_some_iff]
    rw [Arena.value?, if_pos (hc id h).1] at hx
    exact ⟨(hc id h).1, hx⟩
  exact ⟨x, hfind, by rw [classOf, hfind]⟩

namespace Analysis

open View

/-! ## Numbers for more values -/

/-- The analysis with numbers for more values. -/
def numbering (a : Analysis) (xs : List Value) : Analysis :=
  { a with cls.arena := xs.foldl Arena.insert a.cls.arena }

variable {p q : Program} {o : Options} {f : FuncId} {φ : Fates} {oracle oracle' : Oracle}
  {c : Classification} {r : Renumbering} {z z' : Analysis} {i j : InstId} {x : Value} {id : Id}
  {E E' : Std.ExtTreeMap BlockId Facts} {callee : String} {args : List Value} {m : InstId}
  {u : Value}

theorem grown_numbering {n N : Nat} (hn : n ≤ N) (xs : List Value) :
    Grown [] (config p f oracle c n).2.toView ((config p f oracle c N).2.numbering xs).toView where
  program := (run_program (run_config ..)).1.trans (run_program (run_config ..)).1.symm
  oracle := (run_oracle (run_config ..)).trans (run_oracle (run_config ..)).symm
  cls := by
    have hnumbering (a : Analysis) : (a.numbering xs).cls =
        { a.cls with arena := xs.foldl Arena.insert a.cls.arena } := rfl
    rw [hnumbering, (run_program (run_config p f oracle c N)).2.2.2.1,
      (run_program (run_config p f oracle c n)).2.2.2.1]
  arena := (config_arena p f oracle c hn).trans (Arena.values_foldl_insert ..)
  exits := nofun

theorem grown_start {N : Nat} (xs : List Value) : Grown [] ⟨p, oracle, c, ∅⟩
    ((config p f oracle c N).2.numbering xs).toView :=
  grown_numbering (Nat.zero_le N) xs

/-! ## Aligned analyses -/

/-- An analysis of a function and one of the rewritten function: the values that the function
mentions have numbers in the one, and what is in their place has those numbers renumbered in the
other. -/
structure Aligned (r : Renumbering) (p q : Program) (o : Options) (f : FuncId) (φ : Fates)
    (oracle oracle' : Oracle) (z z' : Analysis) : Prop where
  grown : Grown [] ⟨p, oracle, (Classification.ofFunc p o f).1, ∅⟩ z.toView
  grown' : Grown [] ⟨q, oracle', (Classification.ofFunc q o f).1, ∅⟩ z'.toView
  find : ∀ x ∈ p.values f, z.cls.arena.find x = some (z.idOf x)
  find_subst : ∀ x ∈ p.values f, z'.cls.arena.find (φ.subst x) = some (r.value (z.idOf x))
  setter : ∀ i ∈ p.instructions f, z'.idOf (.inst (φ.setter i)) = r.setter (z.idOf (.inst i))

/-- The oracles answer the same for a call that stays. -/
def Agree (p : Program) (f : FuncId) (φ : Fates) (oracle oracle' : Oracle) : Prop :=
  ∀ i ∈ p.instructions f, φ i = .kept → ∀ x ∈ p.values f, ∀ m n,
    oracle' i (φ.subst x) m = oracle i x n

/-- Two analyses can be aligned by numbering what they leave out. -/
theorem exists_aligned (h : p.Follows q o f φ) (hp : p.Enclosed f) (oracle oracle' : Oracle)
    (N : Nat) : ∃ r z z', Aligned r p q o f φ oracle oracle' z z' ∧
      (∀ n ≤ N, Grown [] (config p f oracle (Classification.ofFunc p o f).1 n).2.toView z.toView) ∧
      ∀ n ≤ N, Grown [] (config q f oracle' (Classification.ofFunc q o f).1 n).2.toView
        z'.toView := by
  let z := (config p f oracle (Classification.ofFunc p o f).1 N).2.numbering (p.values f)
  let z' := (config q f oracle' (Classification.ofFunc q o f).1 N).2.numbering
    ((p.values f).map φ.subst ++ (p.instructions f).map fun i => .inst (φ.setter i))
  have hz {x : Value} (hx : x ∈ p.values f) : x ∈ z.cls.arena.values :=
    Arena.mem_foldl_insert hx _
  have hself {i : InstId} (hi : i ∈ p.instructions f) : .inst i ∈ p.values f :=
    List.mem_flatMap.2 ⟨i, hi, List.mem_cons_self⟩
  obtain ⟨r, hvalue, hsetter⟩ := Renumbering.exists_renumbering z.cls.arena z'.cls.arena
    φ.subst φ.setter
    (fun x hx => ⟨hz hx,
      Arena.mem_foldl_insert (List.mem_append_left _ (List.mem_map_of_mem hx)) _⟩)
    (fun x hx y hy => h.subst_inj hp hx hy)
    (fun i hi => ⟨hz (hself hi),
      Arena.mem_foldl_insert (List.mem_append_right _ (List.mem_map.2 ⟨i, hi, rfl⟩)) _⟩)
    (fun i hi j hj => h.setter_inj hp hi hj)
  refine ⟨r, z, z', ⟨grown_start _, grown_start _, fun x hx => ?_, hvalue, hsetter⟩,
    fun n hn => grown_numbering hn _, fun n hn => grown_numbering hn _⟩
  obtain ⟨id, hid⟩ := Option.ne_none_iff_exists'.1
    (mt Arena.find_eq_none_iff.1 (not_not.2 (hz hx)))
  rw [hid, View.idOf, Arena.idOf_of_find hid]

namespace Aligned

variable (ha : Aligned r p q o f φ oracle oracle' z z') (h : p.Follows q o f φ)
  (hp : p.Enclosed f)
  (hclasses : ∀ x, (Classification.ofFunc q o f).1.classOf x =
    (Classification.ofFunc p o f).1.classOf x)
include ha

theorem classOf (x : Value) : z.cls.classOf x = (Classification.ofFunc p o f).1.classOf x :=
  ha.grown.classOf (Classification.ofFunc_numbered p o f) x

theorem classOf' (x : Value) : z'.cls.classOf x = (Classification.ofFunc q o f).1.classOf x :=
  ha.grown'.classOf (Classification.ofFunc_numbered q o f) x

/-- A classified number is that of a value that stays. -/
theorem exists_classified (h : p.Follows q o f φ) (hp : p.Enclosed f)
    (hclasses : ∀ x, (Classification.ofFunc q o f).1.classOf x =
      (Classification.ofFunc p o f).1.classOf x) (hid : z.cls.classOfId id ≠ .irrelevant) :
    ∃ x ∈ p.values f, φ.subst x = x ∧ z.cls.arena.find x = some id ∧
      z'.cls.arena.find x = some (r.value id) := by
  have hid' : (Classification.ofFunc p o f).1.classOfId id ≠ .irrelevant := by
    rwa [ha.grown.classOfId] at hid
  obtain ⟨x, hfind, hclass⟩ := (Classification.ofFunc_numbered p o f).exists_find hid'
  rw [← hclass] at hid'
  have hx : x ∈ p.values f := Classification.mem_mentioned_of_classOf hid'
  have hsubst := h.subst_of_classified hp hclasses hid'
  have hfind := Arena.find_of_prefix ha.grown.arena hfind
  refine ⟨x, hx, hsubst, hfind, ?_⟩
  have hsame := ha.find_subst x hx
  rwa [hsubst, View.idOf, Arena.idOf_of_find hfind] at hsame

include h hp hclasses

theorem classOfId (x : Id) : z'.cls.classOfId (r.value x) = z.cls.classOfId x := by
  by_cases hid : z.cls.classOfId x = .irrelevant
  · by_contra hne
    rw [hid] at hne
    have hid' : (Classification.ofFunc q o f).1.classOfId (r.value x) ≠ .irrelevant := by
      rwa [ha.grown'.classOfId] at hne
    obtain ⟨y, hfind, hclass⟩ := (Classification.ofFunc_numbered q o f).exists_find hid'
    rw [← hclass, hclasses] at hid'
    have hy : y ∈ p.values f := Classification.mem_mentioned_of_classOf hid'
    have hsame := ha.find_subst y hy
    rw [h.subst_of_classified hp hclasses hid', Arena.find_of_prefix ha.grown'.arena hfind] at hsame
    rw [r.value.injective (Option.some.inj hsame)] at hid
    have hself : z.cls.classOf y = z.cls.classOfId (z.idOf y) := by
      rw [Classification.classOf, ha.find y hy]
    exact hid' ((ha.classOf y).symm.trans (hself.trans hid))
  · obtain ⟨y, -, hsubst, hfind, hfind'⟩ := ha.exists_classified h hp hclasses hid
    have hself : z.cls.classOf y = z.cls.classOfId x := by rw [Classification.classOf, hfind]
    have hself' : z'.cls.classOf y = z'.cls.classOfId (r.value x) := by
      rw [Classification.classOf, hfind']
    rw [← hself, ← hself', ha.classOf, ha.classOf', hclasses]

theorem value?_of_classified (hid : z.cls.classOfId id ≠ .irrelevant) : ∃ x ∈ p.values f,
    φ.subst x = x ∧ z.cls.arena.value? id = some x ∧
      z'.cls.arena.value? (r.value id) = some x := by
  obtain ⟨x, hx, hsubst, hfind, hfind'⟩ := ha.exists_classified h hp hclasses hid
  exact ⟨x, hx, hsubst, Arena.value?_of_find hfind, Arena.value?_of_find hfind'⟩

theorem foreign (hid : z.cls.classOfId id ≠ .irrelevant) :
    z'.cls.foreign (r.value id) = z.cls.foreign id := by
  obtain ⟨x, -, -, hvalue, hvalue'⟩ := ha.value?_of_classified h hp hclasses hid
  rw [Classification.foreign, Classification.foreign, hvalue, hvalue']

/-! ## Effects -/

omit h hp hclasses in
theorem kindOf (hi : i ∈ p.instructions f) (hop : (p.inst i).op = .call callee args) :
    z.cls.kindOf i = o.kindOf callee := by
  rw [ha.grown.cls]
  exact Classification.kindOf_ofFunc hi hop

omit h hp hclasses in
theorem kindOf' (hj : j ∈ q.instructions f) (hop : (q.inst j).op = .call callee args) :
    z'.cls.kindOf j = o.kindOf callee := by
  rw [ha.grown'.cls]
  exact Classification.kindOf_ofFunc hj hop

theorem renumbers (hE : SameExits r E E') : Renumbers r φ.subst {x | x ∈ p.values f}
    (z.withExits E).toView (z'.withExits E').toView where
  classOfId := ha.classOfId h hp hclasses
  find := ha.find
  find_image := ha.find_subst
  exits := hE

theorem stays (hagree : Agree p f φ oracle oracle') (hi : i ∈ p.instructions f)
    (hfate : φ i = .kept) : Stays r φ.subst {x | x ∈ p.values f} (z.withExits E).toView
      (z'.withExits E').toView i where
  op := by
    show (z'.program.inst i).op = (z.program.inst i).op.map φ.subst id
    rw [ha.grown.program, ha.grown'.program]
    exact h.op_of_kept hi hfate
  kind hcall := by
    have hcall : (p.inst i).op.isCall = true := by
      rw [← show z.program = p from ha.grown.program]
      exact hcall
    cases hop : (p.inst i).op with
    | call callee args =>
      have hop' : (q.inst i).op = .call callee (args.map φ.subst) := by
        rw [h.op_of_kept hi hfate, hop]
        rfl
      have hi' : i ∈ q.instructions f :=
        h.mem_instructions.2 ⟨i, hi, by simp [Fates.segment_eq_self hfate]⟩
      exact (ha.kindOf' hi' hop').trans (ha.kindOf hi hop).symm
    | _ => simp [hop, Form.isCall] at hcall
  mentioned x hx := by
    have hx : x ∈ p.mentioned i := by
      rw [← show z.program = p from ha.grown.program]
      exact hx
    exact List.mem_flatMap.2 ⟨i, hi, hx⟩
  self := Fates.subst_eq_self (by rw [hfate]; rfl)
  setter := by
    have hsetter := ha.setter i hi
    rwa [Fates.setter, hfate] at hsetter
  mayModify _ x hx := by
    obtain ⟨y, hy, hsubst, hvalue, hvalue'⟩ := ha.value?_of_classified h hp hclasses hx
    show (z'.cls.arena.value? (r.value x)).elim true _ = (z.cls.arena.value? x).elim true _
    rw [hvalue, hvalue']
    show z'.oracle i y _ = z.oracle i y _
    rw [ha.grown.oracle, ha.grown'.oracle]
    have := hagree i hi hfate y hy (z'.program.locationSize y) (z.program.locationSize y)
    rwa [hsubst] at this

/-- The write in the place of an arithmetic call sets what that call has set. -/
theorem effect_setter (hi : i ∈ p.instructions f) {handle x y : Value} {c : Value}
    (harith : p.IsArithmetic o i handle x y) (hw : (φ i).write? = some j)
    (hop : (q.inst j).op = .call (o.names.nameOf .write) [φ.subst handle, c])
    (hE : SameExits r E E') (k : Knowledge) :
    (z'.withExits E').effect j (k.renumber r) = ((z.withExits E).effect i k).renumber r := by
  obtain ⟨callee, rest, hcall, hkind⟩ := harith
  have hj : j ∈ q.instructions f := h.mem_instructions.2 ⟨i, hi, Fates.write?_mem_segment hw⟩
  have hhandle : handle ∈ p.values f :=
    Program.mem_values_of_operand hi (by rw [hcall]; exact List.mem_cons_self)
  have hcall' : ((z.withExits E).program.inst i).op = .call callee (handle :: x :: y :: rest) := by
    rw [← hcall, ← show z.program = p from ha.grown.program]
    rfl
  have hop' : ((z'.withExits E').program.inst j).op =
      .call (o.names.nameOf .write) [φ.subst handle, c] := by
    rw [← hop, ← show z'.program = q from ha.grown'.program]
    rfl
  have hdefines : ((z.withExits E).cls.kindOf i).definesFirst = true := by
    rw [show (z.withExits E).cls.kindOf i = _ from ha.kindOf hi hcall]
    rcases hkind with hkind | hkind <;> rw [hkind] <;> rfl
  have hdefines' : ((z'.withExits E').cls.kindOf j).definesFirst = true := by
    rw [show (z'.withExits E').cls.kindOf j = _ from ha.kindOf' hj hop, o.kindOf_nameOf]
    rfl
  have hr := ha.renumbers h hp hclasses hE
  rw [effect_of_definesFirst hcall' hdefines, effect_of_definesFirst hop' hdefines',
    hr.classOf hhandle, hr.idOf hhandle]
  have hsetter : (z'.withExits E').idOf (.inst j) = r.setter ((z.withExits E).idOf (.inst i)) := by
    have hsetter := ha.setter i hi
    rwa [Fates.setter, hw] at hsetter
  rw [hsetter, ← Knowledge.renumber_define]
  split <;> rfl

omit hp hclasses in
/-- The read that is put in before a write does nothing to the knowledge. -/
theorem effect_read (hfate : φ i = .copied j m u) (k : Knowledge) :
    (z'.withExits E').effect j k = k := by
  have hi : i ∈ p.instructions f := h.mem (by simp [hfate])
  have hmeets := h.meets i hi
  rw [hfate] at hmeets
  obtain ⟨handle, x, y, -, -, hop, -⟩ := hmeets
  have hj : j ∈ q.instructions f := h.mem_instructions.2
    ⟨i, hi, by rw [Fates.segment_eq_code (by simp [hfate]), hfate]; exact List.mem_cons_self⟩
  have hread : ((z'.withExits E').program.inst j).op = .call (o.names.nameOf .read) [φ.subst u] := by
    rw [← hop, ← show z'.program = q from ha.grown'.program]
    rfl
  exact effect_of_read hread ((ha.kindOf' hj hop).trans (o.kindOf_nameOf .read))

/-- The analyses go in parallel. -/
theorem parallel (hagree : Agree p f φ oracle oracle') : Parallel r p q f φ.segment z z' where
  program := ha.grown.program
  program' := ha.grown'.program
  func := h.blocks
  block := h.block
  classOfId := ha.classOfId h hp hclasses
  foreign _ := ha.foreign h hp hclasses
  effect {E E'} hE i hi k := by
    have hmeets := h.meets i hi
    cases hfate : φ i with
    | kept =>
      rw [Fates.segment_eq_self hfate]
      exact effect_renumber (ha.renumbers h hp hclasses hE) (ha.stays h hp hclasses hagree hi hfate)
    | dropped l =>
      rw [hfate] at hmeets
      obtain ⟨callee, args, hop, hk⟩ := hmeets
      have hread : ((z.withExits E).program.inst i).op = .call callee args := by
        rw [← hop, ← show z.program = p from ha.grown.program]
        rfl
      rw [Fates.segment_eq_code (by simp [hfate]), hfate,
        effect_of_read hread ((ha.kindOf hi hop).trans hk)]
      rfl
    | written w l =>
      rw [hfate] at hmeets
      obtain ⟨handle, x, y, harith, hw⟩ := hmeets
      rw [Fates.segment_eq_code (by simp [hfate]), hfate]
      exact ha.effect_setter h hp hclasses hi harith (by rw [hfate]; rfl) hw hE k
    | copied l w u =>
      rw [hfate] at hmeets
      obtain ⟨handle, x, y, harith, -, hl, hw⟩ := hmeets
      rw [Fates.segment_eq_code (by simp [hfate]), hfate]
      show (z'.withExits E').effect w ((z'.withExits E').effect l (k.renumber r)) = _
      rw [ha.effect_read h hfate]
      exact ha.effect_setter h hp hclasses hi harith (by rw [hfate]; rfl) hw hE k
  idle E' i hi pre j post hsplit k := by
    by_cases hfate : φ i = .kept
    · rw [Fates.segment_eq_self hfate] at hsplit
      obtain ⟨rfl, -⟩ := (List.singleton_eq_append_iff.1 hsplit).resolve_right (by simp)
      rfl
    · rw [Fates.segment_eq_code hfate] at hsplit
      cases hcode : φ i with
      | kept => exact absurd hcode hfate
      | dropped l => simp [hcode, Fate.code] at hsplit
      | written w l =>
        rw [hcode] at hsplit
        obtain ⟨rfl, -⟩ := (List.singleton_eq_append_iff.1 hsplit).resolve_right (by simp)
        rfl
      | copied l w u =>
        rw [hcode] at hsplit
        rcases pre with _ | ⟨_, pre⟩
        · rfl
        · obtain ⟨rfl, hrest⟩ := List.cons.inj hsplit
          obtain ⟨rfl, -⟩ := (List.singleton_eq_append_iff.1 hrest).resolve_right (by simp)
          exact ha.effect_read h hcode k

end Aligned

/-! ## What the analyses find out -/

theorem InStep.factsBefore {seg : InstId → List InstId} {s s' : List BlockId × Analysis}
    (h : InStep r p f seg s s') (hi : i ∈ p.instructions f) (hj : j ∈ seg i) :
    (s'.2.factsBefore j).knowledge = (s.2.factsBefore i).knowledge.renumber r := by
  have hbefore := h.before i hi j hj
  rw [Analysis.factsBefore, Analysis.factsBefore, Std.ExtTreeMap.getD_eq_getD_getElem?,
    Std.ExtTreeMap.getD_eq_getD_getElem?]
  cases hs : s.2.before[i]? with
  | none =>
    rw [hs, Option.map_none, Option.map_eq_none_iff] at hbefore
    rw [hbefore]
    show ({} : Facts).knowledge = ({} : Facts).knowledge.renumber r
    rw [Facts.knowledge_empty]
    rfl
  | some e =>
    rw [hs, Option.map_some, Option.map_eq_some_iff] at hbefore
    obtain ⟨e', he', heq⟩ := hbefore
    rw [he', Option.getD_some, Option.getD_some, heq]

/-- What may have set a value is known by the number of the value, given by now or later. -/
theorem mem_definitions {a : Analysis} (ha : a.InDomain) (hz : Grown [] a.toView z.toView)
    (hx : z.cls.arena.find x = some (z.idOf x)) :
    id ∈ a.definitions i x ↔ id ∈ (a.factsBefore i).knowledge.defs (z.idOf x) := by
  rw [Facts.mem_knowledge_defs, definitions, idsIn]
  cases hfind : a.cls.arena.find x with
  | some n =>
    have hn := (Arena.find_of_prefix hz.arena hfind).symm.trans hx
    rw [← Option.some.inj hn, ← Std.ExtTreeSet.mem_toList]
  | none =>
    refine iff_of_false List.not_mem_nil fun hid => ?_
    have hkey := (ha.factsBefore i).defs.key hid
    exact absurd (Arena.size_le_of_find hz.arena hfind hx) (Int.not_le.2 hkey.2)

/-- An analysis of a function and one of the rewritten function that agree, by other numbers, on
whether they have converged and on what may have set the values that stay. -/
structure Redone (r : Renumbering) (p : Program) (f : FuncId) (φ : Fates) (a a' : Analysis) :
    Prop where
  converged : a'.converged = a.converged
  definitions : ∀ i ∈ p.instructions f, ∀ j ∈ φ.segment i, ∀ x ∈ p.values f, φ.subst x = x →
    ∀ m, r.setter m ∈ a'.definitions j x ↔ m ∈ a.definitions i x
  setter : ∀ i ∈ p.instructions f, ∀ {m}, a.cls.arena.find (.inst i) = some m →
    r.setter m ∈ a'.cls.arena.numbers →
      a'.cls.arena.value? (r.setter m) = some (.inst (φ.setter i))

/-- A rewritten function is analysed as the function was. -/
theorem exists_redone (h : p.Follows q o f φ) (hp : p.Enclosed f) (hq : q.Linked)
    (hclasses : ∀ x, (Classification.ofFunc q o f).1.classOf x =
      (Classification.ofFunc p o f).1.classOf x) (hagree : Agree p f φ oracle oracle') :
    ∃ r, Redone r p f φ (solve p f o oracle (Classification.ofFunc p o f).1)
      (solve q f o oracle' (Classification.ofFunc q o f).1) := by
  obtain ⟨r, z, z', ha, hgrown, hgrown'⟩ := exists_aligned h hp oracle oracle' o.maxIterations
  have hstep := (ha.parallel h hp hclasses hagree).inStep_config hp.linked hq
    (Classification.ofFunc_numbered p o f) (Classification.ofFunc_numbered q o f) hgrown hgrown'
    o.maxIterations le_rfl
  have hz := hgrown o.maxIterations le_rfl
  have hz' := hgrown' o.maxIterations le_rfl
  have hdomain := solve_inDomain p f o oracle
  have hdomain' := solve_inDomain q f o oracle'
  rw [solve_eq] at hdomain hdomain' ⊢
  rw [solve_eq]
  refine ⟨r, ⟨?_, fun i hi j hj x hx hsubst m => ?_, fun i hi m hm hnumber => ?_⟩⟩
  · show List.isEmpty _ = List.isEmpty _
    rw [hstep.worklist]
  · have hfind := ha.find_subst x hx
    rw [hsubst] at hfind
    have hidOf : z'.idOf x = r.value (z.idOf x) := Arena.idOf_of_find hfind
    rw [mem_definitions hdomain hz (ha.find x hx),
      mem_definitions hdomain' hz' (hidOf ▸ hfind), hidOf]
    have hfacts := hstep.factsBefore hi hj
    refine Iff.trans (Set.ext_iff.1 (congrFun (congrArg Knowledge.defs hfacts) _) _) ?_
    rw [Knowledge.mem_renumber_defs, Equiv.symm_apply_apply, Equiv.symm_apply_apply]
    rfl
  · obtain ⟨y, hy⟩ := Arena.exists_value?_iff.2 hnumber
    have hlater : z'.cls.arena.value? (r.setter m) = some y :=
      (Arena.value?_of_prefix hz'.arena hnumber.2).trans hy
    have hsetter := ha.setter i hi
    rw [View.idOf, View.idOf, Arena.idOf_of_find (Arena.find_of_prefix hz.arena hm)] at hsetter
    rw [← hsetter] at hlater
    rw [hy, Arena.eq_of_value?_idOf hlater]

end Analysis

end BoxFlow
