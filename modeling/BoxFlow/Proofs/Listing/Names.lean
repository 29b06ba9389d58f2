import BoxFlow.Proofs.IR.FreshNames
import BoxFlow.Proofs.IR.Growth
import BoxFlow.Proofs.Listing.Listable
import BoxFlow.Proofs.Listing.Reading
import BoxFlow.Proofs.Loading

/-!
# Naming what a function holds

Labels and results get their names in two sweeps. After the first the blocks are there and every
label stands for its block (`Labelled`); after the second every line has its draft, and all names of
the function are distinct, those included that were made up for results without one (`Drafted`).
For each sweep: what one step keeps, what it needs to succeed, then the whole.
-/

namespace BoxFlow

/-! ## Tables with new keys -/

namespace Keyed

variable {α : Type} {t : Keyed α} {key : String} {v : α}

theorem lookup_eq_none : t.lookup key = none ↔ key ∉ t.map (·.1) := by
  rw [List.lookup_eq_none_iff, List.mem_map, not_exists]
  constructor
  · rintro h e ⟨he, rfl⟩
    simpa using h e he
  · intro h e he
    simpa using fun heq => h e ⟨he, heq.symm⟩

theorem put_of_not_mem (h : key ∉ t.map (·.1)) : t.put key v = t ++ [(key, v)] := by
  induction t with
  | nil => rfl
  | cons e t ih =>
    rw [List.map_cons, List.mem_cons, not_or] at h
    rw [put, if_neg (Ne.symm h.1), ih h.2, List.cons_append]

theorem mem_put {e : String × α} (h : e ∈ t.put key v) : e = (key, v) ∨ e ∈ t := by
  induction t with
  | nil => exact .inl (List.mem_singleton.1 h)
  | cons e' t ih =>
    rw [put] at h
    split at h
    · next hk =>
      rcases List.mem_cons.1 h with rfl | h
      · exact .inl (by rw [← hk])
      · exact .inr (List.mem_cons_of_mem _ h)
    · rcases List.mem_cons.1 h with rfl | h
      · exact .inr List.mem_cons_self
      · exact (ih h).imp_right (List.mem_cons_of_mem _)

theorem nodup_put (h : (t.map (·.1)).Nodup) (key : String) (v : α) :
    ((t.put key v).map (·.1)).Nodup := by
  rw [keys_put]
  split
  · exact h
  · next hkey => exact h.append (List.nodup_singleton _) (List.disjoint_singleton.2 hkey)

theorem lookup_of_mem (h : (t.map (·.1)).Nodup) (hmem : (key, v) ∈ t) : t.lookup key = some v := by
  induction t with
  | nil => cases hmem
  | cons e t ih =>
    rw [List.map_cons, List.nodup_cons] at h
    rcases List.mem_cons.1 hmem with rfl | hmem
    · exact List.lookup_cons_self
    · have hne : (key == e.1) = false :=
        beq_false_of_ne fun heq => h.1 (heq ▸ List.mem_map_of_mem hmem)
      rw [List.lookup_cons, hne]
      exact ih h.2 hmem

theorem mem_of_lookup (h : t.lookup key = some v) : (key, v) ∈ t := by
  obtain ⟨l, l', rfl, -⟩ := List.lookup_eq_some_iff.1 h
  simp

end Keyed

namespace Listing

variable {p q q' : Program} {scope scope' : Scope} {fn : Function} {done : List Block}

/-- A made-up name is a word if the hint is one. -/
theorem isName_firstUnused {hint : String} (h : IsName hint) (names : List String) :
    IsName (Program.firstUnused names hint) := by
  obtain ⟨-, n, hn⟩ := Program.firstUnused_spec names hint
  rw [hn]
  cases n with
  | zero => exact h
  | succ n =>
    simp only [IsName, Program.numbered, String.toList_append, Nat.toString_eq_ofList_toDigits,
      String.toList_ofList]
    refine ⟨by simp, fun c hc => ?_⟩
    rcases List.mem_append.1 hc with hc | hc
    · rcases List.mem_append.1 hc with hc | hc
      · exact h.2 c hc
      · cases List.mem_singleton.1 hc; rfl
    · exact isNameChar_of_isDigit c
        (Nat.isDigit_of_mem_toDigits (b := 10) (n := n + 1) (by decide) (by decide) hc)

/-! ## Labels -/

/-- The function `fn` is being built at the end of `p`: its first blocks are there, still empty, and
it has given away the names of its parameters and their labels. -/
structure Labelled (p : Program) (fn : Function) (done : List Block) (scope : Scope)
    (q : Program) : Prop where
  grown : p.Extends q
  functions : q.functions = p.functions.put fn.name p.funcs.size
  funcs_size : q.funcs.size = p.funcs.size + 1
  insts_size : q.insts.size = p.insts.size
  name : (q.func p.funcs.size).name = fn.name
  result : (q.func p.funcs.size).result = fn.result
  params : (q.func p.funcs.size).params = fn.params
  names : ∀ n, n ∈ (q.func p.funcs.size).names ↔ n ∈ fn.params.map (·.2) ++ done.map (·.label)
  blocks : List.Forall₂ (fun b B => p.blocks.size ≤ b ∧ b < q.blocks.size ∧
    (q.block b).label = B.label ∧ (q.block b).insts = []) (q.func p.funcs.size).blocks done
  owned : ∀ b, p.blocks.size ≤ b → b < q.blocks.size → b ∈ (q.func p.funcs.size).blocks
  labels : scope.labels = (done.map (·.label)).zip (q.func p.funcs.size).blocks
  values : scope.values = (fn.params.map (·.2)).zip (q.params p.funcs.size)
  nodup : (fn.params.map (·.2) ++ done.map (·.label)).Nodup

namespace Labelled

theorem newFunc (p : Program) (fn : Function) (hparams : (fn.params.map (·.2)).Nodup) :
    Labelled p fn []
      { values := (fn.params.map (·.2)).zip
          ((p.newFunc fn.name fn.result fn.params).2.params p.funcs.size) }
      (p.newFunc fn.name fn.result fn.params).2 := by
  have hfunc : (p.newFunc fn.name fn.result fn.params).2.func p.funcs.size =
      { name := fn.name
        result := fn.result
        params := fn.params
        names := (fn.params.map (·.2)).reverse } := by
    rw [Program.func_newFunc_eq, if_pos rfl]
  exact ⟨.newFunc .., rfl, Program.size_newFunc .., rfl, by rw [hfunc], by rw [hfunc],
    by rw [hfunc], by simp [hfunc], by simp [hfunc], fun b hge hlt => absurd hlt (Nat.not_lt.2 hge),
    by simp [hfunc], rfl, by simpa using hparams⟩

theorem keys_labels (h : Labelled p fn done scope q) :
    scope.labels.map (·.1) = done.map (·.label) := by
  rw [h.labels, List.map_fst_zip]
  exact Nat.le_of_eq (by rw [List.length_map, h.blocks.length_eq])

theorem keys_values (h : Labelled p fn done scope q) :
    scope.values.map (·.1) = fn.params.map (·.2) := by
  rw [h.values, List.map_fst_zip]
  exact Nat.le_of_eq (by rw [List.length_map, Program.params, List.length_mapIdx, h.params])

/-- A new label is free, and a block is added for it. -/
theorem addBlock_eq_ok {B : Block} (h : Labelled p fn done scope q) :
    addBlock p.funcs.size (scope, q) B = .ok (scope', q') ↔
      B.label ∉ fn.params.map (·.2) ++ done.map (·.label) ∧
        scope' = { scope with labels := scope.labels.put B.label q.blocks.size } ∧
        q' = (q.addBlock p.funcs.size B.label).2 := by
  rw [List.mem_append, not_or, ← h.keys_labels, ← h.keys_values, ← Keyed.lookup_eq_none,
    ← Keyed.lookup_eq_none, addBlock]
  dsimp only
  cases scope.values.lookup B.label with
  | some v => simp [throw, throwThe, MonadExceptOf.throw, bind, Except.bind]
  | none =>
    cases scope.labels.lookup B.label with
    | some b => simp [throw, throwThe, MonadExceptOf.throw, bind, Except.bind]
    | none =>
      constructor
      · rintro ⟨⟩
        exact ⟨⟨rfl, rfl⟩, rfl, rfl⟩
      · rintro ⟨-, rfl, rfl⟩
        rfl

theorem step {B : Block} (h : Labelled p fn done scope q)
    (hstep : addBlock p.funcs.size (scope, q) B = .ok (scope', q')) :
    Labelled p fn (done ++ [B]) scope' q' := by
  obtain ⟨hnew, rfl, rfl⟩ := h.addBlock_eq_ok.1 hstep
  have hlt : p.funcs.size < q.funcs.size := h.funcs_size ▸ Nat.lt_succ_self _
  have hfresh : Program.firstUnused (q.func p.funcs.size).names B.label = B.label :=
    Program.firstUnused_of_not_mem (mt (h.names _).1 hnew)
  have hfunc := Program.func_addBlock_eq hlt B.label p.funcs.size
  rw [if_pos rfl, hfresh] at hfunc
  have hblock (b : BlockId) := Program.block_addBlock_eq q p.funcs.size B.label b
  rw [hfresh] at hblock
  refine ⟨h.grown.addBlock (Nat.le_refl _) hlt _, h.functions, ?_, h.insts_size, ?_, ?_, ?_, ?_, ?_,
    fun b hge hb => ?_, ?_, ?_, ?_⟩
  · rw [Program.funcs_size_addBlock, h.funcs_size]
  · rw [hfunc, h.name]
  · rw [hfunc, h.result]
  · rw [hfunc, h.params]
  · intro n
    rw [hfunc]
    simp [h.names, or_comm, or_left_comm]
  · rw [hfunc]
    have hnew := hblock q.blocks.size
    rw [if_pos rfl] at hnew
    refine List.rel_append (h.blocks.imp fun b B hb => ?_) (.cons ?_ .nil)
    · obtain ⟨hge, hlt, hlabel, hinsts⟩ := hb
      have hold := hblock b
      rw [if_neg (Nat.ne_of_lt hlt)] at hold
      rw [Program.blocks_size_addBlock]
      exact ⟨hge, Nat.lt_succ_of_lt hlt, (congrArg BoxFlow.Block.label hold).trans hlabel,
        (congrArg BoxFlow.Block.insts hold).trans hinsts⟩
    · rw [Program.blocks_size_addBlock]
      exact ⟨h.grown.blocks_size, Nat.lt_succ_self _, congrArg BoxFlow.Block.label hnew,
        congrArg BoxFlow.Block.insts hnew⟩
  · rw [Program.blocks_size_addBlock] at hb
    rw [hfunc, List.mem_append, List.mem_singleton]
    rcases Nat.lt_succ_iff_lt_or_eq.1 hb with hb | rfl
    · exact .inl (h.owned b hge hb)
    · exact .inr rfl
  · rw [hfunc, List.map_append, List.zip_append, ← h.labels, Keyed.put_of_not_mem]
    · rfl
    · rw [h.keys_labels]
      exact fun hmem => hnew (List.mem_append_right _ hmem)
    · rw [List.length_map, h.blocks.length_eq]
  · rw [h.values, Program.params, Program.params, hfunc]
  · rw [List.map_append, ← List.append_assoc]
    exact h.nodup.append (List.nodup_singleton _) (List.disjoint_singleton.2 hnew)

/-- All blocks, one after the other. -/
theorem run {bs : List Block} (h : Labelled p fn done scope q)
    (hrun : bs.foldlM (Listing.addBlock p.funcs.size) (scope, q) = .ok (scope', q')) :
    Labelled p fn (done ++ bs) scope' q' := by
  induction bs generalizing done scope q with
  | nil =>
    cases hrun
    rwa [List.append_nil]
  | cons B bs ih =>
    rw [List.foldlM_cons, bind_eq_ok] at hrun
    obtain ⟨⟨scope₁, q₁⟩, h₁, hrun⟩ := hrun
    have := ih (h.step h₁) hrun
    rwa [List.append_assoc] at this

/-- They can be added if their labels are new. -/
theorem run_ok (bs : List Block) (h : Labelled p fn done scope q)
    (hnodup : (fn.params.map (·.2) ++ (done ++ bs).map (·.label)).Nodup) :
    ∃ scope' q', bs.foldlM (Listing.addBlock p.funcs.size) (scope, q) = .ok (scope', q') := by
  induction bs generalizing done scope q with
  | nil => exact ⟨scope, q, rfl⟩
  | cons B bs ih =>
    have hnew : B.label ∉ fn.params.map (·.2) ++ done.map (·.label) := by
      rw [List.map_append, ← List.append_assoc] at hnodup
      exact fun hmem => (List.nodup_append.1 hnodup).2.2 _ hmem _ List.mem_cons_self rfl
    have hstep := h.addBlock_eq_ok.2 ⟨hnew, rfl, rfl⟩
    obtain ⟨scope', q', hrun⟩ := ih (h.step hstep) (by rwa [List.append_assoc])
    exact ⟨scope', q', by rw [List.foldlM_cons, hstep]; exact hrun⟩

end Labelled

/-! ## Results -/

/-- The names of all results are given away before any name is made up. -/
theorem claimNames {f : FuncId} (hf : f < q.funcs.size) (names : List String) :
    q.LooksLike (names.foldl (·.claimName f ·) q) ∧
      ∀ n, n ∈ ((names.foldl (·.claimName f ·) q).func f).names ↔
        n ∈ names ∨ n ∈ (q.func f).names := by
  induction names generalizing q with
  | nil => exact ⟨.refl q, by simp⟩
  | cons name names ih =>
    have hlooks := Program.LooksLike.claimName q f name
    obtain ⟨h, hnames⟩ := ih (q := q.claimName f name) (hlooks.funcs_size ▸ hf)
    refine ⟨hlooks.trans h, fun n => ?_⟩
    rw [List.foldl_cons, hnames, Program.names_claimName hf, List.mem_cons, List.mem_cons]
    exact or_left_comm.trans or_assoc.symm

theorem resolveLabels_eq_ok {labels : Keyed BlockId} {l : Line} {form : Form Typed BlockId} :
    resolveLabels labels l = .ok form ↔
      (∀ n ∈ l.form.blocks, (labels.lookup n).isSome = true) ∧
        form = l.form.map id fun n => (labels.lookup n).getD 0 := by
  unfold resolveLabels
  split
  · next n hn =>
    refine iff_of_false nofun fun h => ?_
    have hknown := h.1 n (List.mem_of_find?_eq_some hn)
    have hunknown := List.find?_some hn
    rw [Option.isNone_iff_eq_none] at hunknown
    rw [hunknown] at hknown
    cases hknown
  · next hnone =>
    have hknown : ∀ n ∈ l.form.blocks, (labels.lookup n).isSome = true := fun n hn => by
      simpa [Option.isSome_iff_ne_none] using List.find?_eq_none.1 hnone n hn
    exact ⟨fun h => ⟨hknown, by cases h; rfl⟩, fun h => by rw [h.2]⟩

/-- The draft of a line of a block, made with these labels. -/
structure IsDraft (labels : Keyed BlockId) (x : BlockId × Line) (d : Draft) : Prop where
  block : d.block = x.1
  known : ∀ n ∈ x.2.form.blocks, (labels.lookup n).isSome = true
  form : d.form = x.2.form.map id fun n => (labels.lookup n).getD 0
  ty : d.ty = x.2.ty
  named : d.name.isSome = true ↔ x.2.ty ≠ .void
  given : ∀ n ∈ x.2.result, d.name = some n
  /-- A made-up name is a word. -/
  word : x.2.result = none → ∀ n ∈ d.name, IsName n

/-- What the results of lines stand for, the first being instruction `base`. -/
def resultValues (base : InstId) (lines : List (BlockId × Line)) : Keyed Value :=
  (lines.zipIdx base).filterMap fun x => x.1.2.result.map fun n => (n, .inst x.2)

theorem resultValues_append (base : InstId) (lines : List (BlockId × Line)) (x : BlockId × Line) :
    resultValues base (lines ++ [x]) = resultValues base lines ++
      (x.2.result.map fun n => (n, Value.inst (base + lines.length))).toList := by
  rw [resultValues, List.zipIdx_append, List.filterMap_append]
  cases h : x.2.result <;> simp [resultValues, h]

theorem keys_resultValues (base : InstId) (lines : List (BlockId × Line)) :
    (resultValues base lines).map (·.1) = lines.filterMap (·.2.result) := by
  have hcomp (x : (BlockId × Line) × InstId) :
      (x.1.2.result.map fun n => (n, Value.inst x.2)).map (·.1) = x.1.2.result := by
    rw [Option.map_map]
    exact Option.map_id'
  rw [resultValues, List.map_filterMap]
  simp only [hcomp]
  rw [show (fun x : (BlockId × Line) × InstId => x.1.2.result) = (·.2.result) ∘ Prod.fst from rfl,
    ← List.filterMap_map, List.zipIdx_map_fst]

/-- The lines `done` of function `f` have the drafts `ds`. Before them the scope was `start`, and
`results` are the results of all lines, those to come included. -/
structure Drafted (f : FuncId) (base : InstId) (start : Scope) (results : List String)
    (p : Program) (done : List (BlockId × Line)) (ds : List Draft) (scope : Scope)
    (q : Program) : Prop where
  looks : p.LooksLike q
  labels : scope.labels = start.labels
  values : scope.values = start.values ++ resultValues base done
  drafts : List.Forall₂ (IsDraft start.labels) done ds
  nodup : (start.values.map (·.1) ++ start.labels.map (·.1) ++ ds.filterMap (·.name)).Nodup
  claimed : ∀ n, n ∈ start.values.map (·.1) ++ start.labels.map (·.1) ∨ n ∈ results ∨
    n ∈ ds.filterMap (·.name) → n ∈ (q.func f).names
  /-- A name of a draft that is the result of some line is the result of one of these. -/
  given : ∀ n ∈ ds.filterMap (·.name), n ∈ results → n ∈ scope.values.map (·.1)

namespace Drafted

variable {f : FuncId} {base : InstId} {start : Scope} {results : List String}
  {lines : List (BlockId × Line)} {ds ds' : List Draft} {b : BlockId} {l : Line} {d : Draft}

/-- One more draft, with a name that is new, or none. -/
theorem extend {x : BlockId × Line} (h : Drafted f base start results p lines ds scope q)
    (hd : IsDraft start.labels x d) (hlooks : q.LooksLike q')
    (hlabels : scope'.labels = scope.labels)
    (hvalues : scope'.values = scope.values ++
      (x.2.result.map fun n => (n, Value.inst (base + ds.length))).toList)
    (hnew : ∀ n ∈ d.name, n ∉ start.values.map (·.1) ++ start.labels.map (·.1) ++
      ds.filterMap (·.name))
    (hnames : ∀ n, n ∈ d.name ∨ n ∈ (q.func f).names → n ∈ (q'.func f).names)
    (hgiven : ∀ n ∈ d.name, n ∈ results → n ∈ x.2.result) :
    Drafted f base start results p (lines ++ [x]) (ds ++ [d]) scope' q' := by
  have hmem {n : String} : n ∈ (ds ++ [d]).filterMap (·.name) ↔
      n ∈ ds.filterMap (·.name) ∨ n ∈ d.name := by
    rw [List.filterMap_append, List.mem_append]
    cases hn : d.name <;> simp [hn, eq_comm]
  refine ⟨h.looks.trans hlooks, hlabels.trans h.labels, ?_, List.rel_append h.drafts (.cons hd .nil),
    ?_, fun n hn => hnames n ?_, fun n hn hresult => ?_⟩
  · rw [hvalues, h.values, resultValues_append, h.drafts.length_eq, List.append_assoc]
  · rw [List.filterMap_append, ← List.append_assoc]
    cases hn : d.name with
    | none => simpa [hn] using h.nodup
    | some n =>
      rw [List.filterMap_cons_some hn]
      exact h.nodup.append (List.nodup_singleton n) (List.disjoint_singleton.2 (hnew n hn))
  · rcases hn with hn | hn | hn
    · exact .inr (h.claimed n (.inl hn))
    · exact .inr (h.claimed n (.inr (.inl hn)))
    · rcases hmem.1 hn with hn | hn
      · exact .inr (h.claimed n (.inr (.inr hn)))
      · exact .inl hn
  · rw [hvalues, List.map_append, List.mem_append]
    rcases hmem.1 hn with hn | hn
    · exact .inl (h.given n hn hresult)
    · have hx : x.2.result = some n := hgiven n hn hresult
      exact .inr (by simp [hx])

theorem step (h : Drafted f base start results p lines ds scope q) (hf : f < q.funcs.size)
    (hstep : draft f b (base + ds.length) scope q l = .ok (d, scope', q'))
    (hresult : ∀ n ∈ l.result, n ∈ results) :
    Drafted f base start results p (lines ++ [(b, l)]) (ds ++ [d]) scope' q' := by
  unfold draft at hstep
  rw [bind_eq_ok, h.labels] at hstep
  obtain ⟨form, hform, hstep⟩ := hstep
  obtain ⟨hknown, rfl⟩ := resolveLabels_eq_ok.1 hform
  dsimp only at hstep
  split at hstep
  · next n hn =>
    split at hstep
    · cases hstep
    next hfree =>
    rw [Bool.or_eq_true, not_or, Option.not_isSome_iff_eq_none, Option.not_isSome_iff_eq_none,
      Keyed.lookup_eq_none, Keyed.lookup_eq_none] at hfree
    split at hstep
    · cases hstep
    next hty =>
    cases hstep
    have hn' := hresult n hn
    refine h.extend ⟨rfl, hknown, rfl, rfl, by simpa [hn] using hty, fun _ h => h, by simp [hn]⟩
      (.refl q) h.labels.symm ?_ ?_ ?_ fun _ h _ => h
    · rw [Keyed.put_of_not_mem hfree.1, hn]
      rfl
    · rintro m hm hmem
      cases (Option.mem_unique hn hm : n = m)
      rcases List.mem_append.1 hmem with hmem | hmem
      · rcases List.mem_append.1 hmem with hmem | hmem
        · exact hfree.1 (by rw [h.values, List.map_append]; exact List.mem_append_left _ hmem)
        · exact hfree.2 hmem
      · exact hfree.1 (h.given n hmem hn')
    · rintro m (hm | hm)
      · exact h.claimed m (.inr (.inl (hresult m hm)))
      · exact hm
  · next hn =>
    split at hstep
    · next hty =>
      cases hstep
      exact h.extend ⟨rfl, hknown, rfl, rfl, by simp [hn, hty], by simp [hn], by simp [hn]⟩
        (.refl q) rfl (by simp [hn]) (by simp [hn]) (by simp [hn]) (by simp [hn])
    · next hty =>
      cases hstep
      have hnew := Program.firstUnused_not_mem (q.func f).names "t"
      refine h.extend ⟨rfl, hknown, rfl, rfl, by simpa using hty, by simp [hn], ?_⟩
        (.claimName ..) rfl (by simp [hn]) ?_ ?_ ?_
      · rintro - n ⟨⟩
        exact isName_firstUnused ⟨by decide, List.all_eq_true.1 rfl⟩ _
      · rintro n ⟨⟩ hmem
        exact hnew (h.claimed _ ((List.mem_append.1 hmem).imp_right .inr))
      · rintro n hn
        rw [Program.freshName, Program.names_claimName hf, List.mem_cons]
        exact hn.imp_left fun hn => (Option.some.inj hn).symm
      · rintro n ⟨⟩ hmem
        exact absurd (h.claimed _ (.inr (.inl hmem))) hnew

/-- All lines, one after the other. -/
theorem run {drafts : List Draft} {rest : List (BlockId × Line)}
    (h : Drafted f base start results p lines drafts.reverse scope q) (hf : f < q.funcs.size)
    (hrun : draftAll f base rest drafts scope q = .ok (ds, scope', q'))
    (hresults : ∀ x ∈ rest, ∀ n ∈ x.2.result, n ∈ results) :
    Drafted f base start results p (lines ++ rest) ds scope' q' := by
  induction rest generalizing lines drafts scope q with
  | nil =>
    cases hrun
    rwa [List.append_nil]
  | cons x rest ih =>
    obtain ⟨b, l⟩ := x
    rw [draftAll, bind_eq_ok] at hrun
    obtain ⟨⟨d, scope₁, q₁⟩, h₁, hrun⟩ := hrun
    rw [← List.length_reverse] at h₁
    have hstep := h.step hf h₁ (hresults _ List.mem_cons_self)
    rw [← List.reverse_cons] at hstep
    have hsize : f < q₁.funcs.size := by
      rw [hstep.looks.funcs_size, ← h.looks.funcs_size]
      exact hf
    have := ih hstep hsize hrun fun x hx => hresults x (List.mem_cons_of_mem _ hx)
    rwa [List.append_assoc] at this

/-- A line has a draft if its labels are known and its result is new and not void. -/
theorem step_ok (h : Drafted f base start results p lines ds scope q) (id : InstId)
    (hknown : ∀ n ∈ l.form.blocks, (start.labels.lookup n).isSome = true)
    (hnew : ∀ n ∈ l.result, n ∉ scope.values.map (·.1) ∧ n ∉ start.labels.map (·.1) ∧
      l.ty ≠ .void) : ∃ r, draft f b id scope q l = .ok r := by
  unfold draft
  rw [h.labels, resolveLabels_eq_ok.2 ⟨hknown, rfl⟩]
  cases hres : l.result with
  | none =>
    simp only [bind, Except.bind]
    split <;> exact ⟨_, rfl⟩
  | some n =>
    obtain ⟨hvalues, hlabels, hty⟩ := hnew n hres
    rw [← Keyed.lookup_eq_none] at hvalues hlabels
    simp [hvalues, hlabels, hty, bind, Except.bind, pure, Except.pure]

/-- All lines have drafts if the results are new, each but once, and the labels known. -/
theorem run_ok (drafts : List Draft) (rest : List (BlockId × Line))
    (h : Drafted f base start results p lines drafts.reverse scope q) (hf : f < q.funcs.size)
    (hknown : ∀ x ∈ rest, ∀ n ∈ x.2.form.blocks, (start.labels.lookup n).isSome = true)
    (hvoid : ∀ x ∈ rest, ∀ n ∈ x.2.result, n ∈ results ∧ x.2.ty ≠ .void)
    (hnodup : (start.values.map (·.1) ++ start.labels.map (·.1) ++
      (lines ++ rest).filterMap (·.2.result)).Nodup) :
    ∃ r, draftAll f base rest drafts scope q = .ok r := by
  induction rest generalizing lines drafts scope q with
  | nil => exact ⟨_, rfl⟩
  | cons x rest ih =>
    obtain ⟨b, l⟩ := x
    have hnew : ∀ n ∈ l.result, n ∉ scope.values.map (·.1) ∧ n ∉ start.labels.map (·.1) ∧
        l.ty ≠ .void := by
      intro n hn
      have hcons : ((b, l) :: rest).filterMap (·.2.result) = n :: rest.filterMap (·.2.result) :=
        List.filterMap_cons_some hn
      rw [List.filterMap_append, hcons, ← List.append_assoc, List.nodup_append] at hnodup
      have hfresh {m : String} (hm : m ∈ start.values.map (·.1) ++ start.labels.map (·.1) ++
          lines.filterMap (·.2.result)) : m ≠ n := hnodup.2.2 m hm n List.mem_cons_self
      refine ⟨fun hmem => ?_, fun hmem => hfresh ?_ rfl, (hvoid _ List.mem_cons_self n hn).2⟩
      · rw [h.values, List.map_append, keys_resultValues] at hmem
        refine hfresh ?_ rfl
        rcases List.mem_append.1 hmem with hmem | hmem
        · exact List.mem_append_left _ (List.mem_append_left _ hmem)
        · exact List.mem_append_right _ hmem
      · exact List.mem_append_left _ (List.mem_append_right _ hmem)
    obtain ⟨⟨d, scope₁, q₁⟩, h₁⟩ := h.step_ok (b := b) (base + drafts.length)
      (hknown _ List.mem_cons_self) hnew
    have h₁' := h₁
    rw [← List.length_reverse] at h₁'
    have hstep := h.step hf h₁' fun n hn => (hvoid _ List.mem_cons_self n hn).1
    rw [← List.reverse_cons] at hstep
    have hsize : f < q₁.funcs.size := by
      rw [hstep.looks.funcs_size, ← h.looks.funcs_size]
      exact hf
    obtain ⟨r, hr⟩ := ih _ hstep hsize (fun x hx => hknown x (List.mem_cons_of_mem _ hx))
      (fun x hx => hvoid x (List.mem_cons_of_mem _ hx))
      (by rw [List.append_assoc lines]; exact hnodup)
    refine ⟨r, ?_⟩
    rw [draftAll, h₁]
    exact hr

end Drafted

end Listing

end BoxFlow
