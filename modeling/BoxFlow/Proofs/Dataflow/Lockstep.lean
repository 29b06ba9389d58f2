import BoxFlow.Proofs.Dataflow.Least
import BoxFlow.Proofs.Dataflow.Renumbering

/-!
# Analyses in step

Two functions with the same blocks, in one of which several instructions, or none, may stand in the
place of an instruction of the other. If together they do what that one does, by other numbers, then
the analyses of the two functions make the same visits and come to the same facts
(`Analysis.Parallel.inStep_config`).
-/

namespace BoxFlow

/-- Does the value with this number come from outside the function? -/
def Classification.foreign (c : Classification) (id : Id) : Bool :=
  match c.arena.value? id with
  | some (.param _) | some (.global _) => true
  | _ => false

namespace Analysis

open View

variable {c d : Classification} {r : Renumbering} {p p' : Program} {f : FuncId}
  {seg : InstId → List InstId} {z z' a a' : Analysis} {b : BlockId} {i j : InstId} {k : Knowledge}
  {x m : Id} {E E' : Std.ExtTreeMap BlockId Facts} {o o' : Oracle}

/-! ## The start of a block -/

/-- A seed is described by `unknown` in the table of its class, if it comes from outside. -/
def Seeds (c : Classification) (k : ValueClass) (x : Id) : Prop :=
  c.foreign x = true ∧ c.classOfId x = k

theorem mem_seedId {k : ValueClass} (hk : k ≠ .irrelevant) (s : Facts) {y : Id}
    (hy : c.classOfId y ≠ .irrelevant) : m ∈ ((seedId c s y).tableOf k).get x ↔
      (y = x ∧ Seeds c k x) ∧ m = unknown ∨ ¬(y = x ∧ Seeds c k x) ∧ m ∈ (s.tableOf k).get x := by
  have hseed : seedId c s y = if c.foreign y = true then
      Facts.setTableOf { s with aliases := s.aliases.insert y {y} } (c.classOfId y) y {unknown}
      else { s with aliases := s.aliases.insert y {y} } := by
    unfold seedId Classification.foreign
    split <;> simp_all
  have haliases : Facts.tableOf { s with aliases := s.aliases.insert y {y} } k = s.tableOf k := by
    cases k <;> rfl
  by_cases hf : c.foreign y = true
  · rw [hseed, if_pos hf]
    by_cases hclass : c.classOfId y = k
    · -- The entry in the table of the class is the only one that changes.
      have hset : (Facts.setTableOf { s with aliases := s.aliases.insert y {y} } k y
          {unknown}).tableOf k = (s.tableOf k).insert y {unknown} := by
        cases k <;> rfl
      rw [hclass, hset, Table.get_insert]
      by_cases hyx : y = x
      · subst hyx
        rw [if_pos rfl, IdSet.mem_singleton]
        simp [Seeds, hf, hclass]
      · simp [hyx]
    · have hset : (Facts.setTableOf { s with aliases := s.aliases.insert y {y} } (c.classOfId y) y
          {unknown}).tableOf k = s.tableOf k := by
        cases k <;> cases hcy : c.classOfId y <;> first | rfl | simp_all
      have : ¬(y = x ∧ Seeds c k x) := fun h => hclass (h.1 ▸ h.2.2)
      rw [hset]
      simp [this]
  · rw [hseed, if_neg hf, haliases]
    have : ¬(y = x ∧ Seeds c k x) := fun h => hf (h.1 ▸ h.2.1)
    simp [this]

theorem mem_seed {k : ValueClass} (hk : k ≠ .irrelevant) :
    m ∈ (seed c).knowledge.tableOf k x ↔ Seeds c k x ∧ m = unknown := by
  have hfold (l : List Id) (hl : ∀ y ∈ l, c.classOfId y ≠ .irrelevant) (s : Facts) :
      m ∈ ((l.foldl (seedId c) s).tableOf k).get x ↔ (x ∈ l ∧ Seeds c k x) ∧ m = unknown ∨
        ¬(x ∈ l ∧ Seeds c k x) ∧ m ∈ (s.tableOf k).get x := by
    induction l generalizing s with
    | nil => simp
    | cons y l ih =>
      rw [List.foldl_cons, ih (fun y hy => hl y (List.mem_cons_of_mem _ hy)),
        mem_seedId hk s (hl y List.mem_cons_self), List.mem_cons]
      grind
  have hids {y : Id} : y ∈ c.classifiedIds ↔ c.classOfId y ≠ .irrelevant := by
    rw [Classification.classOfId_ne_irrelevant]
    simp [Classification.classifiedIds]
  have hempty : ((({} : Facts).tableOf k).get x) = ∅ := by
    cases k <;> exact Table.get_empty
  rw [Facts.mem_knowledge_tableOf, seed, hfold _ (fun y => hids.1), hids, hempty]
  constructor
  · rintro (⟨⟨-, hx⟩, hm⟩ | ⟨-, hm⟩)
    · exact ⟨hx, hm⟩
    · simp at hm
  · rintro ⟨hx, hm⟩
    exact .inl ⟨⟨by rw [hx.2]; exact hk, hx⟩, hm⟩

/-- What is known where control enters is the same by other numbers. -/
theorem knowledge_seed_renumber (hclass : ∀ x, d.classOfId (r.value x) = c.classOfId x)
    (hforeign : ∀ x, c.classOfId x ≠ .irrelevant → d.foreign (r.value x) = c.foreign x) :
    (seed d).knowledge = (seed c).knowledge.renumber r := by
  have hseeds {k : ValueClass} (hk : k ≠ .irrelevant) (x : Id) :
      Seeds d k x ↔ Seeds c k (r.value.symm x) := by
    obtain ⟨y, rfl⟩ := r.value.surjective x
    rw [Equiv.symm_apply_apply, Seeds, Seeds, hclass]
    refine and_congr_left fun hy => ?_
    rw [hforeign y (by rw [hy]; exact hk)]
  ext x m
  · rw [Knowledge.mem_renumber_defs]
    refine (mem_seed (k := .data) (by decide)).trans
      (Iff.trans ?_ (mem_seed (k := .data) (by decide)).symm)
    rw [hseeds (by decide), Renumbering.setter_symm_eq_unknown]
  · obtain ⟨y, rfl⟩ := r.value.surjective x
    rw [Knowledge.mem_renumber_aliases, Facts.mem_knowledge_aliases, Facts.mem_knowledge_aliases,
      seed_aliases, seed_aliases, hclass, Equiv.symm_apply_apply]
    split
    · rw [IdSet.mem_singleton, IdSet.mem_singleton, Equiv.symm_apply_eq]
    · simp
  · rw [Knowledge.mem_renumber_pointsTo]
    refine (mem_seed (k := .pointer) (by decide)).trans
      (Iff.trans ?_ (mem_seed (k := .pointer) (by decide)).symm)
    rw [hseeds (by decide), Renumbering.value_symm_eq_unknown]

/-- The same is known at the ends of the blocks, by other numbers. -/
def SameExits (r : Renumbering) (E E' : Std.ExtTreeMap BlockId Facts) : Prop :=
  ∀ b : BlockId, E'[b]?.map Facts.knowledge = E[b]?.map fun e : Facts => e.knowledge.renumber r

theorem SameExits.insert (hE : SameExits r E E') {e e' : Facts}
    (h : e'.knowledge = e.knowledge.renumber r) : SameExits r (E.insert b e) (E'.insert b e') := by
  intro d
  rw [Std.ExtTreeMap.getElem?_insert, Std.ExtTreeMap.getElem?_insert]
  split
  · exact congrArg some h
  · exact hE d

/-- The end of a block is news to both analyses or to none. -/
theorem SameExits.changes_eq (hE : SameExits r a.exits a'.exits) {e e' : Facts}
    (h : e'.knowledge = e.knowledge.renumber r) : a'.changes b e' = a.changes b e := by
  have hexit := hE b
  unfold changes
  cases hs : a.exits[b]? with
  | none =>
    rw [hs, Option.map_none, Option.map_eq_none_iff] at hexit
    rw [hexit]
  | some s =>
    rw [hs, Option.map_some, Option.map_eq_some_iff] at hexit
    obtain ⟨s', hs', heq⟩ := hexit
    rw [hs']
    dsimp only
    rw [Bool.eq_iff_iff, Bool.not_eq_true', Bool.not_eq_true', ← Bool.not_eq_true,
      ← Bool.not_eq_true, Facts.same_iff, Facts.same_iff, heq, h, Knowledge.renumber_inj]

theorem entry_renumber (hE : SameExits r z.exits z'.exits)
    (hpreds : z'.program.predecessorBlocks b = z.program.predecessorBlocks b)
    (hclass : ∀ x, z'.cls.classOfId (r.value x) = z.cls.classOfId x)
    (hforeign : ∀ x, z.cls.classOfId x ≠ .irrelevant →
      z'.cls.foreign (r.value x) = z.cls.foreign x) :
    (z'.entry b).knowledge = (z.entry b).knowledge.renumber r := by
  by_cases hne : z.program.predecessorBlocks b = []
  · rw [entry_eq_seed hne, entry_eq_seed (hpreds.trans hne)]
    exact knowledge_seed_renumber hclass hforeign
  · rw [knowledge_entry hne, knowledge_entry (hpreds ▸ hne), Knowledge.renumber_sUnion, hpreds]
    congr 1
    ext l
    constructor
    · rintro ⟨q, hq, hl⟩
      rw [hE q, Option.map_eq_some_iff] at hl
      obtain ⟨e, he, rfl⟩ := hl
      exact ⟨e.knowledge, ⟨q, hq, by rw [he]; rfl⟩, rfl⟩
    · rintro ⟨_, ⟨q, hq, hl⟩, rfl⟩
      obtain ⟨e, he, rfl⟩ := Option.map_eq_some_iff.1 hl
      exact ⟨q, hq, by rw [hE q, he]; rfl⟩

/-! ## Functions in parallel -/

/-- In `p'` the instructions `seg i` stand in the place of `i`, and they do by other numbers what it
does; those before the last of them do nothing. -/
structure Parallel (r : Renumbering) (p p' : Program) (f : FuncId) (seg : InstId → List InstId)
    (z z' : Analysis) : Prop where
  program : z.program = p
  program' : z'.program = p'
  func : (p'.func f).blocks = (p.func f).blocks
  block : ∀ b ∈ (p.func f).blocks,
    p'.block b = { p.block b with insts := (p.block b).insts.flatMap seg }
  classOfId : ∀ x, z'.cls.classOfId (r.value x) = z.cls.classOfId x
  foreign : ∀ x, z.cls.classOfId x ≠ .irrelevant → z'.cls.foreign (r.value x) = z.cls.foreign x
  effect : ∀ {E E'}, SameExits r E E' → ∀ i ∈ p.instructions f, ∀ k,
    (z'.withExits E').effects (seg i) (k.renumber r) = ((z.withExits E).effect i k).renumber r
  idle : ∀ E', ∀ i ∈ p.instructions f, ∀ pre j post, seg i = pre ++ j :: post → ∀ k,
    (z'.withExits E').effects pre k = k

/-- Two analyses have the same blocks to visit, and know the same by other numbers. -/
structure InStep (r : Renumbering) (p : Program) (f : FuncId) (seg : InstId → List InstId)
    (s s' : List BlockId × Analysis) : Prop where
  worklist : s'.1 = s.1
  exits : SameExits r s.2.exits s'.2.exits
  before : ∀ i ∈ p.instructions f, ∀ j ∈ seg i,
    s'.2.before[j]?.map Facts.knowledge = s.2.before[i]?.map fun e => e.knowledge.renumber r

namespace Parallel

variable (h : Parallel r p p' f seg z z')
include h

theorem effects_flatMap (hE : SameExits r E E') {is : List InstId}
    (his : ∀ i ∈ is, i ∈ p.instructions f) (k : Knowledge) :
    (z'.withExits E').effects (is.flatMap seg) (k.renumber r) =
      ((z.withExits E).effects is k).renumber r := by
  induction is generalizing k with
  | nil => rfl
  | cons i is ih =>
    rw [List.flatMap_cons, effects_append, h.effect hE i (his i List.mem_cons_self),
      ih fun j hj => his j (List.mem_cons_of_mem _ hj), effects_cons]

theorem roots_eq : roots p' f = roots p f := by
  rw [roots, roots, h.func]
  exact List.filter_congr fun b hb => by rw [h.block b hb]

theorem entry (hb : b ∈ (p.func f).blocks) (hE : SameExits r E E') :
    ((z'.withExits E').entry b).knowledge = ((z.withExits E).entry b).knowledge.renumber r := by
  have hexits : SameExits r (z.withExits E).exits (z'.withExits E').exits := hE
  refine entry_renumber hexits ?_ h.classOfId h.foreign
  show z'.program.predecessorBlocks b = z.program.predecessorBlocks b
  rw [h.program, h.program', Program.predecessorBlocks, h.block b hb]
  rfl

/-- What stands in the place of an instruction stands in its block. -/
theorem mem_insts (hp' : p'.Linked) (hi : i ∈ p.instructions f) (hj : j ∈ seg i)
    (hjb : j ∈ (p'.block b).insts) : i ∈ (p.block b).insts := by
  obtain ⟨e, he, hie⟩ := List.mem_flatMap.1 hi
  have hje : j ∈ (p'.block e).insts := by
    rw [h.block e he]
    exact List.mem_flatMap.2 ⟨i, hie, hj⟩
  obtain rfl : b = e := Option.some.inj ((hp'.held hjb).symm.trans (hp'.held hje))
  exact hie

/-- The effects up to an instruction are, by other numbers, those up to what stands in its place. -/
theorem effects_before (hE : SameExits r E E') (hb : b ∈ (p.func f).blocks) {pre post : List InstId}
    (hsplit : (p.block b).insts = pre ++ i :: post) (hj : j ∈ seg i) (k : Knowledge) :
    ∃ pre' post', (p'.block b).insts = pre' ++ j :: post' ∧
      (z'.withExits E').effects pre' (k.renumber r) =
        ((z.withExits E).effects pre k).renumber r := by
  have hmem {i} (hi : i ∈ (p.block b).insts) : i ∈ p.instructions f :=
    List.mem_flatMap.2 ⟨b, hb, hi⟩
  obtain ⟨front, back, hseg⟩ := List.append_of_mem hj
  refine ⟨pre.flatMap seg ++ front, back ++ post.flatMap seg, ?_, ?_⟩
  · rw [h.block b hb, hsplit, List.flatMap_append, List.flatMap_cons, hseg]
    simp
  · rw [effects_append, h.idle _ i (hmem (by rw [hsplit]; simp)) front j back hseg,
      h.effects_flatMap hE fun i hi => hmem (by rw [hsplit]; simp [hi])]

/-- A visit of the same block keeps two analyses in step. -/
theorem inStep_visit (hp : p.Linked) (hp' : p'.Linked) (hc : c.Numbered) (hd : d.Numbered)
    {w : List BlockId} (hrun : Run {o} p f c (b :: w) a) (hrun' : Run {o'} p' f d (b :: w) a')
    {t t' : Analysis × Facts}
    (hsteps : Steps {o} (p.block b).insts (a, a.entry b) t)
    (hsteps' : Steps {o'} (p'.block b).insts (a', a'.entry b) t')
    (hz : Grown [] t.1.toView z.toView) (hz' : Grown [] t'.1.toView z'.toView)
    (hs : InStep r p f seg (b :: w, a) (b :: w, a')) :
    InStep r p f seg
      (if a.changes b t.2 then enqueue w (p.successorBlocks b) else w, t.1.finish b t.2)
      (if a'.changes b t'.2 then enqueue w (p'.successorBlocks b) else w, t'.1.finish b t'.2) := by
  have hb : b ∈ (p.func f).blocks :=
    ((run_explored hrun).reachable b (.inr List.mem_cons_self)).mem_blocks hp
  have hinsts : (p'.block b).insts = (p.block b).insts.flatMap seg := by rw [h.block b hb]
  have hend : Steps {o} (p.block b).insts (a, a.entry b) (t.1, t.2) := hsteps
  have hend' : Steps {o'} (p'.block b).insts (a', a'.entry b) (t'.1, t'.2) := hsteps'
  obtain ⟨hout, hbefore⟩ := visit_effects hp hc hrun hend hz
  obtain ⟨hout', hbefore'⟩ := visit_effects hp' hd hrun' hend' hz'
  have hentry := h.entry hb hs.exits
  have hknow : t'.2.knowledge = t.2.knowledge.renumber r := by
    rw [hout, hout', hinsts, hentry, h.effects_flatMap hs.exits]
    exact fun i hi => List.mem_flatMap.2 ⟨b, hb, hi⟩
  refine ⟨?_, ?_, fun i hi j hj => ?_⟩
  · rw [hs.exits.changes_eq hknow, Program.successorBlocks, Program.successorBlocks, h.block b hb]
  · show SameExits r (t.1.exits.insert b t.2) (t'.1.exits.insert b t'.2)
    rw [(steps_extends hsteps).exits, (steps_extends hsteps').exits]
    exact hs.exits.insert hknow
  · show t'.1.before[j]?.map Facts.knowledge =
      t.1.before[i]?.map fun e : Facts => e.knowledge.renumber r
    by_cases hib : i ∈ (p.block b).insts
    · obtain ⟨pre, post, hsplit⟩ := List.append_of_mem hib
      obtain ⟨pre', post', hsplit', heffects⟩ :=
        h.effects_before hs.exits hb hsplit hj ((z.withExits a.exits).entry b).knowledge
      obtain ⟨s, hs₁, hks⟩ := hbefore pre i post hsplit
      obtain ⟨s', hs', hks'⟩ := hbefore' pre' j post' hsplit'
      rw [hs₁, hs', Option.map_some, Option.map_some, hks, hks', hentry, heffects]
    · have hjb : j ∉ (p'.block b).insts := fun hjb => hib (h.mem_insts hp' hi hj hjb)
      rw [((steps_recorded hsteps).1 i hib).1, ((steps_recorded hsteps').1 j hjb).1]
      exact hs.before i hi j hj

/-- Analyses of functions in parallel stay in step. -/
theorem inStep_config (hp : p.Linked) (hp' : p'.Linked) (hc : c.Numbered) (hd : d.Numbered)
    {N : Nat} (hz : ∀ n ≤ N, Grown [] (config p f o c n).2.toView z.toView)
    (hz' : ∀ n ≤ N, Grown [] (config p' f o' d n).2.toView z'.toView) :
    ∀ n ≤ N, InStep r p f seg (config p f o c n) (config p' f o' d n) := by
  intro n
  induction n with
  | zero =>
    refine fun _ => ⟨h.roots_eq, fun b => ?_, fun i _ j _ => ?_⟩ <;> simp [config, start]
  | succ n ih =>
    intro hn
    have hs := ih (Nat.le_of_succ_le hn)
    have hrun := run_config p f o c n
    have hrun' := run_config p' f o' d n
    have hgrown := hz (n + 1) hn
    have hgrown' := hz' (n + 1) hn
    rw [config_succ] at hgrown hgrown' ⊢
    rw [config_succ]
    generalize config p f o c n = s at hs hrun hgrown
    generalize config p' f o' d n = s' at hs hrun' hgrown'
    obtain ⟨w, a⟩ := s
    obtain ⟨w', a'⟩ := s'
    obtain rfl : w' = w := hs.worklist
    cases w' with
    | nil => exact hs
    | cons b w =>
      obtain ⟨u, out, hsteps, heq⟩ := advance_cons hrun
      obtain ⟨u', out', hsteps', heq'⟩ := advance_cons hrun'
      rw [heq] at hgrown ⊢
      rw [heq'] at hgrown' ⊢
      exact h.inStep_visit hp hp' hc hd hrun hrun' hsteps hsteps'
        ⟨hgrown.program, hgrown.oracle, hgrown.cls, hgrown.arena, by simp⟩
        ⟨hgrown'.program, hgrown'.oracle, hgrown'.cls, hgrown'.arena, by simp⟩ hs

end Parallel

end Analysis

end BoxFlow
