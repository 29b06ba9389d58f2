import BoxFlow.Pass
import BoxFlow.Proofs.Classification.Rules
import BoxFlow.Proofs.Dataflow.Kept
import BoxFlow.Proofs.Dataflow.Paths
import BoxFlow.Proofs.Escape
import BoxFlow.Proofs.Machine.Truth
import BoxFlow.Proofs.Pass
import BoxFlow.Proofs.Rewriting.Justified

/-!
# What opaque calls leave unknown

An opaque call may set the handles that it gets and put them into the cells that it gets. So
nothing is known of a handle that is loaded from such a cell (`Pass.unknown_mem_of_load`), unless it
is known again as what has been loaded from the cell and set since
(`Pass.not_unknown_mem_of_load_carried`). A handle that has been passed to a call stays unknown
until it is set (`Pass.unknown_mem_of_arg`); a later call that does not get it is not taken to set
it (`Pass.not_unknown_mem_of_arg_kept`).
-/

namespace BoxFlow

namespace Program

/-- The handle that an instruction sets, if it sets one. -/
def handleSet? (p : Program) (o : Options) (i : InstId) : Option Value :=
  match (p.inst i).op with
  | .call callee (handle :: _) => if (o.kindOf callee).definesFirst then some handle else none
  | _ => none

/-- On the way through `is` the handle `x` is neither set nor defined anew, unless it is loaded from
`pointer` once more. -/
def Lasts (p : Program) (o : Options) (is : List InstId) (pointer x : Value) : Prop :=
  ∀ i ∈ is, p.handleSet? o i ≠ some x ∧ (x = .inst i → (p.inst i).op = .load pointer)

instance (p : Program) (o : Options) (is : List InstId) (pointer x : Value) :
    Decidable (p.Lasts o is pointer x) :=
  inferInstanceAs (Decidable (∀ i ∈ is, _ ∧ _))

theorem not_store_of_all {p : Program} {is : List InstId}
    (h : (is.all fun i => (p.inst i).op.mnemonic ≠ "store") = true) :
    ∀ i ∈ is, ∀ value pointer, (p.inst i).op ≠ .store value pointer := by
  intro i hi value pointer hop
  have hi := List.all_eq_true.1 h i hi
  rw [hop] at hi
  cases hi

end Program

namespace Analysis

variable {p : Program} {o : Options} {f : FuncId} {a : Analysis} {i c l : InstId} {b : BlockId}
  {k k' : Knowledge} {x pointer : Value} {is : List InstId} {callee : String} {args : List Value}

section Settled

variable (hp : p.Linked) (ha : a.Settled p f (Classification.ofFunc p o f).1)
include ha

theorem Settled.visited_of_reachable (hb : Reachable p f b) (hi : i ∈ (p.block b).insts) :
    a.Visited i :=
  ⟨b, (ha.visited b).2 hb, by rwa [ha.program]⟩

include hp

theorem Settled.mem_instructions (hi : a.Visited i) : i ∈ p.instructions f := by
  obtain ⟨b, hb, hi⟩ := hi
  rw [ha.program] at hi
  exact List.mem_flatMap.2 ⟨b, ((ha.visited b).1 hb).mem_blocks hp, hi⟩

theorem Settled.kindOf (hi : a.Visited i) (hop : (p.inst i).op = .call callee args) :
    a.cls.kindOf i = o.kindOf callee :=
  ha.suited.kinds (ha.mem_instructions hp hi) hop

theorem Settled.effect_opaqueCall (hi : a.Visited i) (hop : (p.inst i).op = .call callee args)
    (hk : o.kindOf callee = .opaqueCall) : a.effect i k = a.opaqueEffect i k args :=
  View.effect_opaqueCall (by rw [ha.program, hop]) ((ha.kindOf hp hi hop).trans hk)

theorem Settled.handleSet (hi : a.Visited i) {handle : Value} (h : a.rule i = .set handle) :
    p.handleSet? o i = some handle := by
  obtain ⟨⟨callee, args, hop⟩, hdef, -⟩ := View.fits_of_rule h
  rw [ha.program] at hop
  rw [ha.kindOf hp hi hop] at hdef
  rw [Program.handleSet?, hop]
  exact if_pos hdef

omit hp in
theorem Settled.effect_load (hop : (p.inst i).op = .load pointer)
    (hptr : a.cls.classOf pointer = .pointer) : a.effect i k = a.loadEffect i k pointer :=
  View.effect_load (by rw [ha.program, hop]) hptr

/-- An instruction that neither sets a handle nor defines it anew does not make it known. -/
theorem Settled.unknown_kept (hi : a.Visited i) (hk : k.AliasWF a.cls)
    (hx : a.cls.classOf x ≠ .irrelevant) (hset : p.handleSet? o i ≠ some x)
    (hdef : x = .inst i → ∃ args, a.rule i = .call args) (h : unknown ∈ k.defs (a.idOf x)) :
    unknown ∈ (a.effect i k).defs (a.idOf x) := by
  refine View.unknown_mem_effect_defs hk h (fun handle hrule => ?_) ?_
  · refine View.idOf_ne hx ?_
    rintro rfl
    exact hset (ha.handleSet hp hi hrule)
  · by_cases hxi : x = .inst i
    · exact .inl (hdef hxi)
    · exact .inr (View.idOf_ne hx hxi)

/-! ## Cells -/

/-- What a load from the cell yields is not known: the cell holds something that is not tracked, and
what is loaded from it on the way lasts, or it holds a handle that lasts and of which nothing is
known. -/
inductive Unsure (a : Analysis) (o : Options) (is : List InstId) (pointer : Value)
    (k : Knowledge) : Prop
  | untracked : (∀ i ∈ is, (a.program.inst i).op = .load pointer →
      a.program.Lasts o is pointer (.inst i)) → unknown ∈ k.pointsTo (a.idOf pointer) →
    Unsure a o is pointer k
  | handle {x : Value} : a.program.Lasts o is pointer x → a.cls.classOf x = .data →
    a.idOf x ∈ k.pointsTo (a.idOf pointer) → unknown ∈ k.defs (a.idOf x) → Unsure a o is pointer k

omit ha hp in
theorem Unsure.mono (hk : k ≤ k') (h : Unsure a o is pointer k) : Unsure a o is pointer k' := by
  cases h with
  | untracked hlast hmem => exact .untracked hlast (hk.2.2 _ hmem)
  | handle hlast hx hmem hdefs => exact .handle hlast hx (hk.2.2 _ hmem) (hk.1 _ hdefs)

omit ha hp in
theorem Unsure.loaded (h : Unsure a o is pointer k) :
    unknown ∈ a.loaded k .data (k.pointsTo (a.idOf pointer)) := by
  cases h with
  | untracked _ hmem => exact .inl ⟨rfl, hmem⟩
  | @handle x _ hx hmem hdefs =>
    refine .inr ⟨_, hmem, View.idOf_ne_unknown _ _, ?_, hdefs⟩
    rw [View.idOf, Classification.classOfId_idOf (by simp [hx]), hx]

omit hp in
/-- The cell holds what has been loaded from it, of which nothing is known. -/
theorem Settled.unsure_of_load (hk : k.AliasWF a.cls) (hptr : a.cls.classOf pointer = .pointer)
    (hop : (p.inst i).op = .load pointer) (hclass : a.cls.classOf (.inst i) = .data)
    (hlast : a.program.Lasts o is pointer (.inst i)) (h : Unsure a o is pointer k) :
    Unsure a o is pointer (a.effect i k) := by
  rw [ha.effect_load hop hptr]
  refine .handle hlast hclass (View.idOf_mem_loadEffect_pointsTo hk hptr) ?_
  rw [View.loadEffect_defs_self hclass]
  exact h.loaded

theorem Settled.unsure_kept (hi : a.Visited i) (hmem : i ∈ is) (hk : k.AliasWF a.cls)
    (hptr : a.cls.classOf pointer = .pointer)
    (hstore : ∀ value pointer, (p.inst i).op ≠ .store value pointer) (hdef : pointer ≠ .inst i)
    (hload : (p.inst i).op = .load pointer → a.cls.classOf (.inst i) = .data)
    (h : Unsure a o is pointer k) : Unsure a o is pointer (a.effect i k) := by
  have hne : a.idOf pointer ≠ a.idOf (.inst i) := View.idOf_ne (by simp [hptr]) hdef
  have hkeeps : ∀ value pointer, a.rule i ≠ .store value pointer := by
    intro value pointer hrule
    exact hstore _ _ (ha.program ▸ (View.fits_of_rule hrule).1)
  have hresult (hop : (p.inst i).op = .load pointer)
      (hlast : a.program.Lasts o is pointer (.inst i)) : Unsure a o is pointer (a.effect i k) :=
    ha.unsure_of_load hk hptr hop (hload hop) hlast h
  cases h with
  | @handle x hlast hx hxmem hdefs =>
    have hxi := hlast i hmem
    rw [ha.program] at hxi
    by_cases hself : x = .inst i
    · -- The handle is loaded from the cell once more.
      exact hresult (hxi.2 hself) (hself ▸ hlast)
    · refine .handle hlast hx ?_ ?_
      · exact View.mem_effect_pointsTo hxmem hne hkeeps
          fun _ _ hu => absurd hu (View.idOf_ne_unknown _ _)
      · exact ha.unknown_kept hp hi hk (by simp [hx]) hxi.1 (fun h => absurd h hself) hdefs
  | untracked hlast hu =>
    by_cases hop : (p.inst i).op = .load pointer
    · exact hresult hop (hlast i hmem (by rw [ha.program]; exact hop))
    · refine .untracked hlast (View.mem_effect_pointsTo hu hne hkeeps fun q hrule _ => ?_)
      refine View.idOf_ne (by simp [hptr]) ?_
      rintro rfl
      exact hop (ha.program ▸ (View.fits_of_rule hrule).1)

/-- The call leaves a cell that it gets unsure, if it gets something that lasts. -/
theorem Settled.unsure_of_call (hc : a.Visited c) (hop : (p.inst c).op = .call callee args)
    (hk : o.kindOf callee = .opaqueCall) (hmod : ∀ id, a.mayModify c id = true)
    (hx : pointer ∈ args) (hptr : a.cls.classOf pointer = .pointer)
    (hlast : (∃ x, a.cls.classOf x = .data ∧ a.idOf x ∈ a.dataArgs args (a.factsBefore c) ∧
        p.Lasts o is pointer x) ∨
      unknown ∈ a.dataArgs args (a.factsBefore c) ∧
        ∀ i ∈ is, (p.inst i).op = .load pointer → p.Lasts o is pointer (.inst i)) :
    Unsure a o is pointer (a.factsAfter c).knowledge := by
  obtain ⟨hwf, hafter⟩ := ha.effect hc
  have heffect : (a.factsAfter c).knowledge =
      a.opaqueEffect c (a.factsBefore c).knowledge args := by
    rw [hafter, ha.effect_opaqueCall hp hc hop hk]
  rw [heffect]
  rw [← ha.program] at hlast
  rcases hlast with ⟨x, hclass, hmem, hlast⟩ | ⟨hu, hlast⟩
  · have hmem := View.mem_dataArgs.1 hmem
    refine .handle hlast hclass
      (View.mem_opaqueEffect_pointsTo hwf hx hptr (hmod _) hmem) ?_
    refine View.unknown_mem_of_modified ⟨hmem, View.idOf_ne_unknown _ _, hmod _⟩ (hwf.refl ?_)
    rw [View.idOf, Classification.classOfId_idOf (by simp [hclass]), hclass]
    decide
  · exact .untracked hlast
      (View.mem_opaqueEffect_pointsTo hwf hx hptr (hmod _) (View.mem_dataArgs.1 hu))

end Settled

end Analysis

namespace Pass

open Analysis

variable {p : Program} {o : Options} {f : FuncId} {kind : OracleKind} {b : BlockId}
  {c d l : InstId} {is : List InstId} {callee callee' : String} {args args' : List Value}
  {pointer x : Value}

theorem settled_of_converged (hp : p.Linked) (hv : p.verify f = [])
    (hconv : (analyze p o kind f).1.converged = true) :
    (analyze p o kind f).1.Settled p f (Classification.ofFunc p o f).1 ∧
      (analyze p o kind f).1.oracle = (oracleFor p o kind f).1 := by
  have hrun := run_of_converged hconv
  exact ⟨run_settled hp hv (Classification.ofFunc_numbered p o f) hrun, run_oracle hrun⟩

/-! ## Loading after a call -/

/-- Nothing is known of a handle, and it is no constant, that is loaded from a cell after an opaque
call has got the cell, if the cell is not filled in between, nor the pointer defined anew, and the
call gets a handle that lasts, or something that is not tracked and what is loaded from the cell in
between lasts. -/
theorem unknown_mem_of_load (hp : p.Linked) (hv : p.verify f = [])
    (hconv : (analyze p o .conservative f).1.converged = true) (hb : Reachable p f b)
    (hc : c ∈ (p.block b).insts) (hcop : (p.inst c).op = .call callee args)
    (hkind : o.kindOf callee = .opaqueCall) (hx : pointer ∈ args)
    (hptr : (analyze p o .conservative f).1.cls.classOf pointer = .pointer)
    (hway : p.Way c is l) (hlop : (p.inst l).op = .load pointer)
    (hclass : (analyze p o .conservative f).1.cls.classOf (.inst l) = .data)
    (hstore : ∀ i ∈ is, ∀ value q, (p.inst i).op ≠ .store value q)
    (hdef : ∀ i ∈ is, pointer ≠ .inst i)
    (hlast : (∃ x, (analyze p o .conservative f).1.cls.classOf x = .data ∧
        (analyze p o .conservative f).1.idOf x ∈ (analyze p o .conservative f).1.dataArgs args
          ((analyze p o .conservative f).1.factsBefore c) ∧ p.Lasts o is pointer x) ∨
      unknown ∈ (analyze p o .conservative f).1.dataArgs args
          ((analyze p o .conservative f).1.factsBefore c) ∧
        ∀ i ∈ is, (p.inst i).op = .load pointer → p.Lasts o is pointer (.inst i)) :
    unknown ∈ (analyze p o .conservative f).1.idsIn
        ((analyze p o .conservative f).1.factsAfter l).defs (.inst l) ∧
      ∀ n, p.Next l n → ∀ r : Rewriter, r.analysis = (analyze p o .conservative f).1 →
        r.constantOf p n (.inst l) = none := by
  obtain ⟨ha, ho⟩ := settled_of_converged hp hv hconv
  generalize (analyze p o .conservative f).1 = a at *
  have hmod (id : Id) : a.mayModify c id = true := by
    rw [View.mayModify, ho]
    cases a.cls.arena.value? id <;> rfl
  have hcvis := ha.visited_of_reachable hb hc
  have hlvis := ha.visited_of_way hp hway hcvis
  have hkeep : ∀ i ∈ is, a.Visited i → ∀ k, k.AliasWF a.cls → Unsure a o is pointer k →
      Unsure a o is pointer (a.effect i k) := by
    intro i hi hvis k hk h
    refine ha.unsure_kept hp hvis hi hk hptr (hstore i hi) (hdef i hi) (fun hop => ?_) h
    have hclassOf := ha.classOf (Classification.ofFunc_numbered p o f)
    rw [hclassOf] at hclass hptr ⊢
    exact Classification.classOf_load (ha.mem_instructions hp hlvis) (ha.mem_instructions hp hvis)
      hlop hop hptr hclass
  obtain ⟨-, hbefore⟩ := ha.along hp (fun hk h => h.mono hk) hway hcvis hkeep
    (ha.unsure_of_call hp hcvis hcop hkind hmod hx hptr hlast)
  obtain ⟨hwf, hafter⟩ := ha.effect hlvis
  have hunknown : unknown ∈ (a.factsAfter l).knowledge.defs (a.idOf (.inst l)) := by
    rw [hafter, ha.effect_load hlop hptr, View.loadEffect_defs_self hclass]
    exact hbefore.loaded
  refine ⟨(mem_idsIn (by simp [hclass])).2 hunknown, fun n hn r hr => ?_⟩
  apply Rewriter.constantOf_of_unknown
  rw [hr]
  exact (mem_idsIn (by simp [hclass])).2 ((ha.next hp hn hlvis).2.1 _ hunknown)

/-- A cell with a handle is passed to a call, and the handle is set in between as what has been
loaded from the cell. -/
def heldText : String :=
  "define void @f(i1 %c)\x7be:%a=call ptr @create(i64 1)%p=alloca ptr store ptr %a,ptr %p " ++
  "call void @g(ptr %p)br i1 %c,label %t,label %j t:%l=load ptr,ptr %p " ++
  "call void @write(ptr %l,i64 5)br label %j j:%b=load ptr,ptr %p ret void\x7d"

theorem unknown_mem_of_load_held : ∃ p, Program.load heldText.toList = .ok p ∧ p.Linked ∧
    p.verify 0 = [] ∧ Reachable p 0 0 ∧ p.Way 3 [4, 5, 6, 7] 8 ∧
    unknown ∈ (analyze p {} .conservative 0).1.idsIn
      ((analyze p {} .conservative 0).1.factsAfter 8).defs (.inst 8) := by
  obtain ⟨p, hload, hp, hv, hconv, hentry, hblocks, hcop, hlop, hptr, hclass, hstore, hhandle,
      hgets, hlast⟩ :=
    Program.exists_load (s := heldText.toList) (P := fun p =>
      p.verify 0 = [] ∧ (analyze p {} .conservative 0).1.converged = true ∧ p.entry? 0 = some 0 ∧
      ([0, 1, 2].map fun b => ((p.block b).insts, p.successorBlocks b)) =
        [([0, 1, 2, 3, 4], [1, 2]), ([5, 6, 7], [2]), ([8, 9], [])] ∧
      (p.inst 3).op = .call "g" [.inst 1] ∧ (p.inst 8).op = .load (.inst 1) ∧
      (analyze p {} .conservative 0).1.cls.classOf (.inst 1) = .pointer ∧
      (analyze p {} .conservative 0).1.cls.classOf (.inst 8) = .data ∧
      ([4, 5, 6, 7].all fun i => (p.inst i).op.mnemonic ≠ "store") = true ∧
      (analyze p {} .conservative 0).1.cls.classOf (.inst 0) = .data ∧
      (analyze p {} .conservative 0).1.idOf (.inst 0) ∈
        (analyze p {} .conservative 0).1.dataArgs [.inst 1]
          ((analyze p {} .conservative 0).1.factsBefore 3) ∧
      p.Lasts {} [4, 5, 6, 7] (.inst 1) (.inst 0))
      (by decide +kernel)
  simp only [List.map_cons, List.map_nil, List.cons.injEq, Prod.mk.injEq] at hblocks
  obtain ⟨⟨he, het⟩, ⟨ht, htj⟩, ⟨hj, -⟩, -⟩ := hblocks
  have hway : p.Way 3 [4, 5, 6, 7] 8 :=
    .step (.within (l := [0, 1, 2]) (r := []) he) <|
    .step (.across (l := [0, 1, 2, 3]) (d := 1) he (by simp [het]) ht) <|
    .step (.within (l := []) ht) <|
    .step (.within (l := [5]) (r := []) ht) <|
    .next (.across (l := [5, 6]) (d := 2) ht (by simp [htj]) hj)
  have hb : Reachable p 0 0 := reachable_entry hv hentry
  exact ⟨p, hload, hp, hv, hb, hway,
    (unknown_mem_of_load hp hv hconv hb (by rw [he]; decide) hcop rfl (by decide) hptr hway hlop
      hclass (Program.not_store_of_all hstore) (by decide)
      (.inl ⟨.inst 0, hhandle, hgets, hlast⟩)).1⟩

/-- What is loaded from a cell after a call has got the cell is set, and loaded once more. -/
def carriedText : String :=
  "define i64 @f(ptr %p)\x7be:call void @g(ptr %p)%l=load ptr,ptr %p " ++
  "call void @write(ptr %l,i64 5)%b=load ptr,ptr %p " ++
  "%x=call i64 @read(ptr %b)ret i64 %x\x7d"

/-- The loaded value stands for whatever the cell held, so setting it makes it known. -/
theorem not_unknown_mem_of_load_carried : ∃ p pointer, Program.load carriedText.toList = .ok p ∧
    p.Linked ∧ p.verify 0 = [] ∧ (analyze p {} .conservative 0).1.converged = true ∧
    Reachable p 0 0 ∧ 0 ∈ (p.block 0).insts ∧ (p.inst 0).op = .call "g" [pointer] ∧
    (analyze p {} .conservative 0).1.cls.classOf pointer = .pointer ∧ p.Way 0 [1, 2] 3 ∧
    (∀ i ∈ [1, 2], ∀ x y, (p.inst i).op ≠ .store x y) ∧ (∀ i ∈ [1, 2], pointer ≠ .inst i) ∧
    (p.inst 3).op = .load pointer ∧
    (analyze p {} .conservative 0).1.cls.classOf (.inst 3) = .data ∧
    unknown ∉ (analyze p {} .conservative 0).1.idsIn
      ((analyze p {} .conservative 0).1.factsAfter 3).defs (.inst 3) ∧
    Rewriter.constantOf
      { analysis := (analyze p {} .conservative 0).1, names := ({} : Options).names }
      p 4 (.inst 3) = some 5 := by
  obtain ⟨p, hload, hp, hv, hconv, hentry, hinsts, ⟨pointer, hpointer, hcop, hptr, hlop⟩, hstore,
      hclass, hdefs, hconst⟩ :=
    Program.exists_load (s := carriedText.toList) (P := fun p =>
      p.verify 0 = [] ∧ (analyze p {} .conservative 0).1.converged = true ∧ p.entry? 0 = some 0 ∧
      (p.block 0).insts = [0, 1, 2, 3, 4, 5] ∧ (∃ pointer ∈ p.params 0,
        (p.inst 0).op = .call "g" [pointer] ∧
        (analyze p {} .conservative 0).1.cls.classOf pointer = .pointer ∧
        (p.inst 3).op = .load pointer) ∧
      ([1, 2].all fun i => (p.inst i).op.mnemonic ≠ "store") = true ∧
      (analyze p {} .conservative 0).1.cls.classOf (.inst 3) = .data ∧
      unknown ∉ (analyze p {} .conservative 0).1.idsIn
        ((analyze p {} .conservative 0).1.factsAfter 3).defs (.inst 3) ∧
      Rewriter.constantOf
        { analysis := (analyze p {} .conservative 0).1, names := ({} : Options).names }
        p 4 (.inst 3) = some 5)
      (by decide +kernel)
  have hway : p.Way 0 [1, 2] 3 :=
    .step (.within (l := []) hinsts) <|
    .step (.within (l := [0]) hinsts) <|
    .next (.within (l := [0, 1]) hinsts)
  have hparam : ∀ i, pointer ≠ .inst i := by
    rintro i rfl
    simp [Program.params, List.mem_mapIdx] at hpointer
  exact ⟨p, pointer, hload, hp, hv, hconv, reachable_entry hv hentry, by rw [hinsts]; decide, hcop,
    hptr, hway, Program.not_store_of_all hstore, fun i _ => hparam i, hlop,
    hclass, hdefs, hconst⟩

/-! ## Handles that have been given away -/

/-- The oracles let an opaque call set the handles that it is passed. -/
theorem mayModify_of_arg (hp : p.Linked) (hv : p.verify f = [])
    (hconv : (analyze p o kind f).1.converged = true) (hc : c ∈ p.instructions f)
    (hcop : (p.inst c).op = .call callee args) (hkind : o.kindOf callee = .opaqueCall)
    (hreadonly : callee ∉ o.readonlyCallees) (hx : x ∈ args)
    (hclass : (analyze p o kind f).1.cls.classOf x = .data)
    (horigin : kind = .escape → Escape.origins p o x ≠ []) :
    (analyze p o kind f).1.mayModify c ((analyze p o kind f).1.idOf x) = true := by
  obtain ⟨-, ho⟩ := settled_of_converged hp hv hconv
  generalize (analyze p o kind f).1 = a at *
  have hvalue : a.cls.arena.value? (a.idOf x) = some x := by
    obtain ⟨h0, hget⟩ := Arena.find_eq_some_iff.1
      (Classification.find_of_classOf (c := a.cls) (x := x) (by simp [hclass]))
    exact (if_pos h0).trans hget
  rw [View.mayModify, hvalue, Option.elim_some, ho]
  cases kind with
  | conservative => rfl
  | escape =>
    exact Escape.oracle_of_escapes hcop hreadonly
      (Escape.escapes_of_mem (Escape.mem_of_arg hc hcop hkind hx) (horigin rfl))
      (a.program.locationSize x)

/-- Nothing is known of a handle after an opaque call if it has been passed to one before, and it
has not been set since or the later call gets it once more, perhaps as another value. -/
theorem unknown_mem_of_arg (hp : p.Linked) (hv : p.verify f = [])
    (hconv : (analyze p o kind f).1.converged = true) (hb : Reachable p f b)
    (hc : c ∈ (p.block b).insts) (hcop : (p.inst c).op = .call callee args)
    (hkind : o.kindOf callee = .opaqueCall) (hreadonly : callee ∉ o.readonlyCallees)
    (hx : x ∈ args) (hclass : (analyze p o kind f).1.cls.classOf x = .data)
    (horigin : kind = .escape → Escape.origins p o x ≠ []) (hway : p.Way c is d)
    (hdop : (p.inst d).op = .call callee' args') (hkind' : o.kindOf callee' = .opaqueCall)
    (hdef : ∀ i ∈ is, x ≠ .inst i)
    (hset : (∀ i ∈ is, p.handleSet? o i ≠ some x) ∨
      ∃ j ∈ (analyze p o kind f).1.dataArgs args' ((analyze p o kind f).1.factsBefore d),
        j ≠ unknown ∧ (analyze p o kind f).1.mayModify d j = true ∧
        (analyze p o kind f).1.idOf x ∈ ((analyze p o kind f).1.factsBefore d).aliases.get j) :
    unknown ∈ (analyze p o kind f).1.idsIn
      ((analyze p o kind f).1.factsAfter d).defs x := by
  obtain ⟨ha, -⟩ := settled_of_converged hp hv hconv
  have hcvis := ha.visited_of_reachable hb hc
  have hmod := mayModify_of_arg hp hv hconv (ha.mem_instructions hp hcvis) hcop hkind hreadonly hx
    hclass horigin
  generalize (analyze p o kind f).1 = a at *
  have hdvis := ha.visited_of_way hp hway hcvis
  have hne : a.cls.classOf x ≠ .irrelevant := by simp [hclass]
  obtain ⟨hwf, hafter⟩ := ha.effect hdvis
  rw [ha.effect_opaqueCall hp hdvis hdop hkind'] at hafter
  rw [mem_idsIn hne, ← Facts.mem_knowledge_defs, hafter]
  rcases hset with hset | ⟨j, hj, hu, hmod', hal⟩
  · -- What the first call has left unknown stays so.
    obtain ⟨hwfc, hafterc⟩ := ha.effect hcvis
    rw [ha.effect_opaqueCall hp hcvis hcop hkind] at hafterc
    have hgiven : unknown ∈ (a.factsAfter c).knowledge.defs (a.idOf x) := by
      rw [hafterc]
      have hmem : a.idOf x ∈ a.modified c (a.factsBefore c).knowledge args :=
        ⟨⟨x, hx, .inl ⟨hclass, rfl⟩⟩, View.idOf_ne_unknown _ _, hmod⟩
      refine View.unknown_mem_of_modified hmem (hwfc.refl ?_)
      rw [View.classOfId_of_mem_modified hmem]
      decide
    have hkeep : ∀ i ∈ is, a.Visited i → ∀ k, k.AliasWF a.cls → unknown ∈ k.defs (a.idOf x) →
        unknown ∈ (a.effect i k).defs (a.idOf x) := fun i hi hvis k hk h =>
      ha.unknown_kept hp hvis hk hne (hset i hi) (fun h => absurd h (hdef i hi)) h
    exact View.unknown_mem_opaqueEffect hwf
      (ha.along hp (fun hk h => hk.1 _ h) hway hcvis hkeep hgiven).2
  · exact View.unknown_mem_of_modified ⟨View.mem_dataArgs.1 hj, hu, hmod'⟩ hal

/-- A handle is passed to a call, and another one is set before the next call. -/
def givenText : String :=
  "define i64 @f()\x7be:%a=call ptr @create(i64 1)%d=call ptr @create(i64 2)" ++
  "call void @g(ptr %a)call void @write(ptr %d,i64 5)call void @h()" ++
  "%x=call i64 @read(ptr %a)ret i64 %x\x7d"

theorem unknown_mem_of_arg_given : ∃ p, Program.load givenText.toList = .ok p ∧ p.Linked ∧
    p.verify 0 = [] ∧ Reachable p 0 0 ∧ p.Way 2 [3] 4 ∧
    unknown ∈ (analyze p {} .escape 0).1.idsIn
      ((analyze p {} .escape 0).1.factsAfter 4).defs (.inst 0) := by
  obtain ⟨p, hload, hp, hv, hconv, hentry, hinsts, hcop, hdop, hclass, horigin, hset⟩ :=
    Program.exists_load (s := givenText.toList) (P := fun p =>
      p.verify 0 = [] ∧ (analyze p {} .escape 0).1.converged = true ∧ p.entry? 0 = some 0 ∧
      (p.block 0).insts = [0, 1, 2, 3, 4, 5, 6] ∧ (p.inst 2).op = .call "g" [.inst 0] ∧
      (p.inst 4).op = .call "h" [] ∧ (analyze p {} .escape 0).1.cls.classOf (.inst 0) = .data ∧
      Escape.origins p {} (.inst 0) ≠ [] ∧ p.handleSet? {} 3 ≠ some (.inst 0))
      (by decide +kernel)
  have hway : p.Way 2 [3] 4 :=
    .step (.within (l := [0, 1]) hinsts) <| .next (.within (l := [0, 1, 2]) hinsts)
  have hb : Reachable p 0 0 := reachable_entry hv hentry
  exact ⟨p, hload, hp, hv, hb, hway,
    unknown_mem_of_arg hp hv hconv hb (by rw [hinsts]; decide) hcop rfl (by decide) (by decide)
      hclass (fun _ => horigin) hway hdop rfl (by decide) (.inl (by simpa using hset))⟩

/-- A handle is passed to a call, set, and not passed to the next call. -/
def keptText : String :=
  "define i64 @f()\x7be:%a=call ptr @create(i64 1)call void @g(ptr %a)" ++
  "call void @write(ptr %a,i64 5)call void @h()%x=call i64 @read(ptr %a)ret i64 %x\x7d"

/-- A call is taken to set what it gets, not what an earlier call may have kept. -/
theorem not_unknown_mem_of_arg_kept : ∃ p, Program.load keptText.toList = .ok p ∧ p.Linked ∧
    p.verify 0 = [] ∧ Reachable p 0 0 ∧ 1 ∈ (p.block 0).insts ∧
    (p.inst 1).op = .call "g" [.inst 0] ∧ p.Way 1 [2] 3 ∧ (p.inst 3).op = .call "h" [] ∧
    ∀ kind, (analyze p {} kind 0).1.converged = true ∧
      (analyze p {} kind 0).1.cls.classOf (.inst 0) = .data ∧
      unknown ∉ (analyze p {} kind 0).1.idsIn
        ((analyze p {} kind 0).1.factsAfter 3).defs (.inst 0) := by
  obtain ⟨p, hload, hp, hv, hentry, hinsts, hcop, hdop, hescape, hconservative⟩ :=
    Program.exists_load (s := keptText.toList) (P := fun p =>
      p.verify 0 = [] ∧ p.entry? 0 = some 0 ∧ (p.block 0).insts = [0, 1, 2, 3, 4, 5] ∧
      (p.inst 1).op = .call "g" [.inst 0] ∧ (p.inst 3).op = .call "h" [] ∧
      ((analyze p {} .escape 0).1.converged = true ∧
        (analyze p {} .escape 0).1.cls.classOf (.inst 0) = .data ∧
        unknown ∉ (analyze p {} .escape 0).1.idsIn
          ((analyze p {} .escape 0).1.factsAfter 3).defs (.inst 0)) ∧
      (analyze p {} .conservative 0).1.converged = true ∧
      (analyze p {} .conservative 0).1.cls.classOf (.inst 0) = .data ∧
      unknown ∉ (analyze p {} .conservative 0).1.idsIn
        ((analyze p {} .conservative 0).1.factsAfter 3).defs (.inst 0))
      (by decide +kernel)
  have hway : p.Way 1 [2] 3 :=
    .step (.within (l := [0]) hinsts) <| .next (.within (l := [0, 1]) hinsts)
  refine ⟨p, hload, hp, hv, reachable_entry hv hentry, by rw [hinsts]; decide, hcop, hway, hdop,
    fun kind => ?_⟩
  cases kind with
  | escape => exact hescape
  | conservative => exact hconservative

/-- A phi that takes nothing but itself is passed to two calls. -/
def idleText : String :=
  "define void @f()\x7be:br label %h h:%v=phi ptr[%v,%e],[%v,%h]%x=call i64 @read(ptr %v)" ++
  "call void @g(ptr %v)call void @h()br label %h\x7d"

/-- What has no origin never escapes. -/
theorem not_unknown_mem_of_arg_idle : ∃ p, Program.load idleText.toList = .ok p ∧
    p.verify 0 = [] ∧ (analyze p {} .escape 0).1.converged = true ∧
    (analyze p {} .escape 0).1.cls.classOf (.inst 1) = .data ∧ Escape.origins p {} (.inst 1) = [] ∧
    (p.inst 3).op = .call "g" [.inst 1] ∧ (p.inst 4).op = .call "h" [] ∧ p.Way 3 [] 4 ∧
    unknown ∉ (analyze p {} .escape 0).1.idsIn
      ((analyze p {} .escape 0).1.factsAfter 4).defs (.inst 1) := by
  obtain ⟨p, hload, -, hv, hconv, hclass, horigin, hcop, hdop, hinsts, hdefs⟩ :=
    Program.exists_load (s := idleText.toList) (P := fun p =>
      p.verify 0 = [] ∧ (analyze p {} .escape 0).1.converged = true ∧
      (analyze p {} .escape 0).1.cls.classOf (.inst 1) = .data ∧
      Escape.origins p {} (.inst 1) = [] ∧ (p.inst 3).op = .call "g" [.inst 1] ∧
      (p.inst 4).op = .call "h" [] ∧ (p.block 1).insts = [1, 2, 3, 4, 5] ∧
      unknown ∉ (analyze p {} .escape 0).1.idsIn
        ((analyze p {} .escape 0).1.factsAfter 4).defs (.inst 1))
      (by decide +kernel)
  exact ⟨p, hload, hv, hconv, hclass, horigin, hcop, hdop, .next (.within (l := [1, 2]) hinsts),
    hdefs⟩

end Pass

end BoxFlow
