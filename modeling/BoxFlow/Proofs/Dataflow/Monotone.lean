import BoxFlow.Proofs.Dataflow.Aliases
import BoxFlow.Proofs.Dataflow.Growth
import BoxFlow.Proofs.Dataflow.Kept

/-!
# Where the rule of an instruction is monotone

More facts give more aliases and more that cells may hold, and more that sets the handles, too,
unless an opaque call comes upon a handle only with the additional facts. It then forgets what set
that handle, which with fewer facts it leaves alone. `View.transfer_leq_iff` says exactly when this
takes something away.
-/

namespace BoxFlow

namespace View

open Facts
open Knowledge (Below)

variable {v : View} {i : InstId} {k l : Knowledge} {args : List Value} {x : Id}

/-! ## Calls -/

theorem modified_subset_of_below {D : Prop} (h : Below D k l) :
    v.modified i k args ⊆ v.modified i l args :=
  fun _ hj => ⟨dataSet_subset_of_below h hj.1, hj.2⟩

/-- The handles that a call sets with the facts `l`, but not with `k`. -/
def newlyModified (v : View) (i : InstId) (k l : Knowledge) (args : List Value) : Set Id :=
  v.modified i l args \ v.modified i k args

/-- A handle that the call may set was set by it. -/
theorem touch_defs_of_modified (hl : l.AliasWF v.cls) (hx : x ∈ v.modified i l args) :
    (v.touch i l args).defs x = {unknown} := by
  have hself : x ∈ l.aliases x := hl.refl (by simp [classOfId_of_mem_modified hx])
  ext m
  simp only [touch, Set.mem_ofPred_eq, hx, not_true_eq_false, false_and, or_false]
  exact ⟨fun h => h.1, fun h => ⟨h, x, hx, hself⟩⟩

theorem touch_defs_subset (hl : l.AliasWF v.cls) (h : k ≤ l)
    (hx : x ∈ v.newlyModified i k l args → k.defs x ⊆ {unknown}) :
    (v.touch i k args).defs x ⊆ (v.touch i l args).defs x := by
  have hbelow := Below.true_iff.2 h
  rintro m (⟨rfl, j, hj, hshared⟩ | ⟨hk, hm⟩)
  · exact .inl ⟨rfl, j, modified_subset_of_below hbelow hj, h.2.1 j hshared⟩
  · by_cases hmod : x ∈ v.modified i l args
    · rw [touch_defs_of_modified hl hmod]
      exact hx ⟨hmod, hk⟩ hm
    · exact .inr ⟨hmod, h.1 x hm⟩

/-- What sets a handle other than the result is what the call did to it. -/
theorem opaqueEffect_defs_of_ne (hx : v.cls.classOf (.inst i) = .data → x ≠ v.idOf (.inst i)) :
    (v.opaqueEffect i k args).defs x = (v.touch i k args).defs x := by
  unfold opaqueEffect
  cases hc : v.cls.classOf (.inst i) with
  | irrelevant | pointer => rfl
  | data =>
    ext m
    simp [Knowledge.describe, hx hc, Knowledge.relink]

/-- What describes the result grows, whatever the call does to other handles: those it gets with
fewer facts it treats alike with more. -/
theorem opaqueEffect_defs_result (hl : l.AliasWF v.cls) (h : k ≤ l)
    (hc : v.cls.classOf (.inst i) = .data) :
    (v.opaqueEffect i k args).defs (v.idOf (.inst i)) ⊆
      (v.opaqueEffect i l args).defs (v.idOf (.inst i)) := by
  rw [opaqueEffect, opaqueEffect, hc]
  rintro m (⟨hx, hm | ⟨q, hq, hm⟩⟩ | ⟨hne, -⟩)
  · exact .inl ⟨hx, .inl hm⟩
  · refine .inl ⟨hx, .inr ⟨q, ?_, ?_⟩⟩
    · exact ⟨hq.1, dataSet_subset_of_below (Below.true_iff.2 h) hq.2⟩
    · exact touch_defs_subset hl h (fun hnew => absurd ⟨hq.2, hnew.1.2⟩ hnew.2) hm
  · exact absurd rfl hne

theorem opaqueEffect_defs_subset_iff (hl : l.AliasWF v.cls) (h : k ≤ l) :
    (∀ x, (v.opaqueEffect i k args).defs x ⊆ (v.opaqueEffect i l args).defs x) ↔
      ∀ x ∈ v.newlyModified i k l args,
        (v.cls.classOf (.inst i) = .data → x ≠ v.idOf (.inst i)) → k.defs x ⊆ {unknown} := by
  constructor
  · intro hle x hx hres m hm
    have hm : m ∈ (v.opaqueEffect i k args).defs x := by
      rw [opaqueEffect_defs_of_ne hres]
      exact .inr ⟨hx.2, hm⟩
    have := hle x hm
    rwa [opaqueEffect_defs_of_ne hres, touch_defs_of_modified hl hx.1] at this
  · intro hforget x
    by_cases hres : v.cls.classOf (.inst i) = .data → x ≠ v.idOf (.inst i)
    · rw [opaqueEffect_defs_of_ne hres, opaqueEffect_defs_of_ne hres]
      exact touch_defs_subset hl h fun hx => hforget x hx hres
    · obtain ⟨hc, hx⟩ := Classical.not_imp.1 hres
      rw [not_not.1 hx]
      exact opaqueEffect_defs_result hl h hc

/-! ## Every instruction -/

/-- With more facts an instruction gives more aliases and more that cells may hold; and more that
sets the handles, exactly if what an opaque call newly sets was set by nothing known. -/
theorem transfer_leq_iff {s t : Facts} (hs : s.knowledge.AliasWF v.cls)
    (ht : t.knowledge.AliasWF v.cls) (hle : s.leq t = true) :
    (tableLattice.leq (v.transfer i s).aliases (v.transfer i t).aliases = true ∧
      tableLattice.leq (v.transfer i s).pointsTo (v.transfer i t).pointsTo = true) ∧
    ((v.transfer i s).leq (v.transfer i t) = true ↔
      ∀ callee args, (v.program.inst i).op = .call callee args → v.cls.kindOf i = .opaqueCall →
        ∀ x ∈ v.newlyModified i s.knowledge t.knowledge args,
          (v.cls.classOf (.inst i) = .data → x ≠ v.idOf (.inst i)) →
            s.knowledge.defs x ⊆ {unknown}) := by
  have hle := leq_iff.1 hle
  have hbelow : Below False (v.transfer i s).knowledge (v.transfer i t).knowledge := by
    rw [knowledge_transfer hs, knowledge_transfer ht]
    exact effect_below False.elim (fun _ e he => ⟨e, he, .refl _⟩)
      ⟨False.elim, hle.2.1, hle.2.2⟩
  refine ⟨⟨Table.leq_iff.2 hbelow.aliases, Table.leq_iff.2 hbelow.pointsTo⟩, ?_⟩
  have hdefs : (v.transfer i s).leq (v.transfer i t) = true ↔
      ∀ x, (v.effect i s.knowledge).defs x ⊆ (v.effect i t.knowledge).defs x := by
    rw [leq_iff, Knowledge.le_iff, knowledge_transfer hs, knowledge_transfer ht] at *
    exact and_iff_left ⟨hbelow.aliases, hbelow.pointsTo⟩
  rw [hdefs]
  by_cases hcall : ∃ args, v.rule i = .call args
  · obtain ⟨args, hrule⟩ := hcall
    obtain ⟨⟨callee, hop⟩, hkind⟩ : v.Fits i (.call args) := hrule ▸ rule_fits
    simp only [effect, hrule, opaqueEffect_defs_subset_iff ht hle]
    constructor
    · intro h callee' args' hop' _
      cases hop.symm.trans hop'
      exact h
    · exact fun h => h callee args hop hkind
  · have hmono : Below True (v.effect i s.knowledge) (v.effect i t.knowledge) :=
      effect_below (fun _ args hrule => absurd ⟨args, hrule⟩ hcall)
        (fun _ e he => ⟨e, he, .refl _⟩) (Below.true_iff.2 hle)
    refine ⟨fun _ callee args hop hkind => ?_, fun _ => hmono.defs trivial⟩
    exact absurd ⟨args, rule_opaqueCall hop hkind⟩ hcall

/-- A handle from outside is put in a cell that an opaque call gets. -/
def passOnText : String :=
  "define void @f(ptr %h)\x7be:%p=alloca ptr store ptr %h,ptr %p call void @g(ptr %p)" ++
  "call void @destroy(ptr %h)ret void\x7d"

/-- The handle from outside. -/
def passedOn : Value := .param ⟨0, 0, "h", .ptr⟩

/-- A handle that nothing known has set loses nothing. -/
theorem transfer_leq_iff_passOn : ∃ p, Program.load passOnText.toList = .ok p ∧
    let a := Analysis.solve p 0 {} .conservative (Classification.ofFunc p {} 0).1
    let s := a.transfer 0 (Analysis.seed a.cls)
    let t := a.transfer 1 s
    s.knowledge.AliasWF a.cls ∧ t.knowledge.AliasWF a.cls ∧ s.leq t = true ∧
      (a.program.inst 2).op = .call "g" [.inst 0] ∧ a.cls.kindOf 2 = .opaqueCall ∧
      a.idOf passedOn ∈ a.newlyModified 2 s.knowledge t.knowledge [.inst 0] ∧
      s.knowledge.defs (a.idOf passedOn) ⊆ {unknown} := by
  obtain ⟨p, hload, -, hle, hop, hkind, hmem, hnmem, hmod, hclass, hleq⟩ :=
    Program.exists_load (s := passOnText.toList) (P := fun p =>
      let a := Analysis.solve p 0 {} .conservative (Classification.ofFunc p {} 0).1
      let s := a.transfer 0 (Analysis.seed a.cls)
      let t := a.transfer 1 s
      s.leq t = true ∧ (a.program.inst 2).op = .call "g" [.inst 0] ∧
        a.cls.kindOf 2 = .opaqueCall ∧ a.idOf passedOn ∈ a.dataArgs [.inst 0] t ∧
        a.idOf passedOn ∉ a.dataArgs [.inst 0] s ∧ a.mayModify 2 (a.idOf passedOn) = true ∧
        a.cls.classOf (.inst 2) ≠ .data ∧ (a.transfer 2 s).leq (a.transfer 2 t) = true)
      (by decide +kernel)
  refine ⟨p, hload, ?_⟩
  intro a s t
  have hs : s.knowledge.AliasWF a.cls := transfer_aliasWF (Analysis.seed_aliasWF a.cls)
  have ht : t.knowledge.AliasWF a.cls := transfer_aliasWF hs
  have hnew : a.idOf passedOn ∈ a.newlyModified 2 s.knowledge t.knowledge [.inst 0] :=
    ⟨⟨mem_dataArgs.1 hmem, idOf_ne_unknown _ _, hmod⟩, fun h => hnmem (mem_dataArgs.2 h.1)⟩
  have hforget := (transfer_leq_iff (i := 2) hs ht hle).2.1 hleq _ _ hop hkind _ hnew
  exact ⟨hs, ht, hle, hop, hkind, hnew, hforget fun h => absurd h hclass⟩

/-- A handle is put in a cell that an opaque call gets. -/
def handOverText : String :=
  "define void @f()\x7be:%a=call ptr @create(i64 1)%p=alloca ptr store ptr %a,ptr %p " ++
  "call void @g(ptr %p)ret void\x7d"

/-- The facts after the store say more than those before it, but with them the call forgets what set
the handle. -/
theorem not_transfer_leq : ∃ p, Program.load handOverText.toList = .ok p ∧
    let a := Analysis.solve p 0 {} .conservative (Classification.ofFunc p {} 0).1
    let s := a.transfer 1 (a.transfer 0 (Analysis.seed a.cls))
    let t := a.transfer 2 s
    s.knowledge.AliasWF a.cls ∧ t.knowledge.AliasWF a.cls ∧ s.leq t = true ∧
      ¬(a.transfer 3 s).leq (a.transfer 3 t) = true := by
  obtain ⟨p, hload, -, h⟩ := Program.exists_load (s := handOverText.toList) (P := fun p =>
      let a := Analysis.solve p 0 {} .conservative (Classification.ofFunc p {} 0).1
      let s := a.transfer 1 (a.transfer 0 (Analysis.seed a.cls))
      let t := a.transfer 2 s
      s.leq t = true ∧ ¬(a.transfer 3 s).leq (a.transfer 3 t) = true)
      (by decide +kernel)
  refine ⟨p, hload, ?_⟩
  intro a s t
  have hs : s.knowledge.AliasWF a.cls :=
    transfer_aliasWF (transfer_aliasWF (Analysis.seed_aliasWF a.cls))
  exact ⟨hs, transfer_aliasWF hs, h⟩

end View

end BoxFlow
