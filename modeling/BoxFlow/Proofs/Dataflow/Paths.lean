import BoxFlow.Proofs.Dataflow.Equations

/-!
# Facts along the ways of control

Facts only grow where control goes from one instruction to the next (`Analysis.Settled.next`). What
is kept by the instructions on a way, and by facts as they grow, holds before the last of them if it
holds after the first (`Analysis.Settled.along`).
-/

namespace BoxFlow

namespace Program

/-- Control may go from the one instruction straight to the other. -/
inductive Next (p : Program) (i j : InstId) : Prop
  | within {b : BlockId} {l r : List InstId} : (p.block b).insts = l ++ i :: j :: r → Next p i j
  | across {b d : BlockId} {l r : List InstId} : (p.block b).insts = l ++ [i] →
    d ∈ p.successorBlocks b → (p.block d).insts = j :: r → Next p i j

/-- A way that control may take from one instruction to another, with those in between. -/
inductive Way (p : Program) : InstId → List InstId → InstId → Prop
  | next {i j : InstId} : p.Next i j → Way p i [] j
  | step {i j k : InstId} {is : List InstId} : p.Next i j → Way p j is k → Way p i (j :: is) k

end Program

namespace Analysis

variable {p : Program} {f : FuncId} {c : Classification} {a : Analysis} {i j : InstId}
  {is : List InstId}

/-- Control enters the function at a block that can be reached. -/
theorem reachable_entry (hv : p.verify f = []) {b : BlockId} (hb : p.entry? f = some b) :
    Reachable p f b := by
  obtain ⟨hmem, hpred⟩ := Program.predecessors_entry hv hb
  refine ⟨b, List.mem_filter.2 ⟨hmem, ?_⟩, .refl⟩
  rw [hpred]
  rfl

/-- Is the instruction in a block that has been visited? -/
def Visited (a : Analysis) (i : InstId) : Prop :=
  ∃ b ∈ a.exits, i ∈ (a.program.block b).insts

variable (ha : a.Settled p f c)
include ha

/-- The facts before and after an instruction of a visited block. -/
theorem Settled.facts_of_split {b : BlockId} (hb : b ∈ a.exits) {l r : List InstId}
    (h : (p.block b).insts = l ++ i :: r) :
    (a.factsBefore i).knowledge = a.effects l (a.entry b).knowledge ∧
      (a.factsAfter i).knowledge = a.effects (l ++ [i]) (a.entry b).knowledge := by
  obtain ⟨e, he⟩ := mem_iff_getElem?_eq_some.1 hb
  obtain ⟨s, t, hs, ht, hks, hkt⟩ := (ha.stable he).facts l i r h
  rw [factsBefore_eq hs, factsAfter_eq ht]
  exact ⟨hks, hkt⟩

/-- The facts after an instruction are those before it with its effect. -/
theorem Settled.effect (hi : a.Visited i) :
    (a.factsBefore i).knowledge.AliasWF a.cls ∧
      (a.factsAfter i).knowledge = a.effect i (a.factsBefore i).knowledge := by
  obtain ⟨b, hb, hi⟩ := hi
  rw [ha.program] at hi
  obtain ⟨l, r, h⟩ := List.append_of_mem hi
  obtain ⟨hbefore, hafter⟩ := ha.facts_of_split hb h
  rw [hafter, hbefore, View.effects_append]
  refine ⟨?_, rfl⟩
  exact List.foldlRecOn (motive := fun k => Knowledge.AliasWF a.cls k) _ _ (ha.aliases b hb)
    fun _ hk _ _ => View.effect_aliasWF hk

theorem Settled.visited_of_successor {b d : BlockId} (hb : b ∈ a.exits)
    (hd : d ∈ p.successorBlocks b) : d ∈ a.exits := by
  obtain ⟨r, hroot, hreach⟩ := (ha.visited b).1 hb
  exact (ha.visited d).2 ⟨r, hroot, hreach.tail hd⟩

/-- What is known at the end of a block is known at the start of its successors. -/
theorem Settled.exit_le_entry (hp : p.Linked) {b d : BlockId} {e : Facts}
    (hd : d ∈ p.successorBlocks b) (he : a.exits[b]? = some e) :
    e.knowledge ≤ (a.entry d).knowledge := by
  have hpred : b ∈ a.program.predecessorBlocks d := by
    rw [ha.program]
    exact hp.mem_predecessorBlocks_iff.2 hd
  rw [knowledge_entry (List.ne_nil_of_mem hpred)]
  have hmem : e.knowledge ∈ {k | ∃ q ∈ a.program.predecessorBlocks d,
      a.exits[q]?.map Facts.knowledge = some k} := ⟨b, hpred, by rw [he]; rfl⟩
  exact ⟨fun _ _ hm => ⟨_, hmem, hm⟩, fun _ _ hm => ⟨_, hmem, hm⟩, fun _ _ hm => ⟨_, hmem, hm⟩⟩

/-- What is known after an instruction is known before the next one. -/
theorem Settled.next (hp : p.Linked) (h : p.Next i j) (hi : a.Visited i) :
    a.Visited j ∧ (a.factsAfter i).knowledge ≤ (a.factsBefore j).knowledge := by
  obtain ⟨b, hb, hi⟩ := hi
  unfold Visited
  rw [ha.program] at hi ⊢
  have hsame {d : BlockId} (hd : i ∈ (p.block d).insts) : d = b :=
    Option.some.inj ((hp.held hd).symm.trans (hp.held hi))
  cases h with
  | @within d l r h =>
    obtain rfl := hsame (by rw [h]; simp)
    have hnext : (p.block d).insts = (l ++ [i]) ++ j :: r := by simpa using h
    refine ⟨⟨d, hb, by rw [h]; simp⟩, ?_⟩
    rw [(ha.facts_of_split hb h).2, (ha.facts_of_split hb hnext).1]
  | @across d d' l r h hd hj =>
    obtain rfl := hsame (by rw [h]; simp)
    have hd' := ha.visited_of_successor hb hd
    obtain ⟨e, he⟩ := mem_iff_getElem?_eq_some.1 hb
    have hend : (a.factsAfter i).knowledge = e.knowledge := by
      rw [(ha.facts_of_split hb h).2, (ha.stable he).out, h]
    have hentry : (a.factsBefore j).knowledge = (a.entry d').knowledge :=
      (ha.facts_of_split (l := []) hd' hj).1
    refine ⟨⟨d', hd', by rw [hj]; exact List.mem_cons_self⟩, ?_⟩
    rw [hend, hentry]
    exact ha.exit_le_entry hp hd he

/-- What the instructions on a way keep, and facts as they grow, is kept along the way. -/
theorem Settled.along (hp : p.Linked) {P : Knowledge → Prop} (hmono : ∀ {k l}, k ≤ l → P k → P l)
    (hway : p.Way i is j) (hi : a.Visited i)
    (hkeep : ∀ n ∈ is, a.Visited n → ∀ k, k.AliasWF a.cls → P k → P (a.effect n k))
    (h : P (a.factsAfter i).knowledge) : a.Visited j ∧ P (a.factsBefore j).knowledge := by
  induction hway with
  | next hnext =>
    obtain ⟨hj, hle⟩ := ha.next hp hnext hi
    exact ⟨hj, hmono hle h⟩
  | step hnext _ ih =>
    obtain ⟨hj, hle⟩ := ha.next hp hnext hi
    obtain ⟨hwf, hafter⟩ := ha.effect hj
    refine ih hj (fun n hn => hkeep n (List.mem_cons_of_mem _ hn)) ?_
    rw [hafter]
    exact hkeep _ List.mem_cons_self hj _ hwf (hmono hle h)

theorem Settled.visited_of_way (hp : p.Linked) (hway : p.Way i is j) (hi : a.Visited i) :
    a.Visited j :=
  (ha.along hp (P := fun _ => True) (fun _ _ => trivial) hway hi (fun _ _ _ _ _ _ => trivial)
    trivial).1

end Analysis

end BoxFlow
