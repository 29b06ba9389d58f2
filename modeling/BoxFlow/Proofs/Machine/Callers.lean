import BoxFlow.Proofs.Machine.Acyclic
import BoxFlow.Proofs.Machine.Tracking

/-!
# Facts that hold for every caller

In a function without loops and opaque calls, the facts of a quiet analysis keep track of every run
(`Analysis.Settled.tracks`), whatever the caller binds its parameters and globals to, as long as it
binds separate things. So what is constant is what the object holds
(`Analysis.holds_of_constantOf`). A caller that hands over one handle under two names is not
accounted for, since the facts at the start take every parameter to be an alias of itself only
(`Analysis.not_holds_twice`).
-/

namespace BoxFlow

open Relation (TransGen)

/-! ## The facts at the start -/

namespace Analysis

variable {c : Classification} {s : Facts} {x : Id} {u : Value} {k : ValueClass}

theorem unknown_mem_seedId (y : Id) (h : unknown ∈ s.knowledge.tableOf k x) :
    unknown ∈ (seedId c s y).knowledge.tableOf k x := by
  let t : Facts := { s with aliases := s.aliases.insert y {y} }
  have hset (j : ValueClass) : unknown ∈ (t.setTableOf j y {unknown}).knowledge.tableOf k x := by
    rw [Facts.knowledge_setTableOf]
    by_cases hx : x = y <;> cases k <;> cases j <;>
      simp_all [Knowledge.tableOf, Knowledge.describe, Facts.knowledge, t]
  unfold seedId
  split
  · exact hset _
  · exact hset _
  · cases k <;> exact h

theorem unknown_mem_seedId_self (hu : c.Receives u) :
    unknown ∈ (seedId c s (c.arena.idOf u)).knowledge.tableOf (c.classOf u) (c.arena.idOf u) := by
  have hvalue : c.arena.value? (c.arena.idOf u) = some u := by
    obtain ⟨h0, hv⟩ := Arena.find_eq_some_iff.1 (Classification.find_of_classOf hu.classified)
    rw [Arena.value?, if_pos h0, hv]
  have hout := hu.outside
  unfold seedId
  dsimp only
  rw [hvalue, Classification.classOfId_idOf hu.classified]
  cases u with
  | param | global =>
    dsimp only
    rw [Facts.knowledge_setTableOf]
    cases c.classOf _ <;> simp [Knowledge.tableOf, Knowledge.describe]
  | _ => cases hout

/-- Nothing is known of what a tracked parameter or global holds. -/
theorem unknown_mem_seed (hu : c.Receives u) :
    unknown ∈ (seed c).knowledge.tableOf (c.classOf u) (c.arena.idOf u) := by
  have hfold (l : List Id) (s : Facts) (h : c.arena.idOf u ∈ l ∨
      unknown ∈ s.knowledge.tableOf (c.classOf u) (c.arena.idOf u)) :
      unknown ∈ (l.foldl (seedId c) s).knowledge.tableOf (c.classOf u) (c.arena.idOf u) := by
    induction l generalizing s with
    | nil => exact h.resolve_left (by simp)
    | cons y l ih =>
      refine ih _ ?_
      rcases h with h | h
      · rcases List.mem_cons.1 h with rfl | h
        · exact .inr (unknown_mem_seedId_self hu)
        · exact .inl h
      · exact .inr (unknown_mem_seedId y h)
  refine hfold _ _ (.inl ?_)
  have hne := Classification.classOfId_idOf hu.classified ▸ hu.classified
  rw [Classification.classOfId_ne_irrelevant] at hne
  simpa [Classification.classifiedIds, IdSet.mem_union] using hne

end Analysis

namespace Machine

variable {p : Program} {o : Options} {w : World} {f : FuncId} {v : View} {k : Knowledge}
  {m : Machine} {i : InstId} {x : Datum} {u : Value} {l : List InstId}

/-- Before anything is done, what a value stands for comes from the caller. -/
theorem receives_of_eval (henv : ∀ i, m.env i = none) (hu : v.cls.classOf u ≠ .irrelevant)
    (he : m.eval w u = some x) (href : x.IsRef) : v.cls.Receives u ∧ w.along u 0 = some x := by
  cases u with
  | literal l => cases he; exact href.elim
  | inst j => rw [eval, henv j] at he; cases he
  | param | global => exact ⟨⟨rfl, hu⟩, he⟩

/-- The facts at the start keep track of a machine that has not done anything. -/
theorem Tracks.start (hw : w.Separate v.cls) (henv : ∀ i, m.env i = none)
    (hset : ∀ g, m.setter g = none) (hheap : m.heap = w.heap) :
    Tracks v w (Analysis.seed v.cls).knowledge m where
  aliases {s t x} hs ht href hes het := by
    obtain ⟨hrs, hxs⟩ := receives_of_eval henv hs hes href
    obtain ⟨hrt, hxt⟩ := receives_of_eval henv ht het href
    obtain ⟨rfl, -⟩ := hw.unique hrs hrt href hxs hxt
    rw [Facts.mem_knowledge_aliases, Analysis.seed_aliases, View.idOf,
      Classification.classOfId_idOf hs, if_pos hs, IdSet.mem_singleton]
  defs {s g} hs he := by
    obtain ⟨hrs, -⟩ := receives_of_eval henv (v := v) (by simp [hs]) he trivial
    have := Analysis.unknown_mem_seed hrs
    rw [hs] at this
    rw [definer, hset]
    exact this
  pointsTo {s c x} hs he hc := by
    obtain ⟨hrs, hxs⟩ := receives_of_eval henv (v := v) (by simp [hs]) he trivial
    have hunknown := Analysis.unknown_mem_seed hrs
    rw [hs] at hunknown
    rw [hheap] at hc
    refine .initial hunknown hrs hxs (World.along_succ hxs hc)
      ⟨fun {e y} hd hy href hexp => ?_, fun _ _ => by rw [hheap], fun _ _ => hset _⟩
    obtain ⟨u, hu, hey⟩ := hexp
    obtain ⟨hru, hyu⟩ := receives_of_eval henv hu hey href
    obtain ⟨-, rfl⟩ := hw.unique hrs hru href hy hyu
    cases hd
  bounded {s x} hs he := by
    cases x with
    | int => trivial
    | _ =>
      obtain ⟨hrs, hxs⟩ := receives_of_eval henv hs he trivial
      rw [hheap]
      exact hw.inHeap hrs hxs
  grown hx := by rwa [hheap]

/-! ## Phis -/

end Machine

/-- Two phis of one block may take one handle or cell from a predecessor. -/
def View.Twins (v : View) (i j : InstId) (q : BlockId) : Prop :=
  ∃ xs ys s t e, (v.program.inst i).op = .phi xs ∧ (v.program.inst j).op = .phi ys ∧ (s, q) ∈ xs ∧
    (t, q) ∈ ys ∧ v.exits[q]? = some e ∧ v.idOf t ∈ e.knowledge.aliases (v.idOf s)

namespace Machine

variable {p : Program} {o : Options} {w : World} {f : FuncId} {v : View} {k : Knowledge}
  {m : Machine} {i : InstId} {x : Datum} {u : Value} {l : List InstId}

theorem eval_taken_of_fresh (hfresh : ∀ i ∈ l, m.env i = none) (he : m.eval w u = some x) :
    (m.taken p w l).eval w u = some x := by
  cases u with
  | inst j =>
    show (if j ∈ l then _ else _) = _
    split
    · next hj => rw [eval, hfresh j hj] at he; cases he
    · exact he
  | _ => exact he

/-- What a value stands for once phis have taken theirs, it has stood for before, or it is a phi. -/
theorem eval_taken_cases (he : (m.taken p w l).eval w u = some x) :
    m.eval w u = some x ∨ ∃ j ∈ l, u = .inst j ∧ m.incoming? w (p.inst j).op = some x := by
  cases u with
  | inst j =>
    replace he : (if j ∈ l then m.incoming? w (p.inst j).op else m.env j) = some x := he
    split at he
    · next hj => exact .inr ⟨j, hj, rfl, he⟩
    · exact .inl he
  | _ => exact .inl he

/-- What a classified phi takes, if it is a handle or a cell, a value of its class stands for. -/
theorem incoming_tracked (hs : Suited p o f v) (hmix : p.PureMerges f v.cls)
    (hi : i ∈ p.instructions f) (hclass : v.cls.classOf (.inst i) ≠ .irrelevant) (href : x.IsRef)
    (hx : m.incoming? w (p.inst i).op = some x) : ∃ xs u, (p.inst i).op = .phi xs ∧
      (u, m.block) ∈ xs ∧ m.eval w u = some x ∧ v.cls.classOf u = v.cls.classOf (.inst i) := by
  obtain ⟨u, d, xs, hop, hmem, rfl, hu⟩ := incoming_eval hx
  refine ⟨xs, u, hop, hmem, hu, Tracks.classOf_merged hs hmix hi ?_ ?_ hclass⟩
  · rw [hop]
    exact List.mem_map_of_mem (f := Prod.fst) hmem
  · exact Tracks.isLiteral_of_isRef hu href

section Phis

variable (hs : Suited p o f v) (hmix : p.PureMerges f v.cls) (hl : ∀ i ∈ l, i ∈ p.instructions f)
  (hfresh : ∀ i ∈ l, m.env i = none)
include hs hmix hl

/-- Phis bring nothing into the open. -/
theorem Exposes.of_taken (href : x.IsRef) (h : (m.taken p w l).Exposes v w x) :
    m.Exposes v w x := by
  obtain ⟨u, hu, he⟩ := h
  rcases eval_taken_cases he with he | ⟨j, hj, rfl, hx⟩
  · exact ⟨u, hu, he⟩
  · obtain ⟨-, t, -, -, het, hclass⟩ := incoming_tracked hs hmix (hl j hj) hu href hx
    exact ⟨t, hclass ▸ hu, het⟩

include hfresh

theorem Content.taken {q : Id} {c : Nat} (h : Content v w k m q c x) :
    Content v w k (m.taken p w l) q c x := by
  cases h with
  | known hu heval => exact .known hu fun hcl => eval_taken_of_fresh hfresh (heval hcl)
  | initial hu hrec hc hx hhid =>
    refine .initial hu hrec hc hx ⟨fun he hy href hexp => ?_, hhid.cells, hhid.setter⟩
    exact hhid.held he hy href (hexp.of_taken hs hmix hl href)

/-- What a phi takes is among its sources, also once other phis of its block have taken theirs. -/
theorem Tracks.exists_source {e : Facts} (he : v.exits[m.block]? = some e)
    (hexit : Tracks v w e.knowledge m) (hi : i ∈ p.instructions f) {xs : List (Value × BlockId)}
    (hop : (p.inst i).op = .phi xs) (hx : m.incoming? w (p.inst i).op = some x) (href : x.IsRef)
    (hclass : v.cls.classOf (.inst i) ≠ .irrelevant)
    (htwins : ∀ j ∈ l, v.cls.classOf (.inst j) ≠ .irrelevant → ¬v.Twins i j m.block) :
    ∃ q ∈ v.phiSources xs, Takes v w i x (m.taken p w l) q := by
  obtain ⟨xs', u, hop', humem, hu, hsame⟩ := incoming_tracked hs hmix hi hclass href hx
  obtain rfl : xs = xs' := by rw [hop] at hop'; cases hop'; rfl
  have huclass : v.cls.classOf u ≠ .irrelevant := hsame ▸ hclass
  refine ⟨(v.idOf u, e.knowledge),
    ⟨u, m.block, e, humem, Classification.find_of_classOf huclass, he, rfl⟩,
    fun {t} ht het => ?_, fun hk hg => hexit.defs (hsame.trans hk) (hg ▸ hu),
    fun hk hc hy => (hexit.pointsTo (hsame.trans hk) (hc ▸ hu) hy).taken hs hmix hl hfresh,
    u, huclass, eval_taken_of_fresh hfresh hu⟩
  rcases eval_taken_cases het with het | ⟨j, hj, rfl, hxj⟩
  · exact hexit.aliases huclass ht href hu het
  · -- A phi that has taken the same before is a twin.
    obtain ⟨ys, t, hopj, htmem, het, htsame⟩ := incoming_tracked hs hmix (hl j hj) ht href hxj
    refine absurd ⟨xs, ys, u, t, e, ?_, ?_, humem, htmem, he, ?_⟩ (htwins j hj ht)
    · rw [hs.program, hop]
    · rw [hs.program, hopj]
    · exact hexit.aliases huclass (htsame ▸ ht) href hu het

/-- The effects of phis, one after another, keep track of them taking their values at once. -/
theorem Tracks.phis {e : Facts} (he : v.exits[m.block]? = some e)
    (hexit : Tracks v w e.knowledge m) (h : Tracks v w k m) (hnodup : l.Nodup)
    (htwins : ∀ i ∈ l, ∀ j ∈ l, i ≠ j → v.cls.classOf (.inst i) ≠ .irrelevant →
      v.cls.classOf (.inst j) ≠ .irrelevant → ¬v.Twins i j m.block)
    (hin : ∀ i ∈ l, ∃ x, m.incoming? w (p.inst i).op = some x) :
    Tracks v w (v.effects l k) (m.taken p w l) := by
  -- One phi after another, the last one first to go.
  induction l using List.reverseRecOn with
  | nil => exact h
  | append_singleton l i ih =>
    have hmem {j} (hj : j ∈ l) : j ∈ l ++ [i] := List.mem_append_left _ hj
    have hlast : i ∈ l ++ [i] := by simp
    have hnot : i ∉ l := fun hi => (List.nodup_append.1 hnodup).2.2 i hi i (by simp) rfl
    have hl' : ∀ j ∈ l, j ∈ p.instructions f := fun j hj => hl j (hmem hj)
    have hfresh' : ∀ j ∈ l, m.env j = none := fun j hj => hfresh j (hmem hj)
    have hbefore := ih hl' hfresh' (List.nodup_append.1 hnodup).1
      (fun j hj j' hj' => htwins j (hmem hj) j' (hmem hj')) (fun j hj => hin j (hmem hj))
    obtain ⟨x, hx⟩ := hin i hlast
    obtain ⟨-, -, xs, hop, -⟩ := incoming_eval hx
    have henv : (m.taken p w l).env i = none := (if_neg hnot).trans (hfresh i hlast)
    rw [View.effects_append, View.effects_cons, View.effect_phi (by rw [hs.program, hop]),
      taken_append hx]
    exact hbefore.merge henv fun hclass href => exists_source hs hmix hl' hfresh' he hexit
      (hl i hlast) hop hx href hclass fun j hj =>
        htwins i hlast j (hmem hj) (fun hij => hnot (hij ▸ hj)) hclass

end Phis

/-- Phis that have taken nothing yet. -/
theorem Tracks.phis_of_fresh (h : Tracks v w k m) (hs : Suited p o f v)
    (hl : ∀ i ∈ l, (p.inst i).op.isPhi = true) (hfresh : ∀ i ∈ l, m.env i = none) :
    Tracks v w (v.effects l k) m := by
  induction l generalizing k with
  | nil => exact h
  | cons i l ih =>
    refine ih ?_ (fun j hj => hl j (List.mem_cons_of_mem _ hj))
      fun j hj => hfresh j (List.mem_cons_of_mem _ hj)
    have hphi := hl i List.mem_cons_self
    cases hop : (p.inst i).op with
    | phi xs =>
      dsimp only
      rw [View.effect_phi (by rw [hs.program, hop])]
      exact h.merge_of_fresh (hfresh i List.mem_cons_self) _
    | _ => rw [hop] at hphi; cases hphi

end Machine

/-! ## Runs -/

theorem World.Separate.classes {w : World} {c d : Classification} (h : w.Separate c)
    (hcd : ∀ u, d.classOf u = c.classOf u) : w.Separate d := by
  have hrec {u : Value} (hu : d.Receives u) : c.Receives u := ⟨hu.outside, hcd u ▸ hu.classified⟩
  exact ⟨fun hu => h.inHeap (hrec hu), fun hu hu' => h.unique (hrec hu) (hrec hu')⟩

namespace Analysis

variable {p : Program} {o : Options} {w : World} {f : FuncId} {a : Analysis} {m : Machine}
  {i : InstId} {rest pre : List InstId}

/-- What the facts rely on in a function without loops that is given handles and cells: every rule
has been applied, what merges is of one class, and no two phis of a block take what may be one. -/
structure Trackable (a : Analysis) : Prop where
  quiet : a.warnings = []
  merges : a.program.PureMerges a.func a.cls
  phis : ∀ {b q i j}, b ∈ (a.program.func a.func).blocks → i ∈ a.program.phis b →
    j ∈ a.program.phis b → i ≠ j → a.cls.classOf (.inst i) ≠ .irrelevant →
    a.cls.classOf (.inst j) ≠ .irrelevant → ¬a.Twins i j q

section Runs

variable (hp : p.Linked) (hv : p.verify f = [])
  (ha : a.Settled p f (Classification.ofFunc p o f).1) (hacyclic : p.Acyclic f)
  (hcalls : ∀ i ∈ p.instructions f, ∀ callee ∈ (p.inst i).op.callee?,
    o.kindOf callee ≠ .opaqueCall)
  (ht : a.Trackable) (hq : a.Quiet) (hw : w.Separate a.cls)
include hp hv ha hacyclic hcalls ht hq hw

omit ha hcalls ht hq hw in
/-- Without loops, what is about to act has had no result. -/
theorem env_of_acyclic (h : Machine.Reaches p o w f m) (hm : m.Located p f pre)
    (hrest : m.rest = i :: rest) : m.env i = none := by
  by_contra hset
  exact hacyclic _ hm.block
    (Machine.cycle_of_passed hp hm hrest (Machine.reaches_passed hp hv h pre hm) hset)

omit ha hcalls ht hq hw in
/-- Without loops, the phis of a block that control is about to enter have had no results. -/
theorem env_phi_of_acyclic {b : BlockId} (h : Machine.Reaches p o w f m) (hm : m.Located p f pre)
    (hflow : p.Flows m.block b) (hi : i ∈ p.phis b) : m.env i = none := by
  by_contra hset
  exact hacyclic b (hp.successor_within hm.block hflow)
    (Machine.cycle_of_phi hp hm hflow (Machine.reaches_passed hp hv h pre hm) hi hset)

/-- What keeps track of the machine before an action keeps track of it, with the effect, after. -/
theorem Settled.tracks_act {act : Action} (h : Machine.Reaches p o w f m) (hm : m.Located p f pre)
    (htracks : m.Tracks a.toView w (a.effects pre (a.entry m.block).knowledge))
    (hrest : m.rest = i :: rest) (hact : m.action o w (p.inst i).op = some act) :
    (m.perform w i act).Tracks a.toView w
      (a.effects (pre ++ [i]) (a.entry m.block).knowledge) := by
  have hmix : p.PureMerges f a.cls := by
    rw [← ha.program, ← ha.func]
    exact ht.merges
  obtain ⟨s, hbefore, hk⟩ := ha.recorded_of_reaches hp hv h hm hrest
  have hcons := hq ht.quiet i s hbefore
  rw [hk] at hcons
  have hi := hm.mem_instructions hrest
  rw [View.effects_append]
  exact htracks.perform ha.suited hw hmix hi (hcalls i hi)
    (env_of_acyclic hp hv hacyclic h hm hrest) hcons hact

omit hcalls hq in
/-- What keeps track of the machine at the end of a block keeps track of it, with the effects of the
phis, in the block that control enters. -/
theorem Settled.tracks_jump {c : Option Value} {targets : List BlockId} {b : BlockId} {n : Machine}
    (h : Machine.Reaches p o w f m) (hm : m.Located p f pre)
    (htracks : m.Tracks a.toView w (a.effects pre (a.entry m.block).knowledge))
    (hrest : m.rest = i :: rest) (hop : (p.inst i).op = .br c targets)
    (htarget : m.target? w c targets = some b) (hn : m.enter p w b = some n) :
    n.Tracks a.toView w (a.effects (p.phis b) (a.entry b).knowledge) := by
  have hs : Machine.Suited p o f a.toView := ha.suited
  have hmix : p.PureMerges f a.cls := by
    rw [← ha.program, ← ha.func]
    exact ht.merges
  have hflow := hm.flows hp hrest hop htarget
  have hb := hp.successor_within hm.block hflow
  obtain ⟨e, he, hend, hle⟩ := ha.knowledge_edge hp hv h hm hrest hop htarget
  obtain ⟨hdefs, haliases, hpoints⟩ := Knowledge.le_iff.1 hle
  rw [← hend] at htracks
  obtain ⟨hin, rfl⟩ := Machine.enter_eq_some hn
  refine (Machine.Tracks.phis (l := p.phis b) hs hmix ?_
    (fun i hi => env_phi_of_acyclic hp hv hacyclic h hm hflow hi) he htracks
    (htracks.mono haliases hdefs hpoints) (hp.nodup.filter _) ?_ hin).congr hw rfl
    (fun _ => rfl) (fun _ => rfl) id
  · exact fun i hi => List.mem_flatMap.2 ⟨b, hb, (List.mem_filter.1 hi).1⟩
  · intro i hi j hj hij hci hcj
    rw [← ha.program] at hi hj
    exact ht.phis (by rw [ha.program, ha.func]; exact hb) hi hj hij hci hcj

/-- What follows from the facts at the start of a block keeps track of every run that comes by. -/
theorem Settled.tracks (h : Machine.Reaches p o w f m) : ∀ pre, m.Located p f pre → m.rest ≠ [] →
    m.Tracks a.toView w (a.effects pre (a.entry m.block).knowledge) := by
  refine h.induction (P := fun m => ∀ pre, m.Located p f pre → m.rest ≠ [] →
    m.Tracks a.toView w (a.effects pre (a.entry m.block).knowledge)) ?_ ?_
  · intro m hstart pre hm _
    obtain ⟨b, hb, rfl⟩ := Option.map_eq_some_iff.1 hstart
    obtain ⟨hmem, hpred⟩ := Program.predecessors_entry hv hb
    obtain rfl := (Machine.located_enter hp hv hmem rfl rfl).unique hm
    have hseed := Machine.Tracks.start (v := a.toView)
      (m := { block := b, rest := p.body b, heap := w.heap }) hw (fun _ => rfl) (fun _ => rfl) rfl
    rw [entry_eq_seed (by rw [ha.program, Program.predecessorBlocks, hpred]; rfl)]
    exact hseed.phis_of_fresh ha.suited (fun i hi => (List.mem_filter.1 hi).2) fun _ _ => rfl
  · intro m n hreach ih hmove pre' hn hne
    obtain ⟨pre, hm⟩ := Machine.reaches_located hp hv hreach
    cases hmove with
    | act hrest hact =>
      have htracks := ih pre hm (by simp [hrest])
      obtain rfl := (hm.perform hrest _).unique hn
      rw [Machine.perform_block]
      exact (ha.tracks_act hp hv hacyclic hcalls ht hq hw hreach hm htracks hrest hact).congr hw rfl
        (fun _ => rfl) (fun _ => rfl) id
    | jump hrest hop htarget hent =>
      have htracks := ha.tracks_jump hp hv hacyclic ht hw hreach hm (ih pre hm (by simp [hrest]))
        hrest hop htarget hent
      obtain ⟨-, rfl⟩ := Machine.enter_eq_some hent
      obtain rfl := (Machine.located_enter hp hv hn.block rfl rfl).unique hn
      exact htracks
    | ret => exact absurd rfl hne

/-- Where a run comes to an instruction, the facts before it keep track of the machine. -/
theorem Settled.tracks_before (h : m.ComesTo p o w f i) :
    ∃ s, a.before[i]? = some s ∧ m.Tracks a.toView w s.knowledge := by
  cases h with
  | next h hrest =>
    obtain ⟨pre, hm⟩ := Machine.reaches_located hp hv h
    obtain ⟨s, hbefore, hk⟩ := ha.recorded_of_reaches hp hv h hm hrest
    refine ⟨s, hbefore, ?_⟩
    rw [hk]
    exact ha.tracks hp hv hacyclic hcalls ht hq hw h pre hm (by simp [hrest])
  | @phi j rest c targets b h hrest hop htarget hi =>
    obtain ⟨pre, hm⟩ := Machine.reaches_located hp hv h
    have hflow := hm.flows hp hrest hop htarget
    have hb := hp.successor_within hm.block hflow
    have htracks := ha.tracks hp hv hacyclic hcalls ht hq hw h pre hm (by simp [hrest])
    obtain ⟨_, -, hend, hle⟩ := ha.knowledge_edge hp hv h hm hrest hop htarget
    obtain ⟨hdefs, haliases, hpoints⟩ := Knowledge.le_iff.1 hle
    rw [← hend] at htracks
    obtain ⟨e, he⟩ := mem_iff_getElem?_eq_some.1
      (ha.visited_of_successor (Machine.reaches_visited hp hv ha h) hflow)
    -- No phi of the block has taken anything yet.
    obtain ⟨before, after, hsplit⟩ := List.append_of_mem hi
    obtain ⟨s, -, hs, -, hk, -⟩ := (ha.stable he).facts before i (after ++ p.body b)
      (by rw [Program.insts_eq_phis_append hp hv hb, hsplit]; simp)
    refine ⟨s, hs, ?_⟩
    rw [hk]
    refine (htracks.mono haliases hdefs hpoints).phis_of_fresh ha.suited ?_ ?_
    · intro l hl
      exact (List.mem_filter.1 (hsplit ▸ List.mem_append_left _ hl : l ∈ p.phis b)).2
    · exact fun l hl => env_phi_of_acyclic hp hv hacyclic h hm hflow
        (hsplit ▸ List.mem_append_left _ hl)

/-- A constant handle holds the constant. -/
theorem Settled.object_of_constantOf (hm : m.ComesTo p o w f i) {u : Value} {g : Nat} {c : Int}
    (hclass : a.cls.classOf u = .data) (heval : m.eval w u = some (.handle g))
    (hconst : Rewriter.constantOf { analysis := a, names := o.names } p i u = some c) :
    m.heap.objects[g]? = some (.ofInt 64 c) := by
  obtain ⟨s, hs, htracks⟩ := ha.tracks_before hp hv hacyclic hcalls ht hq hw hm
  have hmem : m.definer a.toView g ∈ a.definitions i u := by
    rw [definitions, factsBefore_eq hs]
    exact (mem_idsIn (by simp [hclass])).2 (htracks.defs hclass heval)
  have hlt : g < m.heap.objects.length := htracks.bounded (by simp [hclass]) heval
  have hreach := hm.reaches
  rw [← ha.func] at hreach
  have hstart := Rewriting.start hp a o.names (Fate.Justified p o a.func)
  rw [List.getElem?_eq_getElem hlt, ← hstart.eq_of_mem_definitions ha.classifies hp hreach
    (List.getElem?_eq_getElem hlt) hmem hconst]

end Runs

/-- Where no block has two phis, none is missed by the links that a phi makes. -/
theorem Settled.trackable (ha : a.Settled p f (Classification.ofFunc p o f).1)
    (hphis : p.SinglePhis f) (hmerges : p.PureMerges f (Classification.ofFunc p o f).1)
    (hquiet : a.warnings = []) : a.Trackable where
  quiet := hquiet
  merges i hi hk u hu := by
    rw [ha.func, ha.program] at hi
    rw [ha.program] at hu
    rw [ha.classOf (Classification.ofFunc_numbered p o f)] at hk ⊢
    exact hmerges i hi hk u hu
  phis {b q i j} hb hi hj hij _ _ := by
    rw [ha.program, ha.func] at hb
    rw [ha.program] at hi hj
    exact absurd (hphis.eq hb hi hj) hij

/-- Where a run comes to an instruction, in a function without loops and opaque calls and for a
caller that binds separate things, a handle that is constant holds the constant. -/
theorem holds_of_constantOf (hp : p.Linked) (hv : p.verify f = []) (hacyclic : p.Acyclic f)
    (hcalls : ∀ i ∈ p.instructions f, ∀ callee ∈ (p.inst i).op.callee?,
      o.kindOf callee ≠ .opaqueCall) (oracle : Oracle)
    (hconv : (solve p f o oracle (Classification.ofFunc p o f).1).converged = true)
    (ht : (solve p f o oracle (Classification.ofFunc p o f).1).Trackable)
    (hw : w.Separate (Classification.ofFunc p o f).1) (hm : m.ComesTo p o w f i) {u : Value}
    {g : Nat} {c : Int} (hclass : (Classification.ofFunc p o f).1.classOf u = .data)
    (heval : m.eval w u = some (.handle g))
    (hconst : Rewriter.constantOf
      { analysis := solve p f o oracle (Classification.ofFunc p o f).1, names := o.names } p i u =
        some c) :
    m.heap.objects[g]? = some (.ofInt 64 c) := by
  have hrun := run_of_converged hconv
  have hn := Classification.ofFunc_numbered p o f
  have ha := run_settled hp hv hn hrun
  exact ha.object_of_constantOf hp hv hacyclic hcalls ht (run_quiet hp hn hrun)
    (hw.classes (ha.classOf hn)) hm ((ha.classOf hn u).trans hclass) heval hconst

/-- A handle from the cell of one parameter is set, and so is another parameter. -/
def givenText : String :=
  "define i64 @f(ptr %p,ptr %a)\x7be:%l=load ptr,ptr %p call void @write(ptr %a,i64 5)" ++
  "call void @write(ptr %l,i64 7)%m=load ptr,ptr %p %x=call i64 @read(ptr %m)ret i64 %x\x7d"

/-- A caller that binds the first parameter to a cell with a handle in it and the second to another
handle. -/
def givenWorld : World where
  outside u :=
    if u = .param ⟨0, 0, "p", .ptr⟩ then some (.cell 0)
    else if u = .param ⟨0, 1, "a", .ptr⟩ then some (.handle 1)
    else none
  heap := { objects := [3, 4], cells := [some (.handle 0)] }

theorem along_givenWorld {u : Value} {d : Nat} {x : Datum} (h : givenWorld.along u d = some x) :
    u = .param ⟨0, 0, "p", .ptr⟩ ∧ (d = 0 ∧ x = .cell 0 ∨ d = 1 ∧ x = .handle 0) ∨
      u = .param ⟨0, 1, "a", .ptr⟩ ∧ d = 0 ∧ x = .handle 1 := by
  induction d generalizing x with
  | zero =>
    unfold World.along givenWorld at h
    dsimp only at h
    split at h
    · cases h; exact .inl ⟨by assumption, .inl ⟨rfl, rfl⟩⟩
    · split at h
      · cases h; exact .inr ⟨by assumption, rfl, rfl⟩
      · cases h
  | succ d ih =>
    unfold World.along at h
    split at h
    · next c hc =>
      rcases ih hc with ⟨rfl, ⟨rfl, hx⟩ | ⟨-, hx⟩⟩ | ⟨-, -, hx⟩
      · cases hx
        cases h
        exact .inl ⟨rfl, .inr ⟨rfl, rfl⟩⟩
      · cases hx
      · cases hx
    · cases h

theorem separate_givenWorld (c : Classification) : givenWorld.Separate c where
  inHeap _ h := by
    rcases along_givenWorld h with ⟨-, ⟨-, rfl⟩ | ⟨-, rfl⟩⟩ | ⟨-, -, rfl⟩ <;>
      simp [Datum.In, givenWorld]
  unique _ _ _ h h' := by
    rcases along_givenWorld h with ⟨rfl, ⟨rfl, rfl⟩ | ⟨rfl, rfl⟩⟩ | ⟨rfl, rfl, rfl⟩ <;>
      rcases along_givenWorld h' with ⟨rfl, ⟨rfl, hx⟩ | ⟨rfl, hx⟩⟩ | ⟨rfl, rfl, hx⟩ <;>
      first | exact ⟨rfl, rfl⟩ | cases hx

theorem holds_of_constantOf_given : ∃ (p : Program) (m : Machine),
    Program.load givenText.toList = .ok p ∧ p.Linked ∧ p.verify 0 = [] ∧ p.Acyclic 0 ∧
    (solve p 0 {} .conservative (Classification.ofFunc p {} 0).1).converged = true ∧
    (solve p 0 {} .conservative (Classification.ofFunc p {} 0).1).Trackable ∧
    givenWorld.Separate (Classification.ofFunc p {} 0).1 ∧ m.ComesTo p {} givenWorld 0 4 ∧
    m.heap.objects[0]? = some 7 := by
  obtain ⟨p, hload, hp, hv, hlt, hcalls, hphis, hmerges, hconv, hquiet, hclass, hconst, m, hm,
      hrest, henv⟩ :=
    Program.exists_load (s := givenText.toList) (P := fun p =>
      p.verify 0 = [] ∧ (∀ b ∈ (p.func 0).blocks, ∀ d ∈ p.successorBlocks b, b < d) ∧
      (∀ i ∈ p.instructions 0, ∀ callee ∈ (p.inst i).op.callee?,
        ({} : Options).kindOf callee ≠ .opaqueCall) ∧ p.SinglePhis 0 ∧
      p.PureMerges 0 (Classification.ofFunc p {} 0).1 ∧
      (solve p 0 {} .conservative (Classification.ofFunc p {} 0).1).converged = true ∧
      (solve p 0 {} .conservative (Classification.ofFunc p {} 0).1).warnings = [] ∧
      (Classification.ofFunc p {} 0).1.classOf (.inst 3) = .data ∧
      Rewriter.constantOf
        { analysis := solve p 0 {} .conservative (Classification.ofFunc p {} 0).1
          names := ({} : Options).names } p 4 (.inst 3) = some 7 ∧
      ∃ m ∈ Machine.after? p {} givenWorld 0 4, m.rest = [4, 5] ∧ m.env 3 = some (.handle 0))
      (by decide +kernel)
  have hn := Classification.ofFunc_numbered p {} 0
  have hacyclic := Program.acyclic_of_lt hp hlt
  have ht := (run_settled hp hv hn (run_of_converged hconv)).trackable hphis hmerges hquiet
  have hw := separate_givenWorld (Classification.ofFunc p {} 0).1
  have hcomes : m.ComesTo p {} givenWorld 0 4 := .next (Machine.reaches_of_after hm) hrest
  exact ⟨p, m, hload, hp, hv, hacyclic, hconv, ht, hw, hcomes,
    holds_of_constantOf hp hv hacyclic hcalls .conservative hconv ht hw hcomes hclass henv hconst⟩

/-- Two parameters are set one after the other. -/
def twiceText : String :=
  "define i64 @f(ptr %a,ptr %b)\x7be:call void @write(ptr %a,i64 5)" ++
  "call void @write(ptr %b,i64 6)%x=call i64 @read(ptr %a)ret i64 %x\x7d"

/-- A caller that binds all that there is to one handle. -/
def twiceWorld : World where
  outside _ := some (.handle 0)
  heap := { objects := [3] }

/-- One handle under two names is set twice, and taken to hold what it has been set to first. -/
theorem not_holds_twice : ∃ (p : Program) (m : Machine) (u : Value),
    Program.load twiceText.toList = .ok p ∧ p.Linked ∧ p.verify 0 = [] ∧ p.Acyclic 0 ∧
    (∀ i ∈ p.instructions 0, ∀ callee ∈ (p.inst i).op.callee?,
      ({} : Options).kindOf callee ≠ .opaqueCall) ∧
    (solve p 0 {} .conservative (Classification.ofFunc p {} 0).1).converged = true ∧
    (solve p 0 {} .conservative (Classification.ofFunc p {} 0).1).warnings = [] ∧
    m.ComesTo p {} twiceWorld 0 2 ∧ (Classification.ofFunc p {} 0).1.classOf u = .data ∧
    m.eval twiceWorld u = some (.handle 0) ∧
    Rewriter.constantOf
      { analysis := solve p 0 {} .conservative (Classification.ofFunc p {} 0).1
        names := ({} : Options).names } p 2 u = some 5 ∧
    m.heap.objects[0]? = some 6 := by
  obtain ⟨p, hload, hp, hv, hlt, hcalls, hconv, hquiet, hclass, hconst, m, hm, hrest, hobj⟩ :=
    Program.exists_load (s := twiceText.toList) (P := fun p =>
      p.verify 0 = [] ∧ (∀ b ∈ (p.func 0).blocks, ∀ d ∈ p.successorBlocks b, b < d) ∧
      (∀ i ∈ p.instructions 0, ∀ callee ∈ (p.inst i).op.callee?,
        ({} : Options).kindOf callee ≠ .opaqueCall) ∧
      (solve p 0 {} .conservative (Classification.ofFunc p {} 0).1).converged = true ∧
      (solve p 0 {} .conservative (Classification.ofFunc p {} 0).1).warnings = [] ∧
      (Classification.ofFunc p {} 0).1.classOf (.param ⟨0, 0, "a", .ptr⟩) = .data ∧
      Rewriter.constantOf
        { analysis := solve p 0 {} .conservative (Classification.ofFunc p {} 0).1
          names := ({} : Options).names } p 2 (.param ⟨0, 0, "a", .ptr⟩) = some 5 ∧
      ∃ m ∈ Machine.after? p {} twiceWorld 0 2, m.rest = [2, 3] ∧ m.heap.objects[0]? = some 6)
      (by decide +kernel)
  exact ⟨p, m, _, hload, hp, hv, Program.acyclic_of_lt hp hlt, hcalls, hconv, hquiet,
    .next (Machine.reaches_of_after hm) hrest, hclass, rfl, hconst, hobj⟩

end Analysis

end BoxFlow
