import BoxFlow.Proofs.Dataflow.Paths
import BoxFlow.Proofs.Machine.Effects

/-!
# Facts that are true of every run

Truthful facts name, for every handle, what has set its object last. The facts of a converged
analysis of a closed function are truthful (`Analysis.Settled.truthful`) if they are reliable: the
analysis has not warned, no two phis of a block take what may be the same, and nothing that is made
in a loop is stored.
-/

namespace BoxFlow

open Relation (TransGen ReflTransGen)

/-! ## Phis -/

/-- Two phis of one block may take one handle or address from a predecessor. -/
def View.Siblings (v : View) (i j : InstId) (q : BlockId) : Prop :=
  ∃ xs ys s t e, (v.program.inst i).op = .phi xs ∧ (v.program.inst j).op = .phi ys ∧
    (.inst s, q) ∈ xs ∧ (.inst t, q) ∈ ys ∧ v.exits[q]? = some e ∧
    v.idOf (.inst t) ∈ e.knowledge.aliases (v.idOf (.inst s))

namespace Machine

variable {p : Program} {o : Options} {w : World} {f : FuncId} {v : View} {k : Knowledge}
  {m n : Machine} {i j : InstId} {x : Datum} {u : Value} {b : BlockId} {pre pre' rest : List InstId}

/-- The machine once the phis `is` have taken their values. -/
def taken (p : Program) (w : World) (m : Machine) (is : List InstId) : Machine :=
  { m with env := fun i => if i ∈ is then m.incoming? w (p.inst i).op else m.env i }

variable {l : List InstId}

theorem taken_append (hi : m.incoming? w (p.inst i).op = some x) :
    m.taken p w (l ++ [i]) = (m.taken p w l).assign i x := by
  unfold taken Machine.assign
  congr 1
  funext j
  by_cases hj : j = i
  · subst hj
    simp [hi]
  · simp [hj]

theorem eval_taken (hfresh : ∀ i ∈ l, m.Fresh p f v i) (hu : u ∈ p.stored f)
    (hc : v.cls.classOf u ≠ .irrelevant) (hx : m.eval w u = some x) :
    (m.taken p w l).eval w u = some x := by
  cases u with
  | inst j =>
    show (if j ∈ l then _ else _) = _
    split
    · next hj =>
      rw [eval, hfresh j hj hu hc] at hx
      cases hx
    · exact hx
  | _ => exact hx

/-- What comes in at a phi, if it is a handle or an address, is the result of a classified
instruction. -/
theorem incoming_classified (hs : Suited p o f v) (hc : p.Closed o f) (hi : i ∈ p.instructions f)
    (hclass : v.cls.classOf (.inst i) ≠ .irrelevant) (href : x.IsRef)
    (hx : m.incoming? w (p.inst i).op = some x) : ∃ xs s, (p.inst i).op = .phi xs ∧
      (.inst s, m.block) ∈ xs ∧ m.env s = some x ∧ v.cls.classOf (.inst s) ≠ .irrelevant ∧
      (v.cls.classOf (.inst i) = .data → v.cls.classOf (.inst s) = .data) := by
  obtain ⟨u, d, xs, hop, hmem, rfl, hu⟩ := incoming_eval hx
  have hmerged : u ∈ (p.inst i).op.merged := by
    rw [hop]
    exact List.mem_map_of_mem (f := Prod.fst) hmem
  obtain ⟨s, rfl⟩ := Covers.inst_of_operand hc hi
    (by rw [hop]; exact List.mem_map_of_mem (f := Prod.fst) hmem) href hu
  refine ⟨xs, s, hop, hmem, hu, ?_, hs.data hi hmerged rfl⟩
  cases hk : v.cls.classOf (.inst i) with
  | data => simp [hs.data hi hmerged rfl hk]
  | pointer => exact hs.pointer hi hmerged rfl hk
  | irrelevant => exact absurd hk hclass

/-- What a phi takes is among its sources, also once other phis of its block have taken theirs. -/
theorem Covers.exists_source (hs : Suited p o f v) (hc : p.Closed o f) {e : Facts}
    (he : v.exits[m.block]? = some e) (hexit : Covers p f w v e.knowledge m)
    (hl : ∀ j ∈ l, j ∈ p.instructions f) (hfresh : ∀ j ∈ l, m.Fresh p f v j)
    (hi : i ∈ p.instructions f) {xs : List (Value × BlockId)} (hop : (p.inst i).op = .phi xs)
    (hx : m.incoming? w (p.inst i).op = some x) (href : x.IsRef)
    (hclass : v.cls.classOf (.inst i) ≠ .irrelevant)
    (hsib : ∀ j ∈ l, j ≠ i → v.cls.classOf (.inst j) ≠ .irrelevant → ¬v.Siblings i j m.block) :
    ∃ q ∈ v.phiSources xs, Takes p f w v i x (m.taken p w l) q := by
  obtain ⟨xs', s, hop', hsmem, hes, hsclass, hsdata⟩ := incoming_classified hs hc hi hclass href hx
  obtain rfl : xs = xs' := by rw [hop] at hop'; cases hop'; rfl
  have htakes := hexit.takes (i := i) hes href hsdata (fun _ => hsclass) hclass
  refine ⟨(v.idOf (.inst s), e.knowledge), ⟨.inst s, m.block, e, hsmem,
    Classification.find_of_classOf hsclass, he, rfl⟩, fun {j} hj hej hji => ?_, htakes.defs,
    fun hk heq hy => ?_, htakes.cells⟩
  · have hej : (if j ∈ l then m.incoming? w (p.inst j).op else m.env j) = some x := hej
    split at hej
    · next hjl =>
      -- A phi that has taken the same before is a sibling.
      obtain ⟨ys, t, hopj, htmem, het, htclass, -⟩ :=
        incoming_classified hs hc (hl j hjl) hj href hej
      refine absurd ⟨xs, ys, s, t, e, ?_, ?_, hsmem, htmem, he, ?_⟩ (hsib j hjl hji hj)
      · rw [hs.program, hop]
      · rw [hs.program, hopj]
      · exact hexit.aliases hsclass htclass href hes het
    · exact htakes.aliases hj hej hji
  · obtain ⟨u, hu, humem, heval⟩ := htakes.pointsTo hk heq hy
    exact ⟨u, hu, humem, fun hcl => eval_taken hfresh hu hcl (heval hcl)⟩

/-- The effects of phis, one after another, cover that they take their values at once. -/
theorem Covers.phis (hs : Suited p o f v) (hc : p.Closed o f) {e : Facts}
    (he : v.exits[m.block]? = some e) (hexit : Covers p f w v e.knowledge m)
    (h : Covers p f w v k m) (hphis : ∀ i ∈ l, i ∈ p.instructions f)
    (hfresh : ∀ i ∈ l, m.Fresh p f v i) (hnodup : l.Nodup)
    (hsib : ∀ i ∈ l, ∀ j ∈ l, i ≠ j → v.cls.classOf (.inst i) ≠ .irrelevant →
      v.cls.classOf (.inst j) ≠ .irrelevant → ¬v.Siblings i j m.block)
    (hin : ∀ i ∈ l, ∃ x, m.incoming? w (p.inst i).op = some x) :
    Covers p f w v (v.effects l k) (m.taken p w l) := by
  -- One phi after another, the last one first to go.
  induction l using List.reverseRecOn with
  | nil => exact h.congr rfl (fun _ hset => hset) fun _ hx => hx
  | append_singleton l i ih =>
    have hmem {j} (hj : j ∈ l) : j ∈ l ++ [i] := List.mem_append_left _ hj
    have hlast : i ∈ l ++ [i] := by simp
    have hnot : i ∉ l := fun hi => (List.nodup_append.1 hnodup).2.2 i hi i (by simp) rfl
    have hbefore := ih (fun j hj => hphis j (hmem hj)) (fun j hj => hfresh j (hmem hj))
      (List.nodup_append.1 hnodup).1 (fun j hj j' hj' => hsib j (hmem hj) j' (hmem hj'))
      (fun j hj => hin j (hmem hj))
    obtain ⟨x, hx⟩ := hin i hlast
    obtain ⟨-, -, xs, hop, -⟩ := incoming_eval hx
    have hfresh' : (m.taken p w l).Fresh p f v i := fun hstored hclass =>
      (if_neg hnot).trans (hfresh i hlast hstored hclass)
    rw [View.effects_append, View.effects_cons, View.effect_phi (by rw [hs.program, hop]),
      taken_append hx]
    exact hbefore.merge hfresh' fun hclass href => exists_source hs hc he hexit
      (fun j hj => hphis j (hmem hj)) (fun j hj => hfresh j (hmem hj)) (hphis i hlast) hop hx href
      hclass fun j hj hji => hsib i hlast j (hmem hj) (Ne.symm hji) hclass

/-! ## Runs -/

/-- A terminator ends its block. -/
theorem Located.rest_of_terminator (hp : p.Linked) (hv : p.verify f = []) (h : Located p f m pre)
    (hr : m.rest = i :: rest) (ht : (p.inst i).op.isTerminator = true) : rest = [] := by
  have hi : i ∈ (p.block m.block).insts := by rw [h.insts, hr]; simp
  have hlast := Program.getLast?_of_verify hv h.block hi ht
  have hnodup := hp.nodup (b := m.block)
  rw [h.insts, hr] at hlast hnodup
  rcases List.eq_nil_or_concat rest with rfl | ⟨l, j, rfl⟩
  · rfl
  · rw [List.concat_eq_append, ← List.cons_append, ← List.append_assoc,
      List.getLast?_concat] at hlast
    cases hlast
    have := (List.nodup_append.1 hnodup).2.1
    simp at this

/-- Control stays where the analysis has been. -/
theorem reaches_visited {c : Classification} {a : Analysis} (hp : p.Linked) (hv : p.verify f = [])
    (ha : a.Settled p f c) (h : Reaches p o w f m) : m.block ∈ a.exits := by
  refine h.induction (P := fun m => m.block ∈ a.exits) ?_ ?_
  · intro m hs
    obtain ⟨b, hb, rfl⟩ := Option.map_eq_some_iff.1 hs
    obtain ⟨hmem, hpred⟩ := Program.predecessors_entry hv hb
    refine (ha.visited b).2 ⟨b, List.mem_filter.2 ⟨hmem, ?_⟩, .refl⟩
    rw [hpred]
    rfl
  · intro m n hreach hm hmove
    obtain ⟨pre, hloc⟩ := reaches_located hp hv hreach
    cases hmove with
    | act => rw [perform_block]; exact hm
    | @jump i rest c targets b _ hr hop ht hn =>
      obtain ⟨-, rfl⟩ := enter_eq_some hn
      exact ha.visited_of_successor hm (hloc.flows hp hr hop ht)
    | ret => exact hm

end Machine

/-! ## Reliable facts -/

namespace Analysis

/-- What makes the facts of an analysis true of every run of a closed function. -/
structure Reliable (a : Analysis) : Prop where
  /-- Every rule has been applied. -/
  quiet : a.warnings = []
  /-- No two phis of a block take what may be one handle or cell from a predecessor: the rules link
  the result of a phi with the values before it, and not with what the other phis take. -/
  phis : ∀ {b q i j}, b ∈ (a.program.func a.func).blocks → i ∈ a.program.phis b →
    j ∈ a.program.phis b → i ≠ j → a.cls.classOf (.inst i) ≠ .irrelevant →
    a.cls.classOf (.inst j) ≠ .irrelevant → ¬a.Siblings i j q
  /-- No handle or cell that is stored comes from a loop: a number stands for the last value of an
  instruction only. -/
  stored : ∀ {i b}, .inst i ∈ a.program.stored a.func → a.cls.classOf (.inst i) ≠ .irrelevant →
    i ∈ (a.program.block b).insts → ¬TransGen a.program.Flows b b

/-- In every run, the call that has set an object last is among the definitions of each handle, and
`unknown` is if it was something else. -/
def Truthful (a : Analysis) (o : Options) : Prop :=
  ∀ {w m i rest u g}, Machine.Reaches a.program o w a.func m → m.rest = i :: rest → i ∈ a.before →
    u ∈ (a.program.inst i).op.operands → a.cls.classOf u = .data → m.eval w u = some (.handle g) →
    (m.setter g).elim unknown (fun d => a.idOf (.inst d)) ∈ a.definitions i u

variable {p : Program} {o : Options} {w : World} {f : FuncId} {a : Analysis} {m : Machine}
  {i : InstId} {rest pre : List InstId}

/-- Values keep the classes that they had before the analysis. -/
theorem Settled.classOf {c : Classification} (ha : a.Settled p f c) (hc : c.Numbered) (x : Value) :
    a.cls.classOf x = c.classOf x := by
  have hgrown : View.Grown [] { a.toView with cls := c } a.toView :=
    ⟨rfl, rfl, ha.cls, ha.arena, fun _ _ => rfl⟩
  exact hgrown.classOf hc x

theorem Settled.suited (ha : a.Settled p f (Classification.ofFunc p o f).1) :
    Machine.Suited p o f a.toView := by
  have hclass := ha.classOf (Classification.ofFunc_numbered p o f)
  refine ⟨ha.program, ha.numbered, fun hi hop => ?_, fun hi hx hlit hk => ?_,
    fun hi hx hlit hk => ?_⟩
  · rw [ha.cls]
    exact Classification.kindOf_ofFunc hi hop
  · rw [hclass] at hk ⊢
    exact (Classification.classOf_merged hi hx hlit).1 hk
  · rw [hclass] at hk ⊢
    exact (Classification.classOf_merged hi hx hlit).2 hk

section Runs

variable (hp : p.Linked) (hv : p.verify f = []) (hc : p.Closed o f)
  (ha : a.Settled p f (Classification.ofFunc p o f).1) (hr : a.Reliable)
include hp hv ha

/-- What is recorded before an instruction that a run comes by. -/
theorem Settled.recorded_of_reaches (h : Machine.Reaches p o w f m) (hm : m.Located p f pre)
    (hrest : m.rest = i :: rest) : ∃ s, a.before[i]? = some s ∧
      s.knowledge = a.effects pre (a.entry m.block).knowledge := by
  obtain ⟨e, he⟩ := mem_iff_getElem?_eq_some.1 (Machine.reaches_visited hp hv ha h)
  obtain ⟨s, -, hs, -, hk, -⟩ := (ha.stable he).facts pre i rest (by rw [hm.insts, hrest])
  exact ⟨s, hs, hk⟩

/-- Where control is about to enter a block, the facts at its start say all that those at the end of
the block say that it leaves. -/
theorem Settled.knowledge_edge {c : Option Value} {targets : List BlockId} {b : BlockId}
    (h : Machine.Reaches p o w f m) (hm : m.Located p f pre) (hrest : m.rest = i :: rest)
    (hop : (p.inst i).op = .br c targets) (ht : m.target? w c targets = some b) :
    ∃ e, a.exits[m.block]? = some e ∧ e.knowledge = a.effects pre (a.entry m.block).knowledge ∧
      e.knowledge ≤ (a.entry b).knowledge := by
  obtain ⟨e, he⟩ := mem_iff_getElem?_eq_some.1 (Machine.reaches_visited hp hv ha h)
  have hend : e.knowledge = a.effects pre (a.entry m.block).knowledge := by
    obtain rfl := hm.rest_of_terminator hp hv hrest (by rw [hop]; rfl)
    rw [(ha.stable he).out, hm.insts, hrest, View.effects_append, View.effects_cons,
      View.effect_terminator (by rw [ha.program, hop]; rfl)]
    rfl
  exact ⟨e, he, hend, ha.exit_le_entry hp (hm.flows hp hrest hop ht) he⟩

/-- Where control is about to enter a block, the facts at its start cover the machine, as those at
the end of the block do that it leaves. -/
theorem Settled.covers_edge {c : Option Value} {targets : List BlockId} {b : BlockId}
    (h : Machine.Reaches p o w f m) (hm : m.Located p f pre)
    (hcov : m.Covers p f w a.toView (a.effects pre (a.entry m.block).knowledge))
    (hrest : m.rest = i :: rest) (hop : (p.inst i).op = .br c targets)
    (ht : m.target? w c targets = some b) :
    ∃ e, a.exits[m.block]? = some e ∧ m.Covers p f w a.toView e.knowledge ∧
      m.Covers p f w a.toView (a.entry b).knowledge := by
  obtain ⟨e, he, hend, hle⟩ := ha.knowledge_edge hp hv h hm hrest hop ht
  obtain ⟨hdefs, haliases, hpoints⟩ := Knowledge.le_iff.1 hle
  rw [← hend] at hcov
  exact ⟨e, he, hcov, hcov.mono haliases hdefs fun x _ _ hq => hpoints x hq⟩

include hr

theorem Settled.fresh (h : Machine.Reaches p o w f m) (hm : m.Located p f pre)
    (hrest : m.rest = i :: rest) : m.Fresh p f a.toView i := by
  intro hstored hclass
  by_contra hne
  have hcycle := Machine.cycle_of_passed hp hm hrest (Machine.reaches_passed hp hv h pre hm) hne
  rw [← ha.program] at hcycle hstored
  refine hr.stored (ha.func ▸ hstored) hclass ?_ hcycle
  rw [ha.program, hm.insts, hrest]
  simp

include hc

/-- What covers the machine before an action covers it, with the effect, after. -/
theorem Settled.covers_act {act : Action} (hq : a.Quiet) (h : Machine.Reaches p o w f m)
    (hm : m.Located p f pre)
    (hcov : m.Covers p f w a.toView (a.effects pre (a.entry m.block).knowledge))
    (hrest : m.rest = i :: rest) (hact : m.action o w (p.inst i).op = some act) :
    (m.perform w i act).Covers p f w a.toView
      (a.effects (pre ++ [i]) (a.entry m.block).knowledge) := by
  obtain ⟨s, hbefore, hk⟩ := ha.recorded_of_reaches hp hv h hm hrest
  have hcons := hq hr.quiet i s hbefore
  rw [hk] at hcons
  rw [View.effects_append]
  exact hcov.perform ha.suited hc (hm.mem_instructions hrest) (Machine.reaches_proper hp hv hc h)
    (ha.fresh hp hv hr h hm hrest) hcons hact

/-- What covers the machine at the end of a block covers it, with the effects of the phis, in the
block that control enters. -/
theorem Settled.covers_jump {c : Option Value} {targets : List BlockId} {b : BlockId} {n : Machine}
    (h : Machine.Reaches p o w f m) (hm : m.Located p f pre)
    (hcov : m.Covers p f w a.toView (a.effects pre (a.entry m.block).knowledge))
    (hrest : m.rest = i :: rest) (hop : (p.inst i).op = .br c targets)
    (ht : m.target? w c targets = some b) (hn : m.enter p w b = some n) :
    n.Covers p f w a.toView (a.effects (p.phis b) (a.entry b).knowledge) := by
  have hs : Machine.Suited p o f a.toView := ha.suited
  have hflow := hm.flows hp hrest hop ht
  have hb := hp.successor_within hm.block hflow
  have hpass := Machine.reaches_passed hp hv h pre hm
  obtain ⟨e, he, hexit, hentry⟩ := ha.covers_edge hp hv h hm hcov hrest hop ht
  obtain ⟨hin, rfl⟩ := Machine.enter_eq_some hn
  have hphi {i} (hi : i ∈ p.phis b) : i ∈ (p.block b).insts := (List.mem_filter.1 hi).1
  refine (Machine.Covers.phis (l := p.phis b) hs hc he hexit hentry ?_ ?_ ?_ ?_ hin).congr rfl
    (fun _ hset => hset) fun _ hx => hx
  · exact fun i hi => List.mem_flatMap.2 ⟨b, hb, hphi hi⟩
  · intro i hi hstored hclass
    by_contra hset
    have hcycle := Machine.cycle_of_phi hp hm hflow hpass hi hset
    rw [← ha.program] at hcycle hstored
    refine hr.stored (ha.func ▸ hstored) hclass ?_ hcycle
    rw [ha.program]
    exact hphi hi
  · exact hp.nodup.filter _
  · intro i hi j hj hij hci hcj
    rw [← ha.program] at hi hj
    exact hr.phis (by rw [ha.program, ha.func]; exact hb) hi hj hij hci hcj

/-- What follows from the facts at the start of a block covers every run that comes by. -/
theorem Settled.covers (hq : a.Quiet) (h : Machine.Reaches p o w f m) : ∀ pre, m.Located p f pre →
    m.rest ≠ [] → m.Covers p f w a.toView (a.effects pre (a.entry m.block).knowledge) := by
  refine h.induction (P := fun m => ∀ pre, m.Located p f pre → m.rest ≠ [] →
    m.Covers p f w a.toView (a.effects pre (a.entry m.block).knowledge)) ?_ ?_
  · intro m hstart pre _ _
    obtain ⟨b, -, rfl⟩ := Option.map_eq_some_iff.1 hstart
    exact .of_env_eq_none fun _ => rfl
  · intro m n hreach ih hmove pre' hn hne
    obtain ⟨pre, hm⟩ := Machine.reaches_located hp hv hreach
    cases hmove with
    | act hrest hact =>
      have hcov := ih pre hm (by simp [hrest])
      obtain rfl := (hm.perform hrest _).unique hn
      rw [Machine.perform_block]
      exact (ha.covers_act hp hv hc hr hq hreach hm hcov hrest hact).congr rfl
        (fun _ hset => hset) fun _ hx => hx
    | jump hrest hop ht hent =>
      have hcov :=
        ha.covers_jump hp hv hc hr hreach hm (ih pre hm (by simp [hrest])) hrest hop ht hent
      obtain ⟨-, rfl⟩ := Machine.enter_eq_some hent
      obtain rfl := (Machine.located_enter hp hv hn.block rfl rfl).unique hn
      exact hcov
    | ret => exact absurd rfl hne

omit ha hr in
/-- Where the facts before an instruction cover the machine, what has set the object of a handle is
among its definitions. -/
theorem mem_definitions_of_covers {j : InstId} {g : Nat} {s : Facts}
    (h : Machine.Reaches p o w f m) (hbefore : a.before[i]? = some s)
    (hcov : m.Covers p f w a.toView s.knowledge) (hclass : a.cls.classOf (.inst j) = .data)
    (hj : m.env j = some (.handle g)) :
    ∃ d, m.setter g = some d ∧ a.idOf (.inst d) ∈ a.definitions i (.inst j) := by
  have hproper := Machine.reaches_proper hp hv hc h
  obtain ⟨d, hd⟩ := Option.ne_none_iff_exists'.1
    (hproper.setter (hproper.env hj).1 (hproper.env hj).2)
  refine ⟨d, hd, ?_⟩
  rw [definitions, factsBefore_eq hbefore]
  exact (mem_idsIn (by simp [hclass])).2 (hcov.defs hclass hj hd)

/-- The facts before the next instruction cover the machine. -/
theorem Settled.covers_before (hq : a.Quiet) (h : Machine.Reaches p o w f m)
    (hrest : m.rest = i :: rest) :
    ∃ s, a.before[i]? = some s ∧ m.Covers p f w a.toView s.knowledge := by
  obtain ⟨pre, hm⟩ := Machine.reaches_located hp hv h
  obtain ⟨s, hbefore, hk⟩ := ha.recorded_of_reaches hp hv h hm hrest
  refine ⟨s, hbefore, ?_⟩
  rw [hk]
  exact ha.covers hp hv hc hr hq h pre hm (by simp [hrest])

/-- Reliable facts are true of every run. -/
theorem Settled.truthful (hq : a.Quiet) : a.Truthful o := by
  intro w m i rest u g hreach hrest _ hu hclass heval
  rw [ha.program, ha.func] at hreach
  rw [ha.program] at hu
  obtain ⟨s, hbefore, hcov⟩ := ha.covers_before hp hv hc hr hq hreach hrest
  obtain ⟨pre, hm⟩ := Machine.reaches_located hp hv hreach
  obtain ⟨j, rfl⟩ := Machine.Covers.inst_of_operand hc (hm.mem_instructions hrest) hu
    (x := .handle g) trivial heval
  obtain ⟨d, hd, hmem⟩ := mem_definitions_of_covers hp hv hc hreach hbefore hcov hclass heval
  rwa [hd, Option.elim_some]

end Runs

end Analysis

end BoxFlow
