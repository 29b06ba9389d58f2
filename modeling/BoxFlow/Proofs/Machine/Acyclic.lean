import BoxFlow.Proofs.Rewriting.Justified

/-!
# Functions without loops

In a closed function without loops, an instruction has one result in a run at most, so a number
stands for one value; and where no block has two phis, none is missed by the links that a phi makes.
So a quiet analysis is reliable there (`Analysis.reliable_of_acyclic`): wherever a run comes, what
has set an object last is among the definitions of all its handles, and what is constant is what the
object holds (`Analysis.faithful_of_acyclic`).
-/

namespace BoxFlow

open Relation (TransGen)

namespace Program

/-- No block of the function leads back to itself. -/
def Acyclic (p : Program) (f : FuncId) : Prop :=
  ∀ b ∈ (p.func f).blocks, ¬TransGen p.Flows b b

/-- No block of the function has two phis. -/
def SinglePhis (p : Program) (f : FuncId) : Prop :=
  ∀ b ∈ (p.func f).blocks, (p.phis b).length ≤ 1

instance (p : Program) (f : FuncId) : Decidable (p.SinglePhis f) :=
  inferInstanceAs (Decidable (∀ b ∈ (p.func f).blocks, _))

theorem SinglePhis.phis_eq {p : Program} {f : FuncId} {b : BlockId} {i : InstId}
    (h : p.SinglePhis f) (hb : b ∈ (p.func f).blocks) (hi : i ∈ p.phis b) : p.phis b = [i] := by
  obtain ⟨j, hj⟩ := List.length_eq_one_iff.1
    (Nat.le_antisymm (h b hb) (List.length_pos_of_mem hi))
  rw [hj] at hi ⊢
  rw [List.mem_singleton.1 hi]

theorem SinglePhis.eq {p : Program} {f : FuncId} {b : BlockId} {i j : InstId}
    (h : p.SinglePhis f) (hb : b ∈ (p.func f).blocks) (hi : i ∈ p.phis b) (hj : j ∈ p.phis b) :
    i = j := by
  rw [h.phis_eq hb hi, List.mem_singleton] at hj
  exact hj.symm

/-- Where blocks lead to later ones only, there is no loop. -/
theorem acyclic_of_lt {p : Program} {f : FuncId} (hp : p.Linked)
    (h : ∀ b ∈ (p.func f).blocks, ∀ d ∈ p.successorBlocks b, b < d) : p.Acyclic f := by
  intro b hb hcycle
  have hlt {d : BlockId} (hd : TransGen p.Flows b d) : d ∈ (p.func f).blocks ∧ b < d := by
    induction hd with
    | single hd => exact ⟨hp.successor_within hb hd, h b hb _ hd⟩
    | tail _ hd ih =>
      exact ⟨hp.successor_within ih.1 hd, Nat.lt_trans ih.2 (h _ ih.1 _ hd)⟩
  exact Nat.lt_irrefl _ (hlt hcycle).2

end Program

namespace Machine

/-- A run comes to instruction `i`: either it is to act next, or it is a phi of the block that
control is about to enter. -/
inductive ComesTo (p : Program) (o : Options) (w : World) (f : FuncId) (m : Machine) (i : InstId) :
    Prop
  | next {rest : List InstId} : Reaches p o w f m → m.rest = i :: rest → ComesTo p o w f m i
  | phi {j : InstId} {rest : List InstId} {c : Option Value} {targets : List BlockId} {b : BlockId} :
    Reaches p o w f m → m.rest = j :: rest → (p.inst j).op = .br c targets →
    m.target? w c targets = some b → i ∈ p.phis b → ComesTo p o w f m i

theorem ComesTo.reaches {p : Program} {o : Options} {w : World} {f : FuncId} {m : Machine}
    {i : InstId} (h : ComesTo p o w f m i) : Reaches p o w f m := by
  cases h with
  | next h | phi h => exact h

end Machine

namespace Analysis

/-- The facts hold good in every run: where it comes to an instruction, the call that has set the
object of a handle last is among the definitions of the handle, and if the handle is constant then
the object holds the constant. -/
structure Faithful (a : Analysis) (o : Options) : Prop where
  defined : ∀ {w m i j g}, Machine.ComesTo a.program o w a.func m i →
    a.cls.classOf (.inst j) = .data → m.env j = some (.handle g) →
    ∃ d, m.setter g = some d ∧ ∃ id ∈ a.definitions i (.inst j),
      a.cls.arena.value? id = some (.inst d)
  constant : ∀ {w m i j g c}, Machine.ComesTo a.program o w a.func m i →
    a.cls.classOf (.inst j) = .data → m.env j = some (.handle g) →
    Rewriter.constantOf { analysis := a, names := o.names } a.program i (.inst j) = some c →
    m.heap.objects[g]? = some (.ofInt 64 c)

variable {p : Program} {o : Options} {w : World} {f : FuncId} {a : Analysis} {m : Machine}
  {i : InstId}

theorem Settled.classifies (ha : a.Settled p f (Classification.ofFunc p o f).1) :
    a.Classifies p o where
  kinds hi hop := by
    rw [ha.func] at hi
    rw [ha.cls]
    exact Classification.kindOf_ofFunc hi hop
  handles hi hop hx hlit := by
    rw [ha.func] at hi
    rw [ha.classOf (Classification.ofFunc_numbered p o f)]
    exact Classification.classOf_handleArg hi hop hx hlit

/-! ## Numbers of definitions -/

/-- What is recorded mentions numbers only that have been given. -/
theorem Settled.before_within {c : Classification} {s : Facts} (ha : a.Settled p f c)
    (hw : a.ExitsWithin a.cls.arena.size) (hs : a.before[i]? = some s) :
    s.knowledge.Within (ids a.cls.arena.size) := by
  obtain ⟨b, hb, hi⟩ := ha.recorded i (.inl (mem_of_getElem?_eq_some hs))
  obtain ⟨e, he⟩ := mem_iff_getElem?_eq_some.1 hb
  obtain ⟨pre, post, hsplit⟩ := List.append_of_mem hi
  obtain ⟨s', -, hs', -, hk, -⟩ := (ha.stable he).facts pre i post hsplit
  obtain rfl : s = s' := Option.some.inj (hs.symm.trans hs')
  rw [hk]
  refine View.effects_within (fun j hj => (ha.stable he).reserved j ?_) hw
    (entry_within ha.numbered hw)
  rw [hsplit]
  exact List.mem_append_left _ hj

theorem mem_of_mem_definitions {s : Facts} {S : Set Id} {v : Value} {x : Id}
    (hs : a.before[i]? = some s) (hw : s.knowledge.Within S) (hx : x ∈ a.definitions i v) :
    x ∈ S := by
  rw [definitions, idsIn, factsBefore_eq hs] at hx
  split at hx
  · exact (hw.defs (Std.ExtTreeSet.mem_toList.1 hx)).2
  · cases hx

/-- The value of a number that has been given to it. -/
theorem value?_idOf {x : Value} (h : a.idOf x ∈ ids a.cls.arena.size) :
    a.cls.arena.value? (a.idOf x) = some x := by
  rcases h with h | ⟨-, hlt⟩
  · exact absurd h (a.idOf_ne_unknown x)
  · cases hfind : a.cls.arena.find x with
    | some q =>
      obtain ⟨h0, hq⟩ := Arena.find_eq_some_iff.1 hfind
      rw [View.idOf, Arena.idOf_of_find hfind, Arena.value?, if_pos h0]
      exact hq
    | none =>
      rw [View.idOf, Arena.idOf, hfind] at hlt
      exact absurd hlt (Int.lt_irrefl _)

/-! ## Runs -/

section Acyclic

variable (hp : p.Linked) (hv : p.verify f = [])
  (ha : a.Settled p f (Classification.ofFunc p o f).1) (hphis : p.SinglePhis f)
include hp hv ha hphis

theorem reliable_of_acyclic (hacyclic : p.Acyclic f) (hquiet : a.warnings = []) : a.Reliable where
  quiet := hquiet
  phis {b q i j} hb hi hj hij _ _ := by
    rw [ha.program, ha.func] at hb
    rw [ha.program] at hi hj
    exact absurd (hphis.eq hb hi hj) hij
  stored {i b} hi _ hib := by
    rw [ha.program] at hib ⊢
    rw [ha.program, ha.func] at hi
    obtain ⟨j, hj, pointer, hop⟩ := hi
    obtain ⟨d, hd, hjd⟩ := List.mem_flatMap.1 hj
    have hi := Program.operand_of_verify hv hd hjd (j := i) (by rw [hop]; exact List.mem_cons_self)
    obtain ⟨e, he, hie⟩ := List.mem_flatMap.1 hi
    obtain rfl : e = b := Option.some.inj ((hp.held hie).symm.trans (hp.held hib))
    exact hacyclic e he

variable (hc : p.Closed o f) (hr : a.Reliable) (hq : a.Quiet)
include hc hr hq

/-- Where a run comes to an instruction, the facts before it cover the machine. -/
theorem covers_of_comesTo (h : m.ComesTo p o w f i) :
    ∃ s, a.before[i]? = some s ∧ m.Covers p f w a.toView s.knowledge := by
  cases h with
  | next h hrest => exact ha.covers_before hp hv hc hr hq h hrest
  | @phi j rest c targets b h hrest hop ht hi =>
    obtain ⟨pre, hm⟩ := Machine.reaches_located hp hv h
    have hflow := hm.flows hp hrest hop ht
    have hb := hp.successor_within hm.block hflow
    have hcov := ha.covers hp hv hc hr hq h pre hm (by simp [hrest])
    obtain ⟨-, -, -, hentry⟩ := ha.covers_edge hp hv h hm hcov hrest hop ht
    obtain ⟨e, he⟩ := mem_iff_getElem?_eq_some.1
      (ha.visited_of_successor (Machine.reaches_visited hp hv ha h) hflow)
    -- The phi is the first instruction of the block that control is about to enter.
    obtain ⟨s, -, hs, -, hk, -⟩ := (ha.stable he).facts [] i (p.body b)
      (by rw [Program.insts_eq_phis_append hp hv hb, hphis.phis_eq hb hi]; rfl)
    exact ⟨s, hs, by rw [hk]; exact hentry⟩

theorem faithful_of_settled (hw : a.ExitsWithin a.cls.arena.size) : a.Faithful o := by
  have hdefined {w m i j g} (h : Machine.ComesTo p o w f m i)
      (hclass : a.cls.classOf (.inst j) = .data) (hj : m.env j = some (.handle g)) :
      ∃ s d, a.before[i]? = some s ∧ m.setter g = some d ∧
        a.idOf (.inst d) ∈ a.definitions i (.inst j) := by
    obtain ⟨s, hs, hcov⟩ := covers_of_comesTo hp hv ha hphis hc hr hq h
    obtain ⟨d, hset, hmem⟩ := mem_definitions_of_covers hp hv hc h.reaches hs hcov hclass hj
    exact ⟨s, d, hs, hset, hmem⟩
  refine ⟨fun {w m i j g} h hclass hj => ?_, fun {w m i j g c} h hclass hj hconst => ?_⟩
  · rw [ha.program, ha.func] at h
    obtain ⟨s, d, hs, hset, hmem⟩ := hdefined h hclass hj
    exact ⟨d, hset, _, hmem, value?_idOf (mem_of_mem_definitions hs (ha.before_within hw hs) hmem)⟩
  · rw [ha.program, ha.func] at h
    rw [ha.program] at hconst
    obtain ⟨-, d, -, hset, hmem⟩ := hdefined h hclass hj
    obtain ⟨-, hlt⟩ := (Machine.reaches_proper hp hv hc h.reaches).env hj
    have hreach := h.reaches
    rw [← ha.func] at hreach
    have hstart := Rewriting.start hp a o.names (Fate.Justified p o a.func)
    rw [List.getElem?_eq_getElem hlt, ← hstart.eq_of_mem_definitions ha.classifies hp hreach
      (List.getElem?_eq_getElem hlt) (by rwa [hset]) hconst]

end Acyclic

/-- The definitions that a quiet analysis has found in a closed function without loops and with one
phi a block at most hold good in every run. -/
theorem faithful_of_acyclic (hp : p.Linked) (hv : p.verify f = []) (hc : p.Closed o f)
    (hacyclic : p.Acyclic f) (hphis : p.SinglePhis f) (oracle : Oracle)
    (hconv : (solve p f o oracle (Classification.ofFunc p o f).1).converged = true)
    (hquiet : (solve p f o oracle (Classification.ofFunc p o f).1).warnings = []) :
    (solve p f o oracle (Classification.ofFunc p o f).1).Faithful o := by
  have hrun := run_of_converged hconv
  have hn := Classification.ofFunc_numbered p o f
  have ha := run_settled hp hv hn hrun
  exact faithful_of_settled hp hv ha hphis hc
    (reliable_of_acyclic hp hv ha hphis hacyclic hquiet) (run_quiet hp hn hrun)
    (run_bounds hp hn hrun).2

/-- A handle that is stored, set on one of two ways, and loaded where they meet. -/
def joinText : String :=
  "define i64 @f()\x7be:%a=call ptr @create(i64 1)%b=call ptr @create(i64 2)%p=alloca ptr " ++
  "store ptr %a,ptr %p br i1 1,label %x,label %y x:call void @write(ptr %a,i64 5)br label %j " ++
  "y:br label %j j:%m=phi ptr[%a,%x],[%b,%y]%l=load ptr,ptr %p %v=call i64 @read(ptr %l)ret i64 %v\x7d"

theorem faithful_of_acyclic_join : ∃ p, Program.load joinText.toList = .ok p ∧ p.Linked ∧
    p.verify 0 = [] ∧ p.Closed {} 0 ∧ p.Acyclic 0 ∧ p.SinglePhis 0 ∧
    (solve p 0 {} .conservative (Classification.ofFunc p {} 0).1).converged = true ∧
    (solve p 0 {} .conservative (Classification.ofFunc p {} 0).1).warnings = [] ∧
    (solve p 0 {} .conservative (Classification.ofFunc p {} 0).1).Faithful {} ∧
    ∃ m, Machine.ComesTo p {} {} 0 m 10 ∧ m.env 9 = some (.handle 0) ∧ m.setter 0 = some 5 := by
  obtain ⟨p, hload, hp, hv, hc, hlt, hphis, hconv, hquiet, m, hm, hrest, hat⟩ :=
    Program.exists_load (s := joinText.toList) (P := fun p =>
      p.verify 0 = [] ∧ p.Closed {} 0 ∧
      (∀ b ∈ (p.func 0).blocks, ∀ d ∈ p.successorBlocks b, b < d) ∧ p.SinglePhis 0 ∧
      (solve p 0 {} .conservative (Classification.ofFunc p {} 0).1).converged = true ∧
      (solve p 0 {} .conservative (Classification.ofFunc p {} 0).1).warnings = [] ∧
      ∃ m ∈ Machine.after? p {} {} 0 8,
        m.rest = [10, 11] ∧ m.env 9 = some (.handle 0) ∧ m.setter 0 = some 5)
      (by decide +kernel)
  have hacyclic := Program.acyclic_of_lt hp hlt
  exact ⟨p, hload, hp, hv, hc, hacyclic, hphis, hconv, hquiet,
    faithful_of_acyclic hp hv hc hacyclic hphis .conservative hconv hquiet,
    m, .next (Machine.reaches_of_after hm) hrest, hat⟩

end Analysis

end BoxFlow
