import BoxFlow.Proofs.Classification.Rules
import BoxFlow.Proofs.Dataflow.Kept
import BoxFlow.Proofs.Dataflow.Warnings
import BoxFlow.Proofs.Machine.Closed

/-!
# What is known covers what happens

Knowledge covers a machine if values that stand for one handle or address are aliases, what has set
an object last is known of all its handles, and what a cell holds is known of all its addresses
(`Covers`). A result keeps that up if it is linked to what stands for the same
(`Covers.assign_linked`, `Covers.merge`), as long as no value that has been stored changes its
meaning (`Fresh`).
-/

namespace BoxFlow

/-- What is stored anywhere in the function. -/
def Program.stored (p : Program) (f : FuncId) : Set Value :=
  {u | ∃ i ∈ p.instructions f, ∃ pointer, (p.inst i).op = .store u pointer}

namespace Machine

/-- The machine can be in no state that is not accounted for. -/
structure Covers (p : Program) (f : FuncId) (w : World) (v : View) (k : Knowledge) (m : Machine) :
    Prop where
  aliases : ∀ {i j x}, v.cls.classOf (.inst i) ≠ .irrelevant →
    v.cls.classOf (.inst j) ≠ .irrelevant → x.IsRef → m.env i = some x → m.env j = some x →
    v.idOf (.inst j) ∈ k.aliases (v.idOf (.inst i))
  defs : ∀ {i g d}, v.cls.classOf (.inst i) = .data → m.env i = some (.handle g) →
    m.setter g = some d → v.idOf (.inst d) ∈ k.defs (v.idOf (.inst i))
  pointsTo : ∀ {i c x}, v.cls.classOf (.inst i) = .pointer → m.env i = some (.cell c) →
    m.heap.cells[c]? = some (some x) → ∃ u ∈ p.stored f, v.idOf u ∈ k.pointsTo (v.idOf (.inst i)) ∧
      (v.cls.classOf u ≠ .irrelevant → m.eval w u = some x)
  cells : ∀ {i c}, m.env i = some (.cell c) → v.cls.classOf (.inst i) ≠ .data

/-- The view classifies a closed function by the rules of classification. -/
structure Suited (p : Program) (o : Options) (f : FuncId) (v : View) : Prop where
  program : v.program = p
  numbered : v.cls.Numbered
  kinds : ∀ {i callee args}, i ∈ p.instructions f → (p.inst i).op = .call callee args →
    v.cls.kindOf i = o.kindOf callee
  data : ∀ {i x}, i ∈ p.instructions f → x ∈ (p.inst i).op.merged → x.isLiteral = false →
    v.cls.classOf (.inst i) = .data → v.cls.classOf x = .data
  pointer : ∀ {i x}, i ∈ p.instructions f → x ∈ (p.inst i).op.merged → x.isLiteral = false →
    v.cls.classOf (.inst i) = .pointer → v.cls.classOf x ≠ .irrelevant

/-- If `i` is stored anywhere, it has had no result yet. -/
def Fresh (p : Program) (f : FuncId) (v : View) (m : Machine) (i : InstId) : Prop :=
  .inst i ∈ p.stored f → v.cls.classOf (.inst i) ≠ .irrelevant → m.env i = none

variable {p : Program} {o : Options} {w : World} {f : FuncId} {v : View} {k k' : Knowledge}
  {m n : Machine} {i j : InstId} {x : Datum} {u : Value} {s : Set Id}

theorem eval_assign (h : m.Fresh p f v i) (hu : u ∈ p.stored f)
    (hc : v.cls.classOf u ≠ .irrelevant) {y : Datum} (he : m.eval w u = some y) :
    (m.assign i x).eval w u = some y := by
  cases u with
  | inst j =>
    refine assign_env.2 (.inr ⟨?_, he⟩)
    rintro rfl
    rw [eval, h hu hc] at he
    cases he
  | _ => exact he

namespace Covers

/-- More may be known, and an unknown pointee be left out. -/
theorem mono (h : Covers p f w v k m) (ha : ∀ x, k.aliases x ⊆ k'.aliases x)
    (hd : ∀ x, k.defs x ⊆ k'.defs x)
    (hp : ∀ x q, q ≠ unknown → q ∈ k.pointsTo x → q ∈ k'.pointsTo x) : Covers p f w v k' m where
  aliases hi hj hx hei hej := ha _ (h.aliases hi hj hx hei hej)
  defs hi he hs := hd _ (h.defs hi he hs)
  pointsTo hi he hc := by
    obtain ⟨u, hu, hmem, heval⟩ := h.pointsTo hi he hc
    exact ⟨u, hu, hp _ _ (v.idOf_ne_unknown u) hmem, heval⟩
  cells := h.cells

/-- Nothing is known of a machine without results. -/
theorem of_env_eq_none (h : ∀ i, m.env i = none) : Covers p f w v k m where
  aliases _ _ _ he := absurd he (by simp [h])
  defs _ he := absurd he (by simp [h])
  pointsTo _ he := absurd he (by simp [h])
  cells he := absurd he (by simp [h])

/-- What changes where the function has no access does not matter. -/
theorem congr (h : Covers p f w v k m) (henv : n.env = m.env)
    (hset : ∀ {i g d}, m.env i = some (.handle g) → n.setter g = some d → m.setter g = some d)
    (hcells : ∀ {i c x}, m.env i = some (.cell c) → n.heap.cells[c]? = some (some x) →
      m.heap.cells[c]? = some (some x)) : Covers p f w v k n where
  aliases := henv ▸ h.aliases
  defs {i _ _} hi he hs := h.defs hi (henv ▸ he) (hset (i := i) (henv ▸ he) hs)
  pointsTo {i _ _} hi he hc := by
    obtain ⟨u, hu, hmem, heval⟩ := h.pointsTo hi (henv ▸ he) (hcells (i := i) (henv ▸ he) hc)
    refine ⟨u, hu, hmem, fun hcl => ?_⟩
    have := heval hcl
    cases u <;> first | exact this | exact (congrFun henv _).trans this
  cells he := h.cells (henv ▸ he)

/-- A result that is no handle and no address, or not classified. -/
theorem assign_plain (h : Covers p f w v k m) (hfresh : m.Fresh p f v i)
    (hx : x.IsRef → v.cls.classOf (.inst i) = .irrelevant) : Covers p f w v k (m.assign i x) where
  aliases {j l y} hj hl hy hej hel := by
    rcases assign_env.1 hej with ⟨rfl, rfl⟩ | ⟨-, hej⟩
    · exact absurd (hx hy) hj
    · rcases assign_env.1 hel with ⟨rfl, rfl⟩ | ⟨-, hel⟩
      · exact absurd (hx hy) hl
      · exact h.aliases hj hl hy hej hel
  defs {j g d} hj he hs := by
    rcases assign_env.1 he with ⟨rfl, rfl⟩ | ⟨-, he⟩
    · rw [hx trivial] at hj; cases hj
    · exact h.defs hj he hs
  pointsTo {j c y} hj he hc := by
    rcases assign_env.1 he with ⟨rfl, rfl⟩ | ⟨-, he⟩
    · rw [hx trivial] at hj; cases hj
    · obtain ⟨u, hu, hmem, heval⟩ := h.pointsTo hj he hc
      exact ⟨u, hu, hmem, fun hcl => eval_assign hfresh hu hcl (heval hcl)⟩
  cells {j c} he := by
    rcases assign_env.1 he with ⟨rfl, rfl⟩ | ⟨-, he⟩
    · rw [hx trivial]; decide
    · exact h.cells he

/-- A result that is linked to the values that stand for the same. -/
theorem assign_linked (h : Covers p f w v k m) (hfresh : m.Fresh p f v i)
    (hal : k'.aliases = (k.relink (v.idOf (.inst i)) s).aliases)
    (hdefs : ∀ q, q ≠ v.idOf (.inst i) → k.defs q ⊆ k'.defs q)
    (hpts : ∀ q r, q ≠ v.idOf (.inst i) → r ≠ unknown → r ∈ k.pointsTo q → r ∈ k'.pointsTo q)
    (hls : ∀ {j}, v.cls.classOf (.inst i) ≠ .irrelevant → v.cls.classOf (.inst j) ≠ .irrelevant →
      x.IsRef → m.env j = some x → v.idOf (.inst j) ∈ s)
    (hdef : ∀ {g d}, v.cls.classOf (.inst i) = .data → x = .handle g → m.setter g = some d →
      v.idOf (.inst d) ∈ k'.defs (v.idOf (.inst i)))
    (hpt : ∀ {c y}, v.cls.classOf (.inst i) = .pointer → x = .cell c →
      m.heap.cells[c]? = some (some y) → ∃ u ∈ p.stored f,
        v.idOf u ∈ k'.pointsTo (v.idOf (.inst i)) ∧
          (v.cls.classOf u ≠ .irrelevant → m.eval w u = some y))
    (hcell : ∀ {c}, x = .cell c → v.cls.classOf (.inst i) ≠ .data) :
    Covers p f w v k' (m.assign i x) := by
  have hid {j} (hj : v.cls.classOf (.inst j) ≠ .irrelevant) (hne : j ≠ i) :
      v.idOf (.inst j) ≠ v.idOf (.inst i) := View.idOf_ne hj (by simpa using hne)
  refine ⟨fun {j l y} hj hl hy hej hel => ?_, fun {j g d} hj he hs => ?_,
    fun {j c y} hj he hc => ?_, fun {j c} he => ?_⟩
  · rw [hal]
    rcases assign_env.1 hej with ⟨rfl, rfl⟩ | ⟨hji, hej'⟩
    · rcases assign_env.1 hel with ⟨rfl, -⟩ | ⟨-, hel'⟩
      · exact .inl ⟨rfl, .inl rfl⟩
      · exact .inl ⟨rfl, .inr (hls hj hl hy hel')⟩
    · rcases assign_env.1 hel with ⟨rfl, rfl⟩ | ⟨hli, hel'⟩
      · exact .inr (.inl ⟨rfl, hls hl hj hy hej'⟩)
      · exact .inr (.inr ⟨hid hj hji, hid hl hli, h.aliases hj hl hy hej' hel'⟩)
  · rcases assign_env.1 he with ⟨rfl, rfl⟩ | ⟨hji, he⟩
    · exact hdef hj rfl hs
    · exact hdefs _ (hid (by simp [hj]) hji) (h.defs hj he hs)
  · rcases assign_env.1 he with ⟨rfl, rfl⟩ | ⟨hji, he⟩
    · obtain ⟨u, hu, hmem, heval⟩ := hpt hj rfl hc
      exact ⟨u, hu, hmem, fun hcl => eval_assign hfresh hu hcl (heval hcl)⟩
    · obtain ⟨u, hu, hmem, heval⟩ := h.pointsTo hj he hc
      exact ⟨u, hu, hpts _ _ (hid (by simp [hj]) hji) (v.idOf_ne_unknown u) hmem,
        fun hcl => eval_assign hfresh hu hcl (heval hcl)⟩
  · rcases assign_env.1 he with ⟨rfl, rfl⟩ | ⟨-, he⟩
    · exact hcell rfl
    · exact h.cells he

/-! ## Merges -/

/-- What is known of the value that a merge takes, where it takes it. -/
structure Takes (p : Program) (f : FuncId) (w : World) (v : View) (i : InstId) (x : Datum)
    (m : Machine) (q : Id × Knowledge) : Prop where
  aliases : ∀ {j}, v.cls.classOf (.inst j) ≠ .irrelevant → m.env j = some x → j ≠ i →
    v.idOf (.inst j) ∈ q.2.aliases q.1
  defs : ∀ {g d}, v.cls.classOf (.inst i) = .data → x = .handle g → m.setter g = some d →
    v.idOf (.inst d) ∈ q.2.defs q.1
  pointsTo : ∀ {c y}, v.cls.classOf (.inst i) = .pointer → x = .cell c →
    m.heap.cells[c]? = some (some y) → ∃ u ∈ p.stored f, v.idOf u ∈ q.2.pointsTo q.1 ∧
      (v.cls.classOf u ≠ .irrelevant → m.eval w u = some y)
  cells : ∀ {c}, x = .cell c → v.cls.classOf (.inst i) ≠ .data

/-- A covered value is taken with what is known of it. -/
theorem takes (h : Covers p f w v k m) (he : m.env j = some x) (hx : x.IsRef)
    (hdata : v.cls.classOf (.inst i) = .data → v.cls.classOf (.inst j) = .data)
    (hptr : v.cls.classOf (.inst i) = .pointer → v.cls.classOf (.inst j) ≠ .irrelevant)
    (hi : v.cls.classOf (.inst i) ≠ .irrelevant) :
    Takes p f w v i x m (v.idOf (.inst j), k) where
  aliases hl hel _ := by
    refine h.aliases ?_ hl hx he hel
    cases hk : v.cls.classOf (.inst i) with
    | data => simp [hdata hk]
    | pointer => exact hptr hk
    | irrelevant => exact absurd hk hi
  defs hk hg hs := h.defs (hdata hk) (hg ▸ he) hs
  pointsTo hk hc hy := by
    refine h.pointsTo ?_ (hc ▸ he) hy
    cases hj : v.cls.classOf (.inst j) with
    | data => exact absurd hj (h.cells (hc ▸ he))
    | pointer => rfl
    | irrelevant => exact absurd hj (hptr hk)
  cells hc hk := h.cells (hc ▸ he) (hdata hk)

theorem merge (h : Covers p f w v k m) (hfresh : m.Fresh p f v i) {sources : Set (Id × Knowledge)}
    (hsrc : v.cls.classOf (.inst i) ≠ .irrelevant → x.IsRef →
      ∃ q ∈ sources, Takes p f w v i x m q) :
    Covers p f w v (v.mergeEffect i k sources) (m.assign i x) := by
  unfold View.mergeEffect
  split
  · next hi => exact h.assign_plain hfresh fun _ => hi
  · next hi =>
    refine h.assign_linked (s := {r | ∃ q ∈ sources, r ∈ q.2.aliases q.1} ∪ {v.idOf (.inst i)})
      hfresh ?_ ?_ ?_ ?_ ?_ ?_ ?_
    · rw [Knowledge.describe_aliases]
      ext q r
      simp only [Knowledge.relink, Set.mem_ofPred_eq, Set.mem_union, Set.mem_singleton_iff]
      grind
    · intro q hq
      rw [Knowledge.describe_defs hq]
      exact subset_rfl
    · intro q r hq _ hr
      rwa [Knowledge.describe_pointsTo hq]
    · intro j hi hj hx he
      by_cases hji : j = i
      · exact .inr (by rw [hji]; rfl)
      · obtain ⟨q, hq, htakes⟩ := hsrc hi hx
        exact .inl ⟨q, hq, htakes.aliases hj he hji⟩
    · rintro g d hk rfl hs
      obtain ⟨q, hq, htakes⟩ := hsrc hi trivial
      rw [hk, Knowledge.mem_describe_data]
      exact ⟨q, hq, htakes.defs hk rfl hs⟩
    · rintro c y hk rfl hy
      obtain ⟨q, hq, htakes⟩ := hsrc hi trivial
      obtain ⟨u, hu, hmem, heval⟩ := htakes.pointsTo hk rfl hy
      refine ⟨u, hu, ?_, heval⟩
      rw [hk, Knowledge.mem_describe_pointer]
      exact ⟨q, hq, hmem⟩
    · rintro c rfl
      obtain ⟨q, hq, htakes⟩ := hsrc hi trivial
      exact htakes.cells rfl

end Covers

end Machine

end BoxFlow
