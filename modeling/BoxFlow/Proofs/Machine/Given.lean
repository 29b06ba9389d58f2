import BoxFlow.Proofs.Machine.Sources
import BoxFlow.Proofs.Machine.Covers

/-!
# What a function is given

A caller binds the parameters and globals of a function to handles and cells that exist already. The
facts keep track of a run (`Machine.Tracks`) if they account for what the function has in its hands,
and if what an unknown pointee stands for is as the caller has left it and out of the reach of
everything else (`Machine.Hidden`). That needs a caller that binds separate things
(`World.Separate`): seen from the function, no two ways lead to one object or cell.
-/

namespace BoxFlow

/-- What is reached from a value by so many loads, as the caller has left it. -/
def World.along (w : World) (u : Value) : Nat → Option Datum
  | 0 => w.outside u
  | d + 1 =>
    match w.along u d with
    | some (.cell c) => w.heap.cells[c]?.join
    | _ => none

theorem World.along_succ {w : World} {u : Value} {d c : Nat} {x : Datum}
    (h : w.along u d = some (.cell c)) (hx : w.heap.cells[c]? = some (some x)) :
    w.along u (d + 1) = some x := by
  simp [along, h, hx]

/-- A parameter or global that is a handle or a cell to the analysis. -/
structure Classification.Receives (c : Classification) (u : Value) : Prop where
  outside : u.isOutside = true
  classified : c.classOf u ≠ .irrelevant

/-- A caller that binds separate things: what is reached from the tracked parameters and globals is
there, and each handle and cell is reached in one way only. -/
structure World.Separate (c : Classification) (w : World) : Prop where
  inHeap : ∀ {u d x}, c.Receives u → w.along u d = some x → x.In w.heap
  unique : ∀ {u u' d d' x}, c.Receives u → c.Receives u' → x.IsRef → w.along u d = some x →
    w.along u' d' = some x → u = u' ∧ d = d'

namespace Machine

/-- The datum is what a classified value stands for. -/
def Exposes (v : View) (w : World) (m : Machine) (x : Datum) : Prop :=
  ∃ u, v.cls.classOf u ≠ .irrelevant ∧ m.eval w u = some x

/-- What is reached from `u` by `d` loads or more is as the caller has left it, and nothing that
matters stands for it. -/
structure Hidden (v : View) (w : World) (m : Machine) (u : Value) (d : Nat) : Prop where
  held : ∀ {e x}, d ≤ e → w.along u e = some x → x.IsRef → ¬m.Exposes v w x
  cells : ∀ {e c}, d ≤ e → w.along u e = some (.cell c) → m.heap.cells[c]? = w.heap.cells[c]?
  setter : ∀ {e g}, d ≤ e → w.along u e = some (.handle g) → m.setter g = none

/-- How the pointees of `q` account for the content `x` of cell `c`: it is what one of them stands
for, or it is unknown and hidden as yet. -/
inductive Content (v : View) (w : World) (k : Knowledge) (m : Machine) (q : Id) (c : Nat)
    (x : Datum) : Prop
  | known {u : Value} : v.idOf u ∈ k.pointsTo q →
    (v.cls.classOf u ≠ .irrelevant → m.eval w u = some x) → Content v w k m q c x
  | initial {u : Value} {d : Nat} : unknown ∈ k.pointsTo q → v.cls.Receives u →
    w.along u d = some (.cell c) → w.along u (d + 1) = some x → m.Hidden v w u (d + 1) →
    Content v w k m q c x

/-- What has set an object last, as the definitions of its handles name it. -/
def definer (v : View) (m : Machine) (g : Nat) : Id :=
  (m.setter g).elim unknown fun d => v.idOf (.inst d)

/-- The facts account for all that the function has in its hands. -/
structure Tracks (v : View) (w : World) (k : Knowledge) (m : Machine) : Prop where
  aliases : ∀ {s t x}, v.cls.classOf s ≠ .irrelevant → v.cls.classOf t ≠ .irrelevant → x.IsRef →
    m.eval w s = some x → m.eval w t = some x → v.idOf t ∈ k.aliases (v.idOf s)
  defs : ∀ {s g}, v.cls.classOf s = .data → m.eval w s = some (.handle g) →
    m.definer v g ∈ k.defs (v.idOf s)
  pointsTo : ∀ {s c x}, v.cls.classOf s = .pointer → m.eval w s = some (.cell c) →
    m.heap.cells[c]? = some (some x) → Content v w k m (v.idOf s) c x
  bounded : ∀ {s x}, v.cls.classOf s ≠ .irrelevant → m.eval w s = some x → x.In m.heap
  grown : ∀ {x : Datum}, x.In w.heap → x.In m.heap

variable {v : View} {w : World} {k k' : Knowledge} {m n : Machine} {i : InstId} {u s t : Value}
  {x y : Datum} {q r : Id} {c d g : Nat} {S : Set Id}

/-! ## New results -/

theorem eval_assign_iff : (m.assign i x).eval w u = some y ↔
    u = .inst i ∧ x = y ∨ u ≠ .inst i ∧ m.eval w u = some y := by
  cases u with
  | inst j => exact assign_env.trans (by simp [eval])
  | _ =>
    refine ⟨fun h => .inr ⟨by rintro ⟨⟩, h⟩, ?_⟩
    rintro (⟨⟨⟩, -⟩ | ⟨-, h⟩)
    exact h

theorem eval_assign_of_fresh (hfresh : m.env i = none) (h : m.eval w u = some y) :
    (m.assign i x).eval w u = some y := by
  refine eval_assign_iff.2 (.inr ⟨?_, h⟩)
  rintro rfl
  rw [eval, hfresh] at h
  cases h

theorem ne_of_eval (hfresh : m.env i = none) (h : m.eval w u = some y) : u ≠ .inst i := by
  rintro rfl
  rw [eval, hfresh] at h
  cases h

theorem Exposes.of_assign (h : (m.assign i x).Exposes v w y) :
    m.Exposes v w y ∨ v.cls.classOf (.inst i) ≠ .irrelevant ∧ x = y := by
  obtain ⟨u, hu, hy⟩ := h
  rcases eval_assign_iff.1 hy with ⟨rfl, rfl⟩ | ⟨-, hy⟩
  · exact .inr ⟨hu, rfl⟩
  · exact .inl ⟨u, hu, hy⟩

theorem Hidden.mono {d' : Nat} (h : Hidden v w m u d) (hd : d ≤ d') : Hidden v w m u d' where
  held he := h.held (Nat.le_trans hd he)
  cells he := h.cells (Nat.le_trans hd he)
  setter he := h.setter (Nat.le_trans hd he)

/-- Nothing comes into the open by a result that is not among what is hidden. -/
theorem Hidden.assign (h : Hidden v w m u d) (hx : v.cls.classOf (.inst i) ≠ .irrelevant →
    x.IsRef → ∀ e, d ≤ e → w.along u e ≠ some x) : Hidden v w (m.assign i x) u d where
  held {e y} he hy href hheld := by
    rcases hheld.of_assign with hheld | ⟨hi, rfl⟩
    · exact h.held he hy href hheld
    · exact hx hi href e he hy
  cells := h.cells
  setter := h.setter

theorem Content.assign (h : Content v w k m q c y) (hfresh : m.env i = none)
    (hk : k.pointsTo q ⊆ k'.pointsTo r)
    (hx : v.cls.classOf (.inst i) ≠ .irrelevant → x.IsRef → ∀ u d, v.cls.Receives u →
      w.along u d = some (.cell c) → Hidden v w m u (d + 1) → ∀ e, d < e → w.along u e ≠ some x) :
    Content v w k' (m.assign i x) r c y := by
  cases h with
  | known hu heval => exact .known (hk hu) fun hcl => eval_assign_of_fresh hfresh (heval hcl)
  | initial hu hrec hc hy hhid =>
    exact .initial (hk hu) hrec hc hy (hhid.assign fun hi href => hx hi href _ _ hrec hc hhid)

theorem Content.mono (h : Content v w k m q c y) (hk : k.pointsTo q ⊆ k'.pointsTo r) :
    Content v w k' m r c y := by
  cases h with
  | known hu heval => exact .known (hk hu) heval
  | initial hu hrec hc hy hhid => exact .initial (hk hu) hrec hc hy hhid

/-! ## What changes in the heap -/

theorem eval_congr (henv : n.env = m.env) : n.eval w u = m.eval w u := by
  cases u with
  | inst j => exact congrFun henv j
  | _ => rfl

/-- A change of what the function has in its hands hides nothing and uncovers nothing. -/
theorem Hidden.congr (h : Hidden v w m u d) (hw : w.Separate v.cls) (hu : v.cls.Receives u)
    (henv : n.env = m.env)
    (hcells : ∀ {c : Nat}, (Datum.cell c).In w.heap → ¬m.Exposes v w (.cell c) →
      n.heap.cells[c]? = m.heap.cells[c]?)
    (hset : ∀ {g : Nat}, (Datum.handle g).In w.heap → ¬m.Exposes v w (.handle g) →
      n.setter g = m.setter g) : Hidden v w n u d where
  held he hx href hheld := by
    obtain ⟨s, hs, hsx⟩ := hheld
    exact h.held he hx href ⟨s, hs, by rw [← eval_congr henv]; exact hsx⟩
  cells he hc := (hcells (hw.inHeap hu hc) (h.held he hc trivial)).trans (h.cells he hc)
  setter he hg := (hset (hw.inHeap hu hg) (h.held he hg trivial)).trans (h.setter he hg)

theorem Content.congr (h : Content v w k m q c y) (hw : w.Separate v.cls)
    (henv : n.env = m.env)
    (hcells : ∀ {c : Nat}, (Datum.cell c).In w.heap → ¬m.Exposes v w (.cell c) →
      n.heap.cells[c]? = m.heap.cells[c]?)
    (hset : ∀ {g : Nat}, (Datum.handle g).In w.heap → ¬m.Exposes v w (.handle g) →
      n.setter g = m.setter g) : Content v w k n q c y := by
  cases h with
  | known hu heval => exact .known hu fun hcl => (eval_congr henv).trans (heval hcl)
  | initial hu hrec hc hy hhid =>
    exact .initial hu hrec hc hy (hhid.congr hw hrec henv hcells hset)

namespace Tracks

/-- More may be known. -/
theorem mono (h : Tracks v w k m) (ha : ∀ q, k.aliases q ⊆ k'.aliases q)
    (hd : ∀ q, k.defs q ⊆ k'.defs q) (hp : ∀ q, k.pointsTo q ⊆ k'.pointsTo q) :
    Tracks v w k' m where
  aliases hs ht hx hes het := ha _ (h.aliases hs ht hx hes het)
  defs hs he := hd _ (h.defs hs he)
  pointsTo hs he hc := (h.pointsTo hs he hc).mono (hp _)
  bounded := h.bounded
  grown := h.grown

/-- What changes where nothing is yet does not matter. -/
theorem congr (h : Tracks v w k m) (hw : w.Separate v.cls) (henv : n.env = m.env)
    (hcells : ∀ {c : Nat}, (Datum.cell c).In m.heap → n.heap.cells[c]? = m.heap.cells[c]?)
    (hset : ∀ {g : Nat}, (Datum.handle g).In m.heap → n.setter g = m.setter g)
    (hin : ∀ {x : Datum}, x.In m.heap → x.In n.heap) : Tracks v w k n where
  aliases hs ht hx hes het := by
    rw [eval_congr henv] at hes het
    exact h.aliases hs ht hx hes het
  defs {s g} hs he := by
    rw [eval_congr henv] at he
    rw [definer, hset (h.bounded (by simp [hs]) he)]
    exact h.defs hs he
  pointsTo {s c x} hs he hc := by
    rw [eval_congr henv] at he
    rw [hcells (h.bounded (by simp [hs]) he)] at hc
    exact (h.pointsTo hs he hc).congr hw henv (fun hin' _ => hcells (h.grown hin'))
      fun hin' _ => hset (h.grown hin')
  bounded hs he := by
    rw [eval_congr henv] at he
    exact hin (h.bounded hs he)
  grown hx := hin (h.grown hx)

/-- A result that is no handle and no cell, or not classified. -/
theorem assign_plain (h : Tracks v w k m) (hfresh : m.env i = none)
    (hx : x.IsRef → v.cls.classOf (.inst i) = .irrelevant) : Tracks v w k (m.assign i x) where
  aliases {s t y} hs ht hy hes het := by
    rcases eval_assign_iff.1 hes with ⟨rfl, rfl⟩ | ⟨-, hes⟩
    · exact absurd (hx hy) hs
    · rcases eval_assign_iff.1 het with ⟨rfl, rfl⟩ | ⟨-, het⟩
      · exact absurd (hx hy) ht
      · exact h.aliases hs ht hy hes het
  defs {s g} hs he := by
    rcases eval_assign_iff.1 he with ⟨rfl, rfl⟩ | ⟨-, he⟩
    · rw [hx trivial] at hs; cases hs
    · exact h.defs hs he
  pointsTo {s c y} hs he hc := by
    rcases eval_assign_iff.1 he with ⟨rfl, rfl⟩ | ⟨-, he⟩
    · rw [hx trivial] at hs; cases hs
    · exact (h.pointsTo hs he hc).assign hfresh subset_rfl fun hi href => absurd (hx href) hi
  bounded {s y} hs he := by
    rcases eval_assign_iff.1 he with ⟨rfl, rfl⟩ | ⟨-, he⟩
    · cases x with
      | int => trivial
      | _ => exact absurd (hx trivial) hs
    · exact h.bounded hs he
  grown := h.grown

/-- A result that is linked to the values that stand for the same. -/
theorem assign (h : Tracks v w k m)
    (hal : k'.aliases = (k.relink (v.idOf (.inst i)) S).aliases)
    (hdefs : ∀ q, q ≠ v.idOf (.inst i) → k.defs q ⊆ k'.defs q)
    (hls : v.cls.classOf (.inst i) ≠ .irrelevant → x.IsRef → ∀ u,
      v.cls.classOf u ≠ .irrelevant → m.eval w u = some x → v.idOf u ∈ S)
    (hdef : ∀ g, v.cls.classOf (.inst i) = .data → x = .handle g →
      m.definer v g ∈ k'.defs (v.idOf (.inst i)))
    (hpts : ∀ u c y, v.cls.classOf u = .pointer → m.eval w u = some (.cell c) →
      m.heap.cells[c]? = some (some y) → Content v w k' (m.assign i x) (v.idOf u) c y)
    (hpt : ∀ c y, v.cls.classOf (.inst i) = .pointer → x = .cell c →
      m.heap.cells[c]? = some (some y) → Content v w k' (m.assign i x) (v.idOf (.inst i)) c y)
    (hin : v.cls.classOf (.inst i) ≠ .irrelevant → x.In m.heap) :
    Tracks v w k' (m.assign i x) where
  aliases {s t y} hs ht hy hes het := by
    rw [hal]
    rcases eval_assign_iff.1 hes with ⟨rfl, rfl⟩ | ⟨hsi, hes⟩
    · rcases eval_assign_iff.1 het with ⟨rfl, -⟩ | ⟨-, het⟩
      · exact .inl ⟨rfl, .inl rfl⟩
      · exact .inl ⟨rfl, .inr (hls hs hy t ht het)⟩
    · rcases eval_assign_iff.1 het with ⟨rfl, rfl⟩ | ⟨hti, het⟩
      · exact .inr (.inl ⟨rfl, hls ht hy s hs hes⟩)
      · exact .inr (.inr ⟨View.idOf_ne hs hsi, View.idOf_ne ht hti, h.aliases hs ht hy hes het⟩)
  defs {s g} hs he := by
    rcases eval_assign_iff.1 he with ⟨rfl, rfl⟩ | ⟨hsi, he⟩
    · exact hdef g hs rfl
    · exact hdefs _ (View.idOf_ne (by simp [hs]) hsi) (h.defs hs he)
  pointsTo {s c y} hs he hc := by
    rcases eval_assign_iff.1 he with ⟨rfl, rfl⟩ | ⟨-, he⟩
    · exact hpt c y hs rfl hc
    · exact hpts s c y hs he hc
  bounded {s y} hs he := by
    rcases eval_assign_iff.1 he with ⟨rfl, rfl⟩ | ⟨-, he⟩
    · exact hin hs
    · exact h.bounded hs he
  grown := h.grown

end Tracks

end Machine

end BoxFlow
