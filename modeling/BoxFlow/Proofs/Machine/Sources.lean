import BoxFlow.Proofs.Machine.Stems

/-!
# Where handles and cells come from

Up to the first opaque call a run handles nothing but what its roots have made (`MadeBy`) and what
it has been offered from outside (`World.Offers`), and what a value stands for comes from where the
value stems from (`Traced`): an invariant of the environment and of the cells, kept by every move
(`after_traced`).
-/

namespace BoxFlow

open Escape (Origin isRoot)

/-- Is it in the heap, if it is a handle or an address? -/
def Datum.In (h : Heap) : Datum → Prop
  | .int _ => True
  | .handle g => g < h.objects.length
  | .cell c => c < h.cells.length

/-- What a function gets from outside: the values of the parameters and globals that it mentions,
and what the cells hold that it gets. -/
inductive World.Offers (p : Program) (f : FuncId) (w : World) : Datum → Prop
  | operand {i : InstId} {v : Value} {x : Datum} : i ∈ p.instructions f →
    v ∈ (p.inst i).op.operands → v.isOutside = true → w.outside v = some x → Offers p f w x
  | content {c : Nat} {x : Datum} : Offers p f w (.cell c) → w.heap.cells[c]? = some (some x) →
    Offers p f w x

/-- What a function gets from outside is there before it runs. -/
def World.Bounded (p : Program) (f : FuncId) (w : World) : Prop :=
  ∀ x, w.Offers p f x → x.In w.heap

/-- Nothing is offered to a self-contained function. -/
theorem World.not_offers {p : Program} {f : FuncId} {w : World} {x : Datum}
    (h : p.SelfContained f) : ¬w.Offers p f x := by
  intro hx
  induction hx with
  | operand hi hv hout _ =>
    rw [h _ hi _ hv] at hout
    cases hout
  | content _ _ ih => exact ih

theorem World.bounded {p : Program} {f : FuncId} {w : World} (h : p.SelfContained f) :
    w.Bounded p f :=
  fun _ hx => absurd hx (World.not_offers h)

/-- A root makes what it is one for. -/
def Program.Makes (p : Program) (o : Options) (r : InstId) : Datum → Prop
  | .int _ => False
  | .handle _ => ∃ callee args, (p.inst r).op = .call callee args ∧
      o.kindOf callee = .operation .create
  | .cell _ => ∃ ty, (p.inst r).op = .alloca ty

theorem Program.Makes.isRef {p : Program} {o : Options} {r : InstId} {x : Datum}
    (h : p.Makes o r x) : x.IsRef := by
  cases x with
  | int => exact h.elim
  | _ => trivial

namespace Machine

variable {p : Program} {o : Options} {w : World} {f : FuncId} {m n : Machine} {i r : InstId}
  {rest : List InstId} {x y : Datum} {v : Value} {M : InstId → Datum → Prop} {s t : Origin}

/-- The root `r` has made `x` in the first `k` steps of the run. -/
def MadeBy (p : Program) (o : Options) (w : World) (f : FuncId) (k : Nat) (r : InstId) (x : Datum) :
    Prop :=
  ∃ j < k, ∃ m n rest, after? p o w f j = some m ∧ m.rest = r :: rest ∧ isRoot p o r = true ∧
    after? p o w f (j + 1) = some n ∧ n.env r = some x

/-- A handle or cell comes from the root that has made it, or from outside. -/
def Source (p : Program) (f : FuncId) (w : World) (M : InstId → Datum → Prop) (x : Datum) :
    Origin → Prop
  | .root r => M r x
  | .elsewhere => x.IsRef ∧ w.Offers p f x

/-- What comes from `t` has been stored into a cell that comes from `s`, or was there before. -/
def Came (p : Program) (o : Options) (f : FuncId) (s t : Origin) : Prop :=
  (∃ i ∈ p.instructions f, ∃ value q, (p.inst i).op = .store value q ∧ p.Stems o f q s ∧
    p.Stems o f value t) ∨ s = .elsewhere ∧ t = .elsewhere

/-- The datum has a source, if it is a handle or an address, and all its sources are in `T`. -/
structure From (p : Program) (f : FuncId) (w : World) (M : InstId → Datum → Prop)
    (T : Origin → Prop) (x : Datum) : Prop where
  source : x.IsRef → ∃ t, Source p f w M x t
  all : ∀ {t}, Source p f w M x t → T t

/-- Everything at hand comes from where the program says. -/
structure Traced (p : Program) (o : Options) (f : FuncId) (w : World) (M : InstId → Datum → Prop)
    (m : Machine) : Prop where
  grown : ∀ {x : Datum}, x.In w.heap → x.In m.heap
  made : ∀ {r : InstId} {x : Datum}, M r x → p.Makes o r x ∧ ¬x.In w.heap ∧ x.In m.heap
  env : ∀ {i x}, m.env i = some x → From p f w M (p.Stems o f (.inst i)) x
  cells : ∀ {c s x}, Source p f w M (.cell c) s → m.heap.cells[c]? = some (some x) →
    From p f w M (Came p o f s) x

namespace Traced

variable (hw : w.Bounded p f) (h : Traced p o f w M m)
include hw h

omit hw in
theorem isRef (hx : Source p f w M x t) : x.IsRef := by
  cases t with
  | root r => exact (h.made hx).1.isRef
  | elsewhere => exact hx.1

theorem inHeap (hx : Source p f w M x t) : x.In m.heap := by
  cases t with
  | root r => exact (h.made hx).2.2
  | elsewhere => exact h.grown (hw x hx.2)

theorem inHeap_of_from {T : Origin → Prop} (hx : From p f w M T x) : x.In m.heap := by
  cases x with
  | int => trivial
  | _ =>
    obtain ⟨t, ht⟩ := hx.source trivial
    exact h.inHeap hw ht

/-- What an operand stands for comes from where the operand stems from. -/
theorem eval (hi : i ∈ p.instructions f) (hv : v ∈ (p.inst i).op.operands)
    (hx : m.eval w v = some x) : From p f w M (p.Stems o f v) x := by
  have hout (hout : v.isOutside = true) (hx : w.outside v = some x) :
      From p f w M (p.Stems o f v) x := by
    have hoffer : w.Offers p f x := .operand hi hv hout hx
    refine ⟨fun href => ⟨.elsewhere, href, hoffer⟩, fun {t} ht => ?_⟩
    cases t with
    | root r => exact absurd (hw x hoffer) (h.made ht).2.1
    | elsewhere => exact .outside hout
  cases v with
  | literal l =>
    cases hx
    exact ⟨fun href => href.elim, fun ht => (h.isRef ht).elim⟩
  | inst j => exact h.env hx
  | param | global => exact hout rfl hx

omit hw in
/-- Nothing new has been made, and what is new in the environment and the cells comes from where the
program says. -/
theorem keep (hin : ∀ {y : Datum}, y.In m.heap → y.In n.heap)
    (henv : ∀ {j : InstId} {y : Datum}, n.env j = some y → m.env j = some y ∨
      From p f w M (p.Stems o f (.inst j)) y)
    (hcells : ∀ {c : Nat} {s : Origin} {y : Datum}, Source p f w M (.cell c) s →
      n.heap.cells[c]? = some (some y) →
        m.heap.cells[c]? = some (some y) ∨ From p f w M (Came p o f s) y) :
    Traced p o f w M n where
  grown hx := hin (h.grown hx)
  made hx := (h.made hx).imp_right fun ⟨hw, hm⟩ => ⟨hw, hin hm⟩
  env hx := (henv hx).elim h.env id
  cells hc hx := (hcells hc hx).elim (h.cells hc) id

/-- A root has made something new. -/
theorem make (hi : i ∈ p.instructions f) (hroot : isRoot p o i = true) (hmakes : p.Makes o i x)
    (hfresh : ¬x.In m.heap) (hx : x.In n.heap)
    (hin : ∀ {y : Datum}, y.In m.heap → y.In n.heap)
    (henv : n.env = Function.update m.env i (some x))
    (hcells : ∀ {c : Nat} {y : Datum}, n.heap.cells[c]? = some (some y) →
      m.heap.cells[c]? = some (some y)) :
    Traced p o f w (fun r y => M r y ∨ r = i ∧ y = x) n := by
  have hsource {y : Datum} {t : Origin} :
      Source p f w (fun r y => M r y ∨ r = i ∧ y = x) y t →
        Source p f w M y t ∨ t = .root i ∧ y = x := by
    cases t with
    | root r => exact Or.imp_right fun ⟨hr, hy⟩ => ⟨by rw [hr], hy⟩
    | elsewhere => exact .inl
  have hmono {y : Datum} {t : Origin} (ht : Source p f w M y t) :
      Source p f w (fun r y => M r y ∨ r = i ∧ y = x) y t := by
    cases t with
    | root r => exact .inl ht
    | elsewhere => exact ht
  have hold {T : Origin → Prop} {y : Datum} (hfrom : From p f w M T y) :
      From p f w (fun r y => M r y ∨ r = i ∧ y = x) T y := by
    refine ⟨fun href => (hfrom.source href).imp fun _ => hmono, fun ht => ?_⟩
    rcases hsource ht with ht | ⟨-, rfl⟩
    · exact hfrom.all ht
    · exact absurd (h.inHeap_of_from hw hfrom) hfresh
  refine ⟨fun hy => hin (h.grown hy), ?_, ?_, ?_⟩
  · rintro r y (hy | ⟨rfl, rfl⟩)
    · exact (h.made hy).imp_right fun ⟨hw, hm⟩ => ⟨hw, hin hm⟩
    · exact ⟨hmakes, fun hy => hfresh (h.grown hy), hx⟩
  · intro j y hy
    rw [henv] at hy
    by_cases hji : j = i
    · subst hji
      rw [Function.update_self] at hy
      cases hy
      refine ⟨fun _ => ⟨.root j, .inr ⟨rfl, rfl⟩⟩, fun ht => ?_⟩
      rcases hsource ht with ht | ⟨rfl, -⟩
      · exact absurd (h.inHeap hw ht) hfresh
      · exact .root hi hroot
    · rw [Function.update_of_ne hji] at hy
      exact hold (h.env hy)
  · intro c s y hc hy
    have hy := hcells hy
    rcases hsource hc with hc | ⟨-, rfl⟩
    · exact hold (h.cells hc hy)
    · obtain ⟨hlt, -⟩ := List.getElem?_eq_some_iff.1 hy
      exact absurd hlt hfresh

omit hw in
/-- Only the result of an instruction is new. -/
theorem assign (hx : From p f w M (p.Stems o f (.inst i)) x) : Traced p o f w M (m.assign i x) :=
  h.keep (fun hy => hy) (fun hy => (assign_env.1 hy).elim
    (fun ⟨hj, hxy⟩ => .inr (hj ▸ hxy ▸ hx)) fun ⟨_, hy⟩ => .inl hy) fun _ hy => .inl hy

omit hw in
/-- A number comes from nowhere. -/
theorem from_int (T : Origin → Prop) (b : BitVec 64) : From p f w M T (.int b) :=
  ⟨fun href => href.elim, fun ht => (h.isRef ht).elim⟩

omit hw in
/-- What does not depend on the environment and the heap does not matter. -/
theorem congr (henv : n.env = m.env) (hheap : n.heap = m.heap) : Traced p o f w M n :=
  ⟨hheap ▸ h.grown, hheap ▸ h.made, henv ▸ h.env, hheap ▸ h.cells⟩

/-- What is loaded stems from where it came into the cell. -/
theorem load {pointer : Value} {c : Nat} (hi : i ∈ p.instructions f)
    (hop : (p.inst i).op = .load pointer) (hc : m.eval w pointer = some (.cell c))
    (hx : m.heap.cells[c]? = some (some x)) : From p f w M (p.Stems o f (.inst i)) x := by
  have hptr := h.eval hw hi (by rw [hop]; exact List.mem_cons_self) hc
  obtain ⟨s, hs⟩ := hptr.source trivial
  have hcontent := h.cells hs hx
  have hcell : s.IsCell p := by
    cases s with
    | root r => exact (h.made hs).1
    | elsewhere => trivial
  refine ⟨hcontent.source, fun ht => ?_⟩
  rcases hcontent.all ht with ⟨j, hj, value, q, hjop, hq, hvalue⟩ | ⟨rfl, rfl⟩
  · exact .load hi hop hj hjop hcell (hptr.all hs) hq hvalue
  · exact .content hi hop (hptr.all hs)

/-- What is stored came into the cell. -/
theorem fill {value pointer : Value} {c : Nat} (hi : i ∈ p.instructions f)
    (hop : (p.inst i).op = .store value pointer) (hx : m.eval w value = some x)
    (hc : m.eval w pointer = some (.cell c)) :
    Traced p o f w M { m with heap.cells := m.heap.cells.set c (some x) } := by
  have hvalue := h.eval hw hi (by rw [hop]; simp [Form.operands]) hx
  have hptr := h.eval hw hi (by rw [hop]; simp [Form.operands]) hc
  refine h.keep (fun {y} hy => ?_) .inl fun {d s y} hs hy => ?_
  · cases y with
    | cell d => simpa [Datum.In] using hy
    | _ => exact hy
  · rw [List.getElem?_set] at hy
    split at hy
    · next hcd =>
      subst hcd
      split at hy
      · cases hy
        exact .inr ⟨hvalue.source, fun ht => .inl ⟨i, hi, value, pointer, hop, hptr.all hs,
          hvalue.all ht⟩⟩
      · cases hy
    · exact .inl hy

omit hw in
/-- Setting an object moves nothing. -/
theorem set (g : Nat) (b r : BitVec 64) (i : InstId) :
    Traced p o f w M (m.perform w i (.set g b r)) := by
  have hset : Traced p o f w M { m with
      heap.objects := m.heap.objects.set g b
      setter := Function.update m.setter g (some i) } := by
    refine h.keep (fun {y} hy => ?_) .inl fun _ hy => .inl hy
    cases y with
    | handle k => simpa [Datum.In] using hy
    | _ => exact hy
  exact hset.assign (hset.from_int _ _)

theorem alloc {ty : Ty} (hi : i ∈ p.instructions f) (hop : (p.inst i).op = .alloca ty) :
    Traced p o f w (fun r y => M r y ∨ r = i ∧ y = .cell m.heap.cells.length)
      (m.perform w i .alloc) := by
  refine h.make hw hi (by simp [isRoot, hop]) ⟨ty, hop⟩ (Nat.lt_irrefl _) (by simp [Datum.In,
    Machine.perform, Machine.assign]) (fun {y} hy => ?_) rfl fun {c y} hy => ?_
  · cases y with
    | cell d => exact Nat.lt_of_lt_of_le hy (by simp [Machine.perform, Machine.assign])
    | _ => exact hy
  · have hy : (m.heap.cells ++ [none])[c]? = some (some y) := hy
    rw [List.getElem?_append] at hy
    split at hy
    · exact hy
    · rw [List.getElem?_singleton] at hy
      split at hy <;> cases hy

theorem create {callee : String} {args : List Value} (hi : i ∈ p.instructions f)
    (hop : (p.inst i).op = .call callee args) (hk : o.kindOf callee = .operation .create)
    (b : BitVec 64) :
    Traced p o f w (fun r y => M r y ∨ r = i ∧ y = .handle m.heap.objects.length)
      (m.perform w i (.create b)) := by
  refine h.make hw hi (by simp [isRoot, hop, hk]) ⟨callee, args, hop, hk⟩ (Nat.lt_irrefl _)
    (by simp [Datum.In, Machine.perform, Machine.assign]) (fun {y} hy => ?_) rfl fun hy => hy
  cases y with
  | handle g => exact Nat.lt_of_lt_of_le hy (by simp [Machine.perform, Machine.assign])
  | _ => exact hy

/-- An instruction that is no root makes nothing. -/
theorem perform_of_not_root {a : Action} (hi : i ∈ p.instructions f)
    (ha : m.action o w (p.inst i).op = some a) (hleave : ∀ e, a ≠ .leave e)
    (hroot : isRoot p o i = false) : Traced p o f w M (m.perform w i a) := by
  have heval {v : Value} {x : Datum} (hv : v ∈ (p.inst i).op.operands)
      (hx : m.eval w v = some x) : From p f w M (p.Stems o f v) x := h.eval hw hi hv hx
  cases hop : (p.inst i).op with
  | alloca => simp [isRoot, hop] at hroot
  | load pointer =>
    rw [hop] at ha
    obtain ⟨c, x, hc, hx, rfl⟩ := action_load.1 ha
    exact h.assign (h.load hw hi hop hc hx)
  | store value pointer =>
    rw [hop] at ha
    obtain ⟨x, c, y, hx, hc, -, rfl⟩ := action_store.1 ha
    exact h.fill hw hi hop hx hc
  | select c t e =>
    rw [hop] at ha heval
    obtain ⟨b, x, y, -, hx, hy, rfl⟩ := action_select.1 ha
    have hmerge {v : Value} {z : Datum} (hv : v ∈ [t, e]) (hz : m.eval w v = some z) :
        From p f w M (p.Stems o f (.inst i)) z := by
      have hfrom := heval (List.mem_cons_of_mem _ hv) hz
      exact ⟨hfrom.source, fun ht => .merge hi (by rw [hop]; exact hv) (hfrom.all ht)⟩
    refine h.assign ?_
    split
    · exact hmerge (by simp) hx
    · exact hmerge (by simp) hy
  | call callee args =>
    have hcreate : o.kindOf callee ≠ .operation .create := by
      simpa [isRoot, hop] using hroot
    rw [hop] at ha
    obtain ⟨xs, -, ha⟩ := action_call.1 ha
    unfold Machine.call at ha
    split at ha
    · next op hk =>
      cases operation_eq_some_iff.1 ha with
      | create => exact absurd hk hcreate
      | read | destroy => exact h.assign (h.from_int _ _)
      | write | add | subtract => exact h.set _ _ _ _
    · cases ha
      have hreport : Traced p o f w M { m with trace := m.trace ++ [⟨callee, xs⟩] } :=
        h.congr rfl rfl
      exact hreport.assign (hreport.from_int _ _)
    · cases ha
      exact absurd rfl (hleave _)
  | phi | br | ret | unreachable => rw [hop] at ha; cases ha

/-- Where control enters a block, its phis stem from what they take. -/
theorem enter {b : BlockId} (hb : b ∈ (p.func f).blocks) (hn : m.enter p w b = some n) :
    Traced p o f w M n := by
  obtain ⟨-, rfl⟩ := enter_eq_some hn
  refine h.keep (fun hy => hy) (fun {j y} hy => ?_) fun _ hy => .inl hy
  have hy : (if j ∈ p.phis b then m.incoming? w (p.inst j).op else m.env j) = some y := hy
  split at hy
  · next hphi =>
    have hj : j ∈ p.instructions f := List.mem_flatMap.2 ⟨b, hb, (List.mem_filter.1 hphi).1⟩
    obtain ⟨v, d, xs, hop, hmem, -, hv⟩ := incoming_eval hy
    have hmem : v ∈ (p.inst j).op.merged := by
      rw [hop]
      exact List.mem_map_of_mem (f := Prod.fst) hmem
    have hfrom := h.eval hw hj (Escape.merged_subset _ hmem) hv
    exact .inr ⟨hfrom.source, fun ht => .merge hj hmem (hfrom.all ht)⟩
  · exact .inl hy

end Traced

/-! ## Runs -/

section Runs

variable {k : Nat}

/-- At first the function has nothing. -/
theorem traced_start (hs : start p w f = some m) : Traced p o f w (fun _ _ => False) m := by
  obtain ⟨b, -, rfl⟩ := Option.map_eq_some_iff.1 hs
  refine ⟨id, False.elim, fun hx => absurd hx (by simp), fun {c s x} hc hx => ?_⟩
  cases s with
  | root r => exact hc.elim
  | elsewhere =>
    have hoffer : w.Offers p f x := .content hc.2 hx
    refine ⟨fun href => ⟨.elsewhere, href, hoffer⟩, fun {t} ht => ?_⟩
    cases t with
    | root r => exact ht.elim
    | elsewhere => exact .inr ⟨rfl, rfl⟩

/-- What has been made in one more step. -/
theorem madeBy_succ (hm : after? p o w f k = some m) (hn : after? p o w f (k + 1) = some n)
    (hr : m.rest = i :: rest) : MadeBy p o w f (k + 1) r x ↔
      MadeBy p o w f k r x ∨ r = i ∧ isRoot p o i = true ∧ n.env i = some x := by
  constructor
  · rintro ⟨j, hj, m', n', rest', hm', hr', hroot, hn', hx⟩
    rcases Nat.lt_succ_iff_lt_or_eq.1 hj with hj | rfl
    · exact .inl ⟨j, hj, m', n', rest', hm', hr', hroot, hn', hx⟩
    · rw [hm] at hm'
      cases hm'
      rw [hn] at hn'
      cases hn'
      rw [hr] at hr'
      cases hr'
      exact .inr ⟨rfl, hroot, hx⟩
  · rintro (⟨j, hj, h⟩ | ⟨rfl, hroot, hx⟩)
    · exact ⟨j, Nat.lt_succ_of_lt hj, h⟩
    · exact ⟨k, Nat.lt_succ_self k, m, n, rest, hm, hr, hroot, hn, hx⟩

theorem trace_perform (i : InstId) (a : Action) : m.trace ⊆ (m.perform w i a).trace := by
  cases a with
  | report | leave => exact List.subset_append_left ..
  | _ => exact fun _ h => h

theorem kindOf_of_leave {op : Op} {e : Event} (ha : m.action o w op = some (.leave e)) :
    o.kindOf e.callee = .opaqueCall := by
  cases op with
  | call callee args =>
    obtain ⟨xs, -, ha⟩ := action_call.1 ha
    unfold Machine.call at ha
    split at ha
    · cases operation_eq_some_iff.1 ha
    · cases ha
    · next hk =>
      cases ha
      exact hk
  | load =>
    obtain ⟨_, _, -, -, h⟩ := action_load.1 ha
    cases h
  | store =>
    obtain ⟨_, _, _, -, -, -, h⟩ := action_store.1 ha
    cases h
  | select =>
    obtain ⟨_, _, _, -, -, -, h⟩ := action_select.1 ha
    cases h
  | alloca | phi | br | ret | unreachable => cases ha

/-- A root makes what its result is. -/
theorem Traced.root (hw : w.Bounded p f) (h : Traced p o f w M m) {a : Action}
    (hi : i ∈ p.instructions f) (hroot : isRoot p o i = true)
    (ha : m.action o w (p.inst i).op = some a) :
    Traced p o f w (fun r x => M r x ∨ r = i ∧ (m.perform w i a).env i = some x)
      (m.perform w i a) := by
  rcases Escape.isRoot_iff.1 hroot with ⟨ty, hop⟩ | ⟨callee, args, hop, hk⟩
  · rw [hop] at ha
    cases ha
    have hmake := h.alloc hw hi hop
    simpa [Machine.perform, Machine.assign, eq_comm] using hmake
  · rw [hop] at ha
    obtain ⟨xs, -, ha⟩ := (action_operation hk).1 ha
    cases ha with
    | @create b =>
      have hmake := h.create hw hi hop hk b
      simpa [Machine.perform, Machine.assign, eq_comm] using hmake

/-- Up to the first opaque call everything at hand comes from where the program says. -/
theorem after_traced (hp : p.Linked) (hw : w.Bounded p f) (hm : after? p o w f k = some m)
    (htrace : ∀ e ∈ m.trace, o.kindOf e.callee ≠ .opaqueCall) :
    Traced p o f w (MadeBy p o w f k) m := by
  induction k generalizing m with
  | zero =>
    have hnone : MadeBy p o w f 0 = fun _ _ => False := by
      funext r x
      exact eq_false fun ⟨j, hj, _⟩ => absurd hj (Nat.not_lt_zero j)
    rw [hnone]
    exact traced_start hm
  | succ k ih =>
    obtain ⟨l, hl, hstep⟩ := Option.bind_eq_some_iff.1 hm
    have hreach := reaches_of_after hl
    have hmove := step_eq_some_iff.1 hstep
    obtain ⟨i, rest, hr⟩ := rest_of_step hstep
    have hi := mem_instructions_of_reaches hp hreach hr
    have hmade : MadeBy p o w f (k + 1) = fun r x =>
        MadeBy p o w f k r x ∨ r = i ∧ isRoot p o i = true ∧ m.env i = some x :=
      funext fun r => funext fun x => propext (madeBy_succ hl hm hr)
    have hsame (hroot : isRoot p o i = false) :
        MadeBy p o w f (k + 1) = MadeBy p o w f k := by
      rw [hmade]
      simp [hroot]
    cases hmove with
    | @act i' rest' a hr' ha =>
      rw [hr] at hr'
      cases hr'
      have hbefore := ih hl fun e he => htrace e (trace_perform i a he)
      -- The step makes something new where it takes a root, and nothing elsewhere.
      cases hroot : isRoot p o i with
      | true =>
        simp only [hmade, hroot, true_and]
        exact (hbefore.root hw hi hroot ha).congr rfl rfl
      | false =>
        rw [hsame hroot]
        refine (hbefore.perform_of_not_root hw hi ha ?_ hroot).congr rfl rfl
        rintro e rfl
        exact htrace e (List.mem_append_right _ List.mem_cons_self) (kindOf_of_leave ha)
    | @jump i' rest' c targets b _ hr' hop ht hent =>
      rw [hr] at hr'
      cases hr'
      have hbefore := ih hl fun e he => htrace e (by rwa [(enter_eq_some hent).2])
      obtain ⟨hblock, hrest⟩ := reaches_within hp hreach
      have hflow := flows_of_target hp hblock (hrest (hr ▸ List.mem_cons_self)) hop ht
      rw [hsame (by simp [isRoot, hop])]
      exact hbefore.enter hw (hp.successor_within hblock hflow) hent
    | @ret i' rest' v x hr' hop hx =>
      rw [hr] at hr'
      cases hr'
      rw [hsame (by simp [isRoot, hop])]
      exact (ih hl htrace).congr rfl rfl

end Runs

end Machine

end BoxFlow
