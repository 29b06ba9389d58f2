import Mathlib.Logic.Relation
import BoxFlow.Proofs.IR.Linked
import BoxFlow.Proofs.IR.Verify
import BoxFlow.Proofs.Machine.Basic

/-!
# What a run keeps

`Move` says once what a step can do, and `action_load` and its like what an action is. What the
start has and every move keeps, a run has (`Reaches.induction`).
-/

namespace BoxFlow

open Relation (ReflTransGen)

/-- Is it a handle or an address? -/
def Datum.IsRef : Datum → Prop
  | .int _ => False
  | _ => True

namespace Machine

variable {p : Program} {o : Options} {w : World} {f : FuncId} {m n : Machine} {i j : InstId}
  {rest : List InstId} {x y : Datum} {b d : BlockId}

/-! ## Steps -/

/-- What a step can do. -/
inductive Move (p : Program) (o : Options) (w : World) (m : Machine) : Machine → Prop
  | act {i : InstId} {rest : List InstId} {a : Action} : m.rest = i :: rest →
    m.action o w (p.inst i).op = some a → Move p o w m { m.perform w i a with rest }
  | jump {i : InstId} {rest : List InstId} {c : Option Value} {targets : List BlockId}
    {b : BlockId} {n : Machine} : m.rest = i :: rest → (p.inst i).op = .br c targets →
    m.target? w c targets = some b → m.enter p w b = some n → Move p o w m n
  | ret {i : InstId} {rest : List InstId} {v : Option Value} {x : Option Datum} :
    m.rest = i :: rest → (p.inst i).op = .ret v → v.mapM (m.eval w) = some x →
    Move p o w m { m with rest := [], result := some x }

theorem step_eq_some_iff : m.step p o w = some n ↔ Move p o w m n := by
  constructor
  · intro h
    unfold step at h
    split at h
    · cases h
    · next i rest hrest =>
      split at h
      · next c targets hop =>
        obtain ⟨b, hb, hn⟩ := Option.bind_eq_some_iff.1 h
        exact .jump hrest hop hb hn
      · next v hop =>
        obtain ⟨x, hx, rfl⟩ := Option.map_eq_some_iff.1 h
        exact .ret hrest hop hx
      · obtain ⟨a, ha, rfl⟩ := Option.map_eq_some_iff.1 h
        exact .act hrest ha
  · intro h
    cases h with
    | @act i rest a hrest ha =>
      have hstep : (m.action o w (p.inst i).op).map (fun a => { m.perform w i a with rest }) =
          some { m.perform w i a with rest } := by rw [ha]; rfl
      unfold step
      rw [hrest]
      dsimp only
      cases hop : (p.inst i).op <;> rw [hop] at ha hstep <;> first | exact hstep | cases ha
    | jump hrest hop hb hn => simp [step, hrest, hop, hb, hn]
    | ret hrest hop hx => simp [step, hrest, hop, hx]

/-- What the start has and every move keeps, a run has. -/
theorem Reaches.induction {P : Machine → Prop} (h : Reaches p o w f m)
    (hstart : ∀ m, Machine.start p w f = some m → P m)
    (hmove : ∀ m n, Reaches p o w f m → P m → Move p o w m n → P n) : P m := by
  induction h with
  | start hs => exact hstart _ hs
  | step h hs ih => exact hmove _ _ h ih (step_eq_some_iff.1 hs)

theorem enter_eq_some (h : m.enter p w b = some n) :
    (∀ i ∈ p.phis b, ∃ x, m.incoming? w (p.inst i).op = some x) ∧
      n = { m with
        env := fun i => if i ∈ p.phis b then m.incoming? w (p.inst i).op else m.env i
        block := b, rest := p.body b } := by
  unfold enter at h
  dsimp only at h
  split at h
  · next hall =>
    cases h
    refine ⟨fun i hi => Option.isSome_iff_exists.1 ?_, rfl⟩
    exact (List.all_eq_true.1 hall) i hi
  · cases h

theorem enter_of_incoming (h : ∀ i ∈ p.phis b, ∃ x, m.incoming? w (p.inst i).op = some x) :
    m.enter p w b = some { m with
      env := fun i => if i ∈ p.phis b then m.incoming? w (p.inst i).op else m.env i
      block := b, rest := p.body b } :=
  if_pos (List.all_eq_true.2 fun i hi => Option.isSome_iff_exists.2 (h i hi))

/-! ## Steps in a row -/

/-- The machine goes on to the other in any number of steps. -/
def Leads (p : Program) (o : Options) (w : World) : Machine → Machine → Prop :=
  ReflTransGen fun m n => m.step p o w = some n

theorem Reaches.leads (h : Reaches p o w f m) (hn : Leads p o w m n) : Reaches p o w f n := by
  induction hn with
  | refl => exact h
  | tail _ hs ih => exact .step ih hs

/-- The machine after `n` steps from the start of the function. -/
def after? (p : Program) (o : Options) (w : World) (f : FuncId) : Nat → Option Machine
  | 0 => start p w f
  | n + 1 => (after? p o w f n).bind (step p o w)

theorem reaches_of_after {k : Nat} (h : after? p o w f k = some m) : Reaches p o w f m := by
  induction k generalizing m with
  | zero => exact .start h
  | succ k ih =>
    obtain ⟨n, hn, hstep⟩ := Option.bind_eq_some_iff.1 h
    exact .step (ih hn) hstep

/-- A run that ends has come by every machine that it can reach before it ended. -/
theorem Reaches.exists_after (h : Reaches p o w f m) {k : Nat} (hk : after? p o w f k = none) :
    ∃ n < k, after? p o w f n = some m := by
  have hany : ∃ n, after? p o w f n = some m := by
    induction h with
    | start hs => exact ⟨0, hs⟩
    | step _ hs ih =>
      obtain ⟨n, hn⟩ := ih
      exact ⟨n + 1, Option.bind_eq_some_iff.2 ⟨_, hn, hs⟩⟩
  have hnone {l : Nat} (hl : k ≤ l) : after? p o w f l = none := by
    induction hl with
    | refl => exact hk
    | step _ ih => rw [after?, ih]; rfl
  obtain ⟨n, hn⟩ := hany
  refine ⟨n, Nat.lt_of_not_le fun hl => ?_, hn⟩
  rw [hnone hl] at hn
  cases hn

/-- The machine cannot go on, though it is not through. -/
def Stuck (p : Program) (o : Options) (w : World) (m : Machine) : Prop :=
  m.rest ≠ [] ∧ m.step p o w = none

theorem exists_move (hrest : m.rest ≠ []) (h : ¬m.Stuck p o w) : ∃ n, Move p o w m n := by
  obtain ⟨n, hn⟩ := Option.ne_none_iff_exists'.1 fun hnone => h ⟨hrest, hnone⟩
  exact ⟨n, step_eq_some_iff.1 hn⟩

theorem rest_of_step (h : m.step p o w = some n) : ∃ i rest, m.rest = i :: rest := by
  cases step_eq_some_iff.1 h with
  | act hrest | jump hrest | ret hrest => exact ⟨_, _, hrest⟩

/-- A step that acts. -/
theorem step_act {rest : List InstId} {act : Action} (hrest : m.rest = i :: rest)
    (hact : m.action o w (p.inst i).op = some act) :
    m.step p o w = some { m.perform w i act with rest } := step_eq_some_iff.2 (.act hrest hact)

/-! ## Actions -/

theorem action_load {pointer : Value} {a : Action} :
    m.action o w (.load pointer) = some a ↔ ∃ c x, m.eval w pointer = some (.cell c) ∧
      m.heap.cells[c]? = some (some x) ∧ a = .yield x := by
  unfold action
  dsimp only
  split
  · next c hc =>
    simp only [hc, Option.some.injEq, Datum.cell.injEq, Option.map_eq_some_iff,
      Option.join_eq_some_iff, eq_comm (a := a)]
    exact ⟨fun ⟨x, h⟩ => ⟨c, x, rfl, h⟩, fun ⟨_, x, hc, h⟩ => ⟨x, hc ▸ h⟩⟩
  · next h => exact ⟨nofun, fun ⟨c, _, hc, _⟩ => absurd hc (h c)⟩

theorem action_store {value pointer : Value} {a : Action} :
    m.action o w (.store value pointer) = some a ↔ ∃ x c y, m.eval w value = some x ∧
      m.eval w pointer = some (.cell c) ∧ m.heap.cells[c]? = some y ∧ a = .fill c x := by
  unfold action
  dsimp only
  split
  · next x c hx hc =>
    simp only [hx, hc, Option.some.injEq, Datum.cell.injEq, Option.map_eq_some_iff]
    constructor
    · rintro ⟨y, hy, rfl⟩
      exact ⟨x, c, y, rfl, rfl, hy, rfl⟩
    · rintro ⟨_, _, y, rfl, rfl, hy, rfl⟩
      exact ⟨y, hy, rfl⟩
  · next h => exact ⟨nofun, fun ⟨x, c, _, hx, hc, _⟩ => absurd hc (h x c hx)⟩

theorem action_select {c t e : Value} {a : Action} :
    m.action o w (.select c t e) = some a ↔ ∃ k x y, m.eval w c = some (.int k) ∧
      m.eval w t = some x ∧ m.eval w e = some y ∧ a = .yield (if k ≠ 0 then x else y) := by
  unfold action
  dsimp only
  split
  · next k x y hk hx hy =>
    simp only [hk, hx, hy, Option.some.injEq, Datum.int.injEq]
    constructor
    · rintro rfl
      exact ⟨k, x, y, rfl, rfl, rfl, rfl⟩
    · rintro ⟨_, _, _, rfl, rfl, rfl, rfl⟩
      rfl
  · next h => exact ⟨nofun, fun ⟨k, x, y, hk, hx, hy, _⟩ => absurd hy (h k x y hk hx)⟩

theorem listMapM_eq_some_iff {α β : Type} {g : α → Option β} {l : List α} {ys : List β} :
    l.mapM g = some ys ↔ l.map g = ys.map some := by
  induction l generalizing ys with
  | nil => cases ys <;> simp
  | cons a l ih =>
    simp only [List.mapM_cons, Option.bind_eq_bind, Option.bind_eq_some_iff, List.map_cons, ih]
    constructor
    · rintro ⟨y, hy, ys', hys, h⟩
      cases h
      rw [hy, hys, List.map_cons]
    · intro h
      cases ys with
      | nil => cases h
      | cons y ys =>
        obtain ⟨hy, hys⟩ := List.cons.inj h
        exact ⟨y, hy, ys, hys, rfl⟩

theorem action_call {callee : String} {args : List Value} {a : Action} :
    m.action o w (.call callee args) = some a ↔
      ∃ xs, args.map (m.eval w) = xs.map some ∧ m.call o w callee xs = some a := by
  simp only [← listMapM_eq_some_iff]
  exact Option.bind_eq_some_iff

/-- The action of an operation, by the kinds of its operands. -/
inductive Operates (m : Machine) (x : BitVec 64) : Operation → List Datum → Action → Prop
  | create {n : BitVec 64} : Operates m x .create [.int n] (.create n)
  | read {h : Nat} {n : BitVec 64} : m.heap.objects[h]? = some n →
    Operates m x .read [.handle h] (.yield (.int n))
  | write {h : Nat} {k n : BitVec 64} : m.heap.objects[h]? = some k →
    Operates m x .write [.handle h, .int n] (.set h n x)
  | add {h l r : Nat} {k y z : BitVec 64} : m.heap.objects[h]? = some k →
    m.heap.objects[l]? = some y → m.heap.objects[r]? = some z →
    Operates m x .add [.handle h, .handle l, .handle r] (.set h (y + z) x)
  | subtract {h l r : Nat} {k y z : BitVec 64} : m.heap.objects[h]? = some k →
    m.heap.objects[l]? = some y → m.heap.objects[r]? = some z →
    Operates m x .subtract [.handle h, .handle l, .handle r] (.set h (y - z) x)
  | destroy {h : Nat} : Operates m x .destroy [.handle h] (.yield (.int x))

theorem operation_eq_some_iff {r : BitVec 64} {op : Operation} {xs : List Datum} {a : Action} :
    m.operation r op xs = some a ↔ Operates m r op xs a := by
  constructor
  · intro h
    unfold operation at h
    split at h
    · cases h; exact .create
    · obtain ⟨n, hn, rfl⟩ := Option.map_eq_some_iff.1 h
      exact .read hn
    · obtain ⟨k, hk, rfl⟩ := Option.map_eq_some_iff.1 h
      exact .write hk
    · simp only [Option.bind_eq_bind, Option.bind_eq_some_iff] at h
      obtain ⟨k, hk, x, hx, y, hy, h⟩ := h
      cases h
      exact .add hk hx hy
    · simp only [Option.bind_eq_bind, Option.bind_eq_some_iff] at h
      obtain ⟨k, hk, x, hx, y, hy, h⟩ := h
      cases h
      exact .subtract hk hx hy
    · cases h; exact .destroy
    · cases h
  · intro h
    cases h with
    | create | destroy => rfl
    | read h | write h => simp [operation, h]
    | add hk hx hy | subtract hk hx hy => simp [operation, hk, hx, hy]

/-- The action of a call of an operation. -/
theorem action_operation {callee : String} {args : List Value} {op : Operation} {a : Action}
    (hk : o.kindOf callee = .operation op) : m.action o w (.call callee args) = some a ↔
      ∃ xs, args.map (m.eval w) = xs.map some ∧
        Operates m (w.result (m.trace ++ [⟨callee, xs⟩])) op xs a := by
  rw [action_call]
  refine exists_congr fun xs => and_congr_right fun _ => ?_
  rw [Machine.call, hk]
  exact operation_eq_some_iff

end Machine

end BoxFlow
