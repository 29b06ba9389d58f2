import BoxFlow.Proofs.Machine.Runs

/-!
# Operations on other operands

Two machines that have made the same calls and have the same heap do the same if the operands of the
one have in the other the values that they have in the first. Operands that have no value do not
matter: the first machine is stuck there.
-/

namespace BoxFlow

namespace Machine

variable {o : Options} {w : World} {m n : Machine} {σ : Value → Value} {act : Action} {x : Datum}
  {b : BlockId}

theorem call_congr (hheap : n.heap = m.heap) (htrace : n.trace = m.trace) (callee : String)
    (xs : List Datum) : n.call o w callee xs = m.call o w callee xs := by
  have hoperation (x : BitVec 64) (op : Operation) : n.operation x op xs = m.operation x op xs := by
    unfold operation
    rw [hheap]
  unfold call
  rw [htrace]
  split
  · exact hoperation _ _
  · rfl
  · rfl

theorem map_eval {args : List Value} {xs : List Datum}
    (heval : ∀ v ∈ args, ∀ x, m.eval w v = some x → n.eval w (σ v) = some x)
    (h : args.map (m.eval w) = xs.map some) : (args.map σ).map (n.eval w) = xs.map some := by
  rw [← h, List.map_map]
  refine List.map_congr_left fun v hv => ?_
  have hmem : m.eval w v ∈ xs.map some := h ▸ List.mem_map_of_mem hv
  obtain ⟨x, -, hx⟩ := List.mem_map.1 hmem
  rw [← hx]
  exact heval v hv x hx.symm

theorem mapM_eval {c : Option Value} {x : Option Datum}
    (heval : ∀ v ∈ c, ∀ x, m.eval w v = some x → n.eval w (σ v) = some x)
    (h : c.mapM (m.eval w) = some x) : (c.map σ).mapM (n.eval w) = some x := by
  cases c with
  | none => exact h
  | some v =>
    obtain ⟨y, hy, hx⟩ := Option.map_eq_some_iff.1 h
    exact Option.map_eq_some_iff.2 ⟨y, heval v rfl y hy, hx⟩

theorem action_map (hheap : n.heap = m.heap) (htrace : n.trace = m.trace) {op : Op}
    (heval : ∀ v ∈ op.operands, ∀ x, m.eval w v = some x → n.eval w (σ v) = some x)
    (h : m.action o w op = some act) : n.action o w (op.map σ id) = some act := by
  cases op with
  | alloca ty => exact h
  | load pointer =>
    obtain ⟨c, x, hc, hx, rfl⟩ := action_load.1 h
    exact action_load.2 ⟨c, x, heval _ List.mem_cons_self _ hc, hheap ▸ hx, rfl⟩
  | store value pointer =>
    obtain ⟨x, c, y, hx, hc, hy, rfl⟩ := action_store.1 h
    exact action_store.2 ⟨x, c, y, heval _ (by simp [Form.operands]) _ hx,
      heval _ (by simp [Form.operands]) _ hc, hheap ▸ hy, rfl⟩
  | select c t e =>
    obtain ⟨k, x, y, hk, hx, hy, rfl⟩ := action_select.1 h
    exact action_select.2 ⟨k, x, y, heval _ (by simp [Form.operands]) _ hk,
      heval _ (by simp [Form.operands]) _ hx, heval _ (by simp [Form.operands]) _ hy, rfl⟩
  | call callee args =>
    obtain ⟨xs, hxs, hact⟩ := action_call.1 h
    exact action_call.2 ⟨xs, map_eval heval hxs, (call_congr hheap htrace callee xs).trans hact⟩
  | phi | br | ret | unreachable => cases h

theorem target_map {c : Option Value} {targets : List BlockId}
    (heval : ∀ v ∈ c, ∀ x, m.eval w v = some x → n.eval w (σ v) = some x)
    (h : m.target? w c targets = some b) : n.target? w (c.map σ) targets = some b := by
  cases c with
  | none => exact h
  | some c =>
    unfold target? at h
    dsimp only at h
    split at h
    · next k hk =>
      unfold target?
      rw [Option.map_some]
      dsimp only
      rw [heval c rfl _ hk]
      exact h
    · cases h

theorem incoming_map (hblock : n.block = m.block) {op : Op}
    (heval : ∀ v ∈ op.operands, ∀ x, m.eval w v = some x → n.eval w (σ v) = some x)
    (h : m.incoming? w op = some x) : n.incoming? w (op.map σ id) = some x := by
  cases op with
  | phi incoming =>
    obtain ⟨⟨v, d⟩, hfind, hx⟩ := Option.bind_eq_some_iff.1 h
    have hv : v ∈ (Form.phi incoming).operands :=
      List.mem_map_of_mem (f := Prod.fst) (List.mem_of_find?_eq_some hfind)
    refine Option.bind_eq_some_iff.2 ⟨(σ v, d), ?_, heval v hv x hx⟩
    rw [List.find?_map, hblock]
    exact Option.map_eq_some_iff.2 ⟨(v, d), hfind, rfl⟩
  | _ => cases h

end Machine

end BoxFlow
