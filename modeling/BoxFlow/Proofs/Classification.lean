import BoxFlow.Classification
import BoxFlow.Proofs.Arena
import BoxFlow.Proofs.Facts.Tables

/-!
# How a classification grows

Seeds and visits do nothing but put values into sets (`Adds`), so what `add` and `addPointee`
preserve, a classification has. It only ever classifies values that it has numbered
(`ofFunc_numbered`).
-/

namespace BoxFlow

/-- What an instruction may pass on as its result, if it is a phi or a select. -/
def Form.merged {V B : Type} : Form V B → List V
  | .phi incoming => incoming.map (·.1)
  | .select _ t e => [t, e]
  | _ => []

namespace Classification

variable {c d e : Classification} {x y : Value} {id : Id} {vs : List Value}

theorem classOfId_ne_irrelevant : c.classOfId id ≠ .irrelevant ↔ id ∈ c.data ∨ id ∈ c.pointer := by
  unfold classOfId
  split
  · simp_all
  · split <;> simp_all

theorem classOfId_idOf (h : c.classOf x ≠ .irrelevant) :
    c.classOfId (c.arena.idOf x) = c.classOf x := by
  unfold classOf at h ⊢
  unfold Arena.idOf
  split at h
  · next h' => rw [h', Option.getD_some]
  · exact absurd rfl h

theorem find_of_classOf (h : c.classOf x ≠ .irrelevant) :
    c.arena.find x = some (c.arena.idOf x) := by
  unfold classOf at h
  split at h
  · next h' => rw [h', Arena.idOf, h', Option.getD_some]
  · exact absurd rfl h

theorem mem_pointer (h : c.classOfId id = .pointer) : id ∈ c.pointer := by
  unfold classOfId at h
  split at h
  · cases h
  · split at h
    · assumption
    · cases h

/-! ## Growth -/

/-- Values of `vs` have entered sets, one after another. -/
inductive Adds (vs : List Value) (c : Classification) : Classification → Prop
  | refl : Adds vs c c
  | add {d : Classification} {x : Value} (k : ValueClass) :
    Adds vs c d → x ∈ vs → Adds vs c (d.add x k)
  | addPointee {d : Classification} {x : Value} (k : ValueClass) :
    Adds vs c d → x ∈ vs → Adds vs c (d.addPointee x k)

namespace Adds

theorem trans (h : Adds vs c d) (h' : Adds vs d e) : Adds vs c e := by
  induction h' with
  | refl => exact h
  | add k _ hx ih => exact ih.add k hx
  | addPointee k _ hx ih => exact ih.addPointee k hx

theorem mono {ws : List Value} (h : Adds vs c d) (hvs : vs ⊆ ws) : Adds ws c d := by
  induction h with
  | refl => exact .refl
  | add k _ hx ih => exact ih.add k (hvs hx)
  | addPointee k _ hx ih => exact ih.addPointee k (hvs hx)

theorem foldl {α : Type} {g : Classification → α → Classification} {l : List α}
    (hg : ∀ d, ∀ a ∈ l, Adds vs d (g d a)) (c : Classification) : Adds vs c (l.foldl g c) := by
  induction l generalizing c with
  | nil => exact .refl
  | cons a l ih =>
    exact (hg c a List.mem_cons_self).trans
      (ih (fun d b hb => hg d b (List.mem_cons_of_mem _ hb)) _)

theorem kinds (h : Adds vs c d) : d.kinds = c.kinds := by
  induction h with
  | refl => rfl
  | add k _ _ ih =>
    rw [← ih, Classification.add]
    split
    · rfl
    · cases k <;> rfl
  | addPointee k _ _ ih => rw [← ih]; cases k <;> rfl

end Adds

theorem spread_adds {result : Value} {inputs : List Value} (hr : result ∈ vs) (hi : inputs ⊆ vs) :
    Adds vs c (c.spread result inputs) := by
  unfold spread
  split
  · exact .foldl (fun d v _ => Adds.refl.add _ hr) c
  · exact .foldl (fun d v hv => Adds.refl.add _ (hi hv)) c

theorem visitMerge_adds {result : Value} {inputs : List Value} (hr : result ∈ vs)
    (hi : inputs ⊆ vs) : Adds vs (c.spread result inputs) (c.visitMerge result inputs) := by
  unfold visitMerge
  dsimp only
  split
  · refine .foldl (fun d a ha => .foldl (fun e b _ => Adds.refl.addPointee _ ?_) d) _
    rcases List.mem_cons.1 ha with rfl | ha
    · exact hr
    · exact hi (List.mem_filter.1 ha).1
  · exact .refl

theorem loadedFrom_adds {result pointer : Value} (hp : pointer ∈ vs) :
    Adds vs c (c.loadedFrom result pointer) := by
  unfold loadedFrom
  split
  · exact (Adds.refl.add _ hp).addPointee _ hp
  · exact .refl

theorem visit_adds (p : Program) (c : Classification) (i : InstId) :
    Adds (p.mentioned i) c (visit p c i) := by
  have hmerge {inputs : List Value} (hi : inputs ⊆ p.mentioned i) :
      Adds (p.mentioned i) c (c.visitMerge (.inst i) inputs) :=
    (spread_adds List.mem_cons_self hi).trans (visitMerge_adds List.mem_cons_self hi)
  have hoperand {v : Value} (h : v ∈ (p.inst i).op.operands) : v ∈ p.mentioned i :=
    List.mem_cons_of_mem _ h
  unfold visit
  split
  · next value pointer hop =>
    have hptr : pointer ∈ p.mentioned i := hoperand (by rw [hop]; simp [Form.operands])
    unfold visitStore
    split
    · exact .refl
    · exact (Adds.refl.add _ hptr).addPointee _ hptr
  · next pointer hop =>
    have hptr : pointer ∈ p.mentioned i := hoperand (by rw [hop]; simp [Form.operands])
    unfold visitLoad
    dsimp only
    split
    · exact (loadedFrom_adds hptr).add _ List.mem_cons_self
    · exact loadedFrom_adds hptr
  · next incoming hop => exact hmerge fun v hv => hoperand (by rw [hop]; exact hv)
  · next cond t e hop =>
    exact hmerge fun v hv => hoperand (by rw [hop]; exact List.mem_cons_of_mem _ hv)
  · exact .refl

theorem scan_adds (p : Program) (is : List InstId) (c : Classification) :
    Adds (is.flatMap p.mentioned) c (scan p is c) :=
  .foldl (fun d i hi => (visit_adds p d i).mono fun _ hv => List.mem_flatMap.2 ⟨i, hi, hv⟩) c

theorem settle_adds (p : Program) (is : List InstId) (n : Nat) (c : Classification) :
    Adds (is.flatMap p.mentioned) c (settle p is n c).1 := by
  induction n generalizing c with
  | zero => exact .refl
  | succ n ih =>
    unfold settle
    dsimp only
    split
    · exact .refl
    · exact (scan_adds p is c).trans (ih _)

/-- The kind of an instruction is noted if it is a call. -/
def noted (p : Program) (o : Options) (c : Classification) (i : InstId) : Classification :=
  match (p.inst i).op with
  | .call callee _ => { c with kinds := c.kinds.insert i (o.kindOf callee) }
  | _ => c

theorem seed_adds (p : Program) (o : Options) (c : Classification) (i : InstId) :
    Adds (p.mentioned i) (noted p o c i) (seed p o c i) := by
  unfold seed noted
  cases hop : (p.inst i).op with
  | alloca ty => exact Adds.refl.add _ List.mem_cons_self
  | call callee args =>
    have hargs (d : Classification) : Adds (p.mentioned i) d
        ((args.take (o.kindOf callee).handleArgs).foldl (·.add · .data) d) :=
      .foldl (fun e v hv => Adds.refl.add _ (List.mem_cons_of_mem _
        (by rw [hop]; exact List.mem_of_mem_take hv))) d
    dsimp only
    split
    · exact (Adds.refl.add _ List.mem_cons_self).trans (hargs _)
    · exact hargs _
  | _ => exact .refl

/-! ## Numbers -/

/-- The classified ids are numbers of values. -/
def Numbered (c : Classification) : Prop :=
  ∀ x, c.classOfId x ≠ .irrelevant → 0 ≤ x ∧ x < c.arena.size

theorem add_numbered (hc : c.Numbered) (x : Value) (k : ValueClass) : (c.add x k).Numbered := by
  have hid := Arena.find_bounds (Arena.find_insert_self c.arena x)
  have hold {y : Id} (h : y ∈ c.data ∨ y ∈ c.pointer) : 0 ≤ y ∧ y < (c.arena.insert x).size := by
    obtain ⟨h0, h⟩ := hc y (classOfId_ne_irrelevant.2 h)
    exact ⟨h0, Int.lt_of_lt_of_le h (Int.ofNat_le.2 (Arena.size_le (Arena.insert_prefix ..)))⟩
  unfold add
  split
  · exact hc
  · intro y hy
    rw [classOfId_ne_irrelevant] at hy
    cases k with
    | data =>
      simp only [IdSet.mem_insert] at hy
      rcases hy with (rfl | hy) | hy
      · exact hid
      · exact hold (.inl hy)
      · exact hold (.inr hy)
    | pointer =>
      simp only [IdSet.mem_insert] at hy
      rcases hy with hy | rfl | hy
      · exact hold (.inl hy)
      · exact hid
      · exact hold (.inr hy)
    | irrelevant => exact hc y (classOfId_ne_irrelevant.2 hy)

theorem addPointee_numbered (hc : c.Numbered) (x : Value) (k : ValueClass) :
    (c.addPointee x k).Numbered := by
  have hold (y : Id) (h : c.classOfId y ≠ .irrelevant) : 0 ≤ y ∧ y < (c.arena.insert x).size := by
    obtain ⟨h0, h⟩ := hc y h
    exact ⟨h0, Int.lt_of_lt_of_le h (Int.ofNat_le.2 (Arena.size_le (Arena.insert_prefix ..)))⟩
  unfold addPointee
  cases k with
  | data | pointer => exact hold
  | irrelevant => exact hc

theorem Adds.numbered (h : Adds vs c d) (hc : c.Numbered) : d.Numbered := by
  induction h with
  | refl => exact hc
  | add k _ _ ih => exact add_numbered ih _ _
  | addPointee k _ _ ih => exact addPointee_numbered ih _ _

theorem noted_numbered (p : Program) (o : Options) (hc : c.Numbered) (i : InstId) :
    (noted p o c i).Numbered := by
  unfold noted
  split <;> exact hc

theorem ofFunc_numbered (p : Program) (o : Options) (f : FuncId) : (ofFunc p o f).1.Numbered := by
  refine (settle_adds ..).numbered ?_
  refine List.foldlRecOn (motive := Numbered) _ _ ?_ fun c hc i _ => ?_
  · exact fun x hx => absurd (classOfId_ne_irrelevant.1 hx) (by simp)
  · exact (seed_adds p o c i).numbered (noted_numbered p o hc i)

end Classification

end BoxFlow
