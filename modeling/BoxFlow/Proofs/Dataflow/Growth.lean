import BoxFlow.Proofs.Dataflow.Grown

/-!
# What grows with what is known

Effects are monotone in the aliases and in what cells may hold. They are monotone in what sets the
handles, too, as long as no call may modify a handle: a call that may do so forgets what was known
of every handle that it can reach, and of no other. `Knowledge.Below D` is the order with or without
the last table.
-/

namespace BoxFlow

namespace Knowledge

variable {D : Prop} {k l l' : Knowledge} {c : Classification} {id : Id}

/-- `l` knows what `k` knows; of what sets handles only if `D`. -/
structure Below (D : Prop) (k l : Knowledge) : Prop where
  defs : D → ∀ x, k.defs x ⊆ l.defs x
  aliases : ∀ x, k.aliases x ⊆ l.aliases x
  pointsTo : ∀ x, k.pointsTo x ⊆ l.pointsTo x

namespace Below

theorem refl (k : Knowledge) : Below D k k := ⟨fun _ _ => subset_rfl, fun _ => subset_rfl,
  fun _ => subset_rfl⟩

theorem true_iff : Below True k l ↔ k ≤ l :=
  ⟨fun h => le_iff.2 ⟨h.defs trivial, h.aliases, h.pointsTo⟩, fun h =>
    ⟨fun _ => (le_iff.1 h).1, (le_iff.1 h).2.1, (le_iff.1 h).2.2⟩⟩

theorem trans (h : Below D k l) (h' : Below D l l') : Below D k l' :=
  ⟨fun hD x => (h.defs hD x).trans (h'.defs hD x), fun x => (h.aliases x).trans (h'.aliases x),
    fun x => (h.pointsTo x).trans (h'.pointsTo x)⟩

theorem tableOf (h : Below D k l) {c : ValueClass} (hc : c = .data → D) (x : Id) :
    k.tableOf c x ⊆ l.tableOf c x := by
  cases c with
  | data => exact h.defs (hc rfl) x
  | pointer | irrelevant => exact h.pointsTo x

theorem sUnion {S T : Set Knowledge} (h : ∀ k ∈ S, ∃ l ∈ T, Below D k l) :
    Below D (sUnion S) (sUnion T) := by
  refine ⟨fun hD x m => ?_, fun x m => ?_, fun x m => ?_⟩ <;> rintro ⟨k, hk, hm⟩ <;>
    obtain ⟨l, hl, hle⟩ := h k hk
  · exact ⟨l, hl, hle.defs hD x hm⟩
  · exact ⟨l, hl, hle.aliases x hm⟩
  · exact ⟨l, hl, hle.pointsTo x hm⟩

theorem relink (h : Below D k l) {ls ls' : Set Id} (hls : ls ⊆ ls') :
    Below D (k.relink id ls) (l.relink id ls') := by
  refine ⟨h.defs, fun x m => ?_, h.pointsTo⟩
  rintro (⟨hx, hm⟩ | ⟨hm, hx⟩ | ⟨hx, hm, h'⟩)
  · exact .inl ⟨hx, hm.imp_right (@hls m)⟩
  · exact .inr (.inl ⟨hm, hls hx⟩)
  · exact .inr (.inr ⟨hx, hm, h.aliases x h'⟩)

theorem describe (h : Below D k l) {c : ValueClass} {ms ms' : Set Id}
    (hms : (c = .data → D) → ms ⊆ ms') : Below D (k.describe id c ms) (l.describe id c ms') := by
  cases c with
  | data =>
    refine ⟨fun hD x m => ?_, h.aliases, h.pointsTo⟩
    exact Or.imp (And.imp_right (@hms (fun _ => hD) m)) (And.imp_right (@h.defs hD x m))
  | pointer | irrelevant =>
    refine ⟨h.defs, h.aliases, fun x m => ?_⟩
    exact Or.imp (And.imp_right (@hms nofun m)) (And.imp_right (@h.pointsTo x m))

theorem define (h : Below D k l) (d : Id) : Below D (k.define id d) (l.define id d) :=
  ⟨fun hD x m => Or.imp (And.imp_left (@h.aliases id x)) (And.imp_right (@h.defs hD x m)),
    h.aliases, h.pointsTo⟩

theorem overwrite (h : Below D k l) (target : Id) :
    Below D (k.overwrite id target) (l.overwrite id target) :=
  ⟨h.defs, h.aliases,
    fun x m => Or.imp (And.imp_left (@h.aliases id x)) (And.imp_right (@h.pointsTo x m))⟩

theorem reachableData (h : Below D k l) (x : Id) : k.reachableData c x ⊆ l.reachableData c x := by
  rintro m ⟨q, hq, hm, hclass⟩
  exact ⟨q, Relation.ReflTransGen.mono (fun _ _ => And.imp_left (@h.pointsTo _ _)) _ _ hq,
    h.pointsTo q hm, hclass⟩

end Below

end Knowledge

namespace View

open Knowledge (Below)

variable {D : Prop} {v : View} {i : InstId} {k l : Knowledge}
  {E : Std.ExtTreeMap BlockId Facts} {args : List Value}

/-- Instruction `i` is no call that may modify a handle. -/
def KeepsHandles (v : View) (i : InstId) : Prop :=
  ∀ args, v.rule i = .call args → ∀ j, v.cls.classOfId j = .data → v.mayModify i j = false

theorem KeepsHandles.grown {v' : View} {B : List BlockId} (h : v.KeepsHandles i)
    (hg : Grown B v v') (hc : v.cls.Numbered) : v'.KeepsHandles i := by
  intro args hrule j hj
  rw [hg.rule hc] at hrule
  rw [hg.classOfId] at hj
  rw [hg.mayModify (hc j (by simp [hj])).2]
  exact h args hrule j hj

/-- More is known at the ends of more blocks. -/
def ExitsBelow (D : Prop) (E E' : Std.ExtTreeMap BlockId Facts) : Prop :=
  ∀ (b : BlockId) (e : Facts), E[b]? = some e →
    ∃ e' : Facts, E'[b]? = some e' ∧ Below D e.knowledge e'.knowledge

theorem mergeEffect_below (h : Below D k l) {sources sources' : Set (Id × Knowledge)}
    (hs : ∀ q ∈ sources, ∃ q' ∈ sources', q'.1 = q.1 ∧ Below D q.2 q'.2) :
    Below D (v.mergeEffect i k sources) (v.mergeEffect i l sources') := by
  unfold mergeEffect
  split
  · exact h
  · refine (h.relink ?_).describe fun hc => ?_
    · rintro m ⟨q, hq, hm⟩
      obtain ⟨q', hq', hid, hle⟩ := hs q hq
      exact ⟨q', hq', hid ▸ hle.aliases q.1 hm⟩
    · rintro m ⟨q, hq, hm⟩
      obtain ⟨q', hq', hid, hle⟩ := hs q hq
      exact ⟨q', hq', hid ▸ hle.tableOf hc q.1 hm⟩

theorem loadEffect_below (h : Below D k l) (pointer : Value) :
    Below D (v.loadEffect i k pointer) (v.loadEffect i l pointer) := by
  have hpt := h.pointsTo (v.idOf pointer)
  have hlinked : Below D
      (k.relink (v.idOf (.inst i))
        {m | ∃ j ∈ k.pointsTo (v.idOf pointer), j ≠ unknown ∧ m ∈ k.aliases j})
      (l.relink (v.idOf (.inst i))
        {m | ∃ j ∈ l.pointsTo (v.idOf pointer), j ≠ unknown ∧ m ∈ l.aliases j}) := by
    refine h.relink ?_
    rintro m ⟨j, hj, hu, hm⟩
    exact ⟨j, hpt hj, hu, h.aliases j hm⟩
  have hloaded : Below D (v.loadedEffect i k pointer) (v.loadedEffect i l pointer) := by
    unfold loadedEffect
    dsimp only
    split
    · exact hlinked
    · refine hlinked.describe fun hc => ?_
      rintro m (⟨rfl, hu⟩ | ⟨j, hj, hu, hclass, hm⟩)
      · exact .inl ⟨rfl, hpt hu⟩
      · exact .inr ⟨j, hpt hj, hu, hclass, h.tableOf hc j hm⟩
  refine ⟨hloaded.defs, hloaded.aliases, fun x m => ?_⟩
  exact Or.imp (And.imp_left (@hloaded.pointsTo x m)) (And.imp_left (@h.aliases _ x))

theorem dataSet_subset_of_below (h : Below D k l) : v.dataSet k args ⊆ v.dataSet l args := by
  rintro m ⟨a, ha, hm⟩
  exact ⟨a, ha, hm.imp_right (And.imp_right fun hm => h.reachableData _ hm)⟩

theorem modified_eq_empty (hv : v.KeepsHandles i) (hrule : v.rule i = .call args) :
    v.modified i k args = ∅ := by
  refine Set.eq_empty_of_forall_notMem fun j hj => ?_
  have := hv args hrule j (classOfId_of_mem_modified hj)
  exact absurd hj.2.2 (by simp [this])

theorem touch_below (hrule : v.rule i = .call args) (hD : D → v.KeepsHandles i)
    (h : Below D k l) :
    Below D (v.touch i k args) (v.touch i l args) := by
  refine ⟨fun d x m => ?_, h.aliases, fun x m => ?_⟩
  · simp only [touch, modified_eq_empty (hD d) hrule]
    rintro (⟨_, j, hj, _⟩ | ⟨hx, hm⟩)
    · cases hj
    · exact .inr ⟨hx, h.defs d x hm⟩
  · rintro (hm | ⟨⟨p, hp, hmod, hx⟩, hm⟩)
    · exact .inl (h.pointsTo x hm)
    · exact .inr ⟨⟨p, hp, hmod, h.aliases p hx⟩, dataSet_subset_of_below h hm⟩

theorem opaqueEffect_below (hrule : v.rule i = .call args) (hD : D → v.KeepsHandles i)
    (h : Below D k l) : Below D (v.opaqueEffect i k args) (v.opaqueEffect i l args) := by
  have ht : Below D (v.touch i k args) (v.touch i l args) := touch_below hrule hD h
  have hsources (c : ValueClass) : v.resultSources k c args ⊆ v.resultSources l c args := by
    cases c with
    | data => exact fun q hq => ⟨hq.1, dataSet_subset_of_below h hq.2⟩
    | pointer | irrelevant => exact subset_rfl
  unfold opaqueEffect
  dsimp only
  split
  · exact ht
  · refine (ht.relink ?_).describe fun hc => ?_
    · rintro m ⟨q, hq, hm⟩
      exact ⟨q, hsources _ hq, h.aliases q hm⟩
    · rintro m (rfl | ⟨q, hq, hm⟩)
      · exact .inl rfl
      · exact .inr ⟨q, hsources _ hq, ht.tableOf hc q hm⟩

/-- Effects are monotone. -/
theorem effect_below (hD : D → v.KeepsHandles i) (hE : ExitsBelow D v.exits E) (h : Below D k l) :
    Below D (v.effect i k) ({ v with exits := E }.effect i l) := by
  have hrule : ({ v with exits := E } : View).rule i = v.rule i := rfl
  rw [effect, effect, hrule]
  cases hr : v.rule i with
  | keep => exact h
  | phi incoming =>
    refine mergeEffect_below h ?_
    rintro ⟨j, _⟩ ⟨x, b, e, hx, hfind, hb, rfl⟩
    obtain ⟨e', hb', hle⟩ := hE b e hb
    exact ⟨(j, e'.knowledge), ⟨x, b, e', hx, hfind, hb', rfl⟩, rfl, hle⟩
  | select t e =>
    refine mergeEffect_below h ?_
    rintro ⟨j, _⟩ ⟨hfind, rfl⟩
    exact ⟨(j, l), ⟨hfind, rfl⟩, rfl, h⟩
  | cell => exact (h.relink subset_rfl).describe fun _ => subset_rfl
  | store value pointer => exact h.overwrite _
  | load pointer => exact loadEffect_below h pointer
  | handle => exact (h.relink subset_rfl).define _
  | set handle => exact h.define _
  | call args => exact opaqueEffect_below hr hD h

theorem effects_below {is : List InstId} (hD : D → ∀ i ∈ is, v.KeepsHandles i)
    (hE : ExitsBelow D v.exits E) (h : Below D k l) :
    Below D (v.effects is k) ({ v with exits := E }.effects is l) := by
  induction is generalizing k l with
  | nil => exact h
  | cons i is ih =>
    exact ih (fun d j hj => hD d j (List.mem_cons_of_mem _ hj))
      (effect_below (fun d => hD d i List.mem_cons_self) hE h)

end View

end BoxFlow
