import BoxFlow.Proofs.Dataflow.Aliases
import BoxFlow.Proofs.Dataflow.Grown

/-!
# What holds before every instruction

`Sound` is the invariant of the facts on their way through a block: aliases are well formed, and
nothing is known of ids that are no numbers yet. Under it every instruction has its effect
(`step_sound`), and every visit of a run starts with it (`entry_sound`).
-/

namespace BoxFlow

namespace Analysis

open View

variable {O : Set Oracle} {p : Program} {f : FuncId} {c : Classification} {a a' : Analysis}
  {s : Facts} {t u : Analysis × Facts} {i : InstId} {is : List InstId} {b : BlockId}
  {w : List BlockId}

/-! ## Bounds at the start of a block -/

theorem seedId_within {S : Set Id} {id : Id} (hs : s.knowledge.Within S) (hid : id ∈ S)
    (hu : unknown ∈ S) : (seedId c s id).knowledge.Within S := by
  have haliases : ({ s with aliases := s.aliases.insert id {id} } : Facts).knowledge.Within S := by
    refine ⟨hs.defs, ?_, hs.pointsTo⟩
    intro x m hm
    rw [Facts.mem_knowledge_aliases, Table.get_insert] at hm
    split at hm
    · next h => rw [IdSet.mem_singleton] at hm; exact ⟨h ▸ hid, hm ▸ hid⟩
    · exact hs.aliases hm
  have hsrc : {m | m ∈ ({unknown} : IdSet)} ⊆ S := by
    intro m hm
    rw [Set.mem_ofPred_eq, IdSet.mem_singleton] at hm
    exact hm ▸ hu
  unfold seedId
  dsimp only
  split
  · rw [Facts.knowledge_setTableOf]; exact haliases.describe hid hsrc _
  · rw [Facts.knowledge_setTableOf]; exact haliases.describe hid hsrc _
  · exact haliases

theorem seed_within (hc : c.Numbered) : (seed c).knowledge.Within (ids c.arena.size) := by
  have hfold (l : List Id) (s : Facts) (hl : ∀ x ∈ l, x ∈ ids c.arena.size)
      (hs : s.knowledge.Within (ids c.arena.size)) :
      (l.foldl (seedId c) s).knowledge.Within (ids c.arena.size) := by
    induction l generalizing s with
    | nil => exact hs
    | cons id l ih =>
      exact ih _ (fun x hx => hl x (List.mem_cons_of_mem _ hx))
        (seedId_within hs (hl id List.mem_cons_self) unknown_mem_ids)
  refine hfold _ _ (fun x hx => .inr (hc x ?_)) (Facts.knowledge_empty ▸ Knowledge.empty_within)
  rw [Classification.classOfId_ne_irrelevant]
  simpa [Classification.classifiedIds, IdSet.mem_union] using hx

theorem entry_within (hc : a.cls.Numbered) (he : a.ExitsWithin a.cls.arena.size) :
    (a.entry b).knowledge.Within (ids a.cls.arena.size) := by
  by_cases hne : a.program.predecessorBlocks b = []
  · rw [entry_eq_seed hne]
    exact seed_within hc
  · rw [knowledge_entry hne]
    refine .sUnion ?_
    rintro k ⟨q, _, hk⟩
    obtain ⟨s, hs, rfl⟩ := Option.map_eq_some_iff.1 hk
    exact he q s hs

/-! ## Through a block -/

/-- What holds of the facts before an instruction. -/
structure Sound (t : Analysis × Facts) : Prop where
  numbered : t.1.cls.Numbered
  exits : t.1.ExitsWithin t.1.cls.arena.size
  aliases : t.2.knowledge.AliasWF t.1.cls
  within : t.2.knowledge.Within (ids t.1.cls.arena.size)

theorem Extends.numbered (h : Extends a a') (hc : a.cls.Numbered) : a'.cls.Numbered := by
  intro x hx
  rw [h.classOfId] at hx
  obtain ⟨h0, hlt⟩ := hc x hx
  exact ⟨h0, Int.lt_of_lt_of_le hlt (Int.ofNat_le.2 (Arena.size_le h.arena))⟩

theorem Extends.exitsWithin (h : Extends a a') (he : a.ExitsWithin a.cls.arena.size) :
    a'.ExitsWithin a'.cls.arena.size := by
  intro b e hb
  rw [h.exits] at hb
  exact (he b e hb).mono (ids_mono (Arena.size_le h.arena))

/-- The view that a step leaves has the numbers that the rule reserves in the view before. -/
theorem step_view (h : Step O i t u) : ∃ v : View, v.cls = t.1.cls ∧ Grown [] v u.1.toView ∧
    u.1.cls.arena = v.reserve i := by
  obtain ⟨o, _, rfl⟩ := h
  exact ⟨{ t.1.toView with oracle := o }, rfl, ⟨rfl, rfl, rfl, reserve_prefix _ i, by simp⟩, rfl⟩

/-- A step numbers what its rule mentions. -/
theorem step_reserved (h : Step O i t u) (hc : t.1.cls.Numbered) : u.1.Reserved i := by
  obtain ⟨v, hcls, hg, harena⟩ := step_view h
  intro x hx
  have hx' : v.reserved i = some x := by
    rw [← show u.1.reserved i = some x from hx, reserved, reserved, hg.rule (hcls ▸ hc)]
  have hfind : u.1.cls.arena.find x = some (v.idOf x) := by
    rw [harena, reserve_eq, hx', Option.elim_some]
    exact Arena.find_insert_self _ x
  exact hfind.trans (congrArg some (Arena.idOf_of_find hfind).symm)

/-- An instruction keeps the invariant and has its effect. -/
theorem step_sound (h : Step O i t u) (ht : Sound t) :
    Sound u ∧ u.2.knowledge = u.1.effect i t.2.knowledge := by
  have he := step_extends h
  have haliases : t.2.knowledge.AliasWF u.1.cls := ht.aliases.classes he.classOfId
  have hwithin : t.2.knowledge.Within (ids u.1.cls.arena.size) :=
    ht.within.mono (ids_mono (Arena.size_le he.arena))
  have hout : u.2.knowledge = u.1.effect i t.2.knowledge := by
    rw [(step_records h).1, knowledge_transfer haliases]
  refine ⟨⟨he.numbered ht.numbered, he.exitsWithin ht.exits, ?_, ?_⟩, hout⟩
  · rw [hout]
    exact effect_aliasWF haliases
  · rw [hout]
    exact effect_within (step_reserved h ht.numbered) (he.exitsWithin ht.exits) hwithin

theorem steps_sound (h : Steps O is t u) (ht : Sound t) : Sound u :=
  h.induction (fun _ hi ht => (step_sound hi ht).1) ht

/-! ## Along a run -/

theorem sound_of_bounds (hp : p.Linked) (h : Run O p f c (b :: w) a)
    (ha : a.cls.Numbered ∧ a.ExitsWithin a.cls.arena.size) : Sound (a, a.entry b) := by
  have hready := run_ready hp h (.inl List.mem_cons_self)
  rw [← (run_program h).1] at hready
  exact ⟨ha.1, ha.2,
    (entry_aliasWF (run_aliasesWF hp h).exits (run_classOfId h) hready).classes (run_classOfId h),
    entry_within ha.1 ha.2⟩

theorem run_bounds (hp : p.Linked) (hc : c.Numbered) (h : Run O p f c w a) :
    a.cls.Numbered ∧ a.ExitsWithin a.cls.arena.size := by
  induction h with
  | start => exact ⟨hc, by simp [ExitsWithin, start]⟩
  | @visit b w a a' out h hs ih =>
    have hout := steps_sound hs (sound_of_bounds hp h ih)
    refine ⟨hout.numbered, fun d e hd => ?_⟩
    rcases getElem?_insert_eq_some.1 hd with ⟨-, rfl⟩ | ⟨-, hd⟩
    · exact hout.within
    · exact hout.exits d e hd

/-- Every visit starts with the invariant. -/
theorem entry_sound (hp : p.Linked) (hc : c.Numbered) (h : Run O p f c (b :: w) a) :
    Sound (a, a.entry b) :=
  sound_of_bounds hp h (run_bounds hp hc h)

end Analysis

end BoxFlow
