import BoxFlow.Proofs.Classification
import BoxFlow.Proofs.Dataflow.Run
import BoxFlow.Proofs.Dataflow.Transfer

/-!
# Facts about numbered values

Facts mention no ids but `unknown` and the numbers given so far (`Knowledge.Within`), since the rule
of an instruction numbers what it mentions before it is applied.
-/

namespace BoxFlow

/-! ## Where ids come from -/

namespace Knowledge

variable {S : Set Id} {k : Knowledge} {id d target : Id} {ls ms : Set Id}

/-- Nothing is known of ids outside `S`. -/
structure Within (S : Set Id) (k : Knowledge) : Prop where
  defs : ∀ {x m}, m ∈ k.defs x → x ∈ S ∧ m ∈ S
  aliases : ∀ {x m}, m ∈ k.aliases x → x ∈ S ∧ m ∈ S
  pointsTo : ∀ {x m}, m ∈ k.pointsTo x → x ∈ S ∧ m ∈ S

theorem Within.mono {T : Set Id} (hk : k.Within S) (h : S ⊆ T) : k.Within T where
  defs hm := (hk.defs hm).imp (@h _) (@h _)
  aliases hm := (hk.aliases hm).imp (@h _) (@h _)
  pointsTo hm := (hk.pointsTo hm).imp (@h _) (@h _)

theorem Within.tableOf (hk : k.Within S) {c : ValueClass} {x m : Id} (h : m ∈ k.tableOf c x) :
    x ∈ S ∧ m ∈ S := by
  cases c with
  | data => exact hk.defs h
  | pointer | irrelevant => exact hk.pointsTo h

theorem empty_within : empty.Within S := ⟨nofun, nofun, nofun⟩

theorem Within.sUnion {T : Set Knowledge} (h : ∀ k ∈ T, k.Within S) : (sUnion T).Within S where
  defs := fun ⟨k, hk, hm⟩ => (h k hk).defs hm
  aliases := fun ⟨k, hk, hm⟩ => (h k hk).aliases hm
  pointsTo := fun ⟨k, hk, hm⟩ => (h k hk).pointsTo hm

theorem Within.relink (hk : k.Within S) (hid : id ∈ S) (hls : ls ⊆ S) :
    (k.relink id ls).Within S where
  defs := hk.defs
  aliases := by
    rintro x m (⟨rfl, rfl | h⟩ | ⟨rfl, h⟩ | ⟨_, _, h⟩)
    · exact ⟨hid, hid⟩
    · exact ⟨hid, hls h⟩
    · exact ⟨hls h, hid⟩
    · exact hk.aliases h
  pointsTo := hk.pointsTo

theorem Within.describe (hk : k.Within S) (hid : id ∈ S) (hms : ms ⊆ S) (c : ValueClass) :
    (k.describe id c ms).Within S := by
  cases c with
  | data =>
    refine ⟨?_, hk.aliases, hk.pointsTo⟩
    rintro x m (⟨rfl, h⟩ | ⟨_, h⟩)
    · exact ⟨hid, hms h⟩
    · exact hk.defs h
  | pointer | irrelevant =>
    refine ⟨hk.defs, hk.aliases, ?_⟩
    rintro x m (⟨rfl, h⟩ | ⟨_, h⟩)
    · exact ⟨hid, hms h⟩
    · exact hk.pointsTo h

theorem Within.define (hk : k.Within S) (hd : d ∈ S) : (k.define id d).Within S where
  defs := by
    rintro x m (⟨h, rfl⟩ | ⟨_, h⟩)
    · exact ⟨(hk.aliases h).2, hd⟩
    · exact hk.defs h
  aliases := hk.aliases
  pointsTo := hk.pointsTo

theorem Within.overwrite (hk : k.Within S) (ht : target ∈ S) :
    (k.overwrite id target).Within S where
  defs := hk.defs
  aliases := hk.aliases
  pointsTo := by
    rintro x m (⟨h, rfl⟩ | ⟨_, h⟩)
    · exact ⟨(hk.aliases h).2, ht⟩
    · exact hk.pointsTo h

end Knowledge

/-- `unknown` and the first `n` numbers. -/
def ids (n : Nat) : Set Id := {x | x = unknown ∨ 0 ≤ x ∧ x < n}

theorem ids_mono {m n : Nat} (h : m ≤ n) : ids m ⊆ ids n := by
  rintro x (rfl | ⟨h0, hx⟩)
  · exact .inl rfl
  · exact .inr ⟨h0, Int.lt_of_lt_of_le hx (Int.ofNat_le.2 h)⟩

theorem unknown_mem_ids {n : Nat} : unknown ∈ ids n := .inl rfl

namespace View

variable {v v' : View} {i : InstId} {k : Knowledge} {x : Value} {id : Id}

/-- The value that the rule of an instruction numbers. -/
def reserved (v : View) (i : InstId) : Option Value :=
  match v.rule i with
  | .store value _ => some value
  | .load _ | .handle | .set _ => some (.inst i)
  | _ => none

theorem reserve_eq (v : View) (i : InstId) :
    v.reserve i = (v.reserved i).elim v.cls.arena v.cls.arena.insert := by
  unfold reserve reserved rule
  cases (v.program.inst i).op with
  | alloca ty => by_cases h : v.cls.classOf (.inst i) = .pointer <;> simp [h]
  | store value pointer | load pointer =>
    by_cases h : v.cls.classOf pointer = .pointer <;> simp [h]
  | call callee args =>
    cases v.cls.kindOf i with
    | opaqueCall | benign => cases args <;> rfl
    | operation o =>
      cases o with
      | create => rfl
      | read | destroy => cases args <;> rfl
      | write | add | subtract =>
        cases args with
        | nil => rfl
        | cons handle args =>
          by_cases h : v.cls.classOf handle = .data <;> simp [CallKind.definesFirst, h]
  | phi | select | br | ret | unreachable => rfl

theorem mem_of_reserved {x : Value} (h : v.reserved i = some x) :
    x = .inst i ∨ x ∈ (v.program.inst i).op.operands := by
  have hfits := rule_fits (v := v) (i := i)
  unfold reserved at h
  split at h
  · next value pointer hr =>
    rw [hr] at hfits
    cases h
    right
    rw [hfits.1]
    exact List.mem_cons_self
  all_goals cases h; try exact .inl rfl

/-- What is numbered has a number below the size of the arena. -/
theorem find_mem_ids (h : v.cls.arena.find x = some id) : id ∈ ids v.cls.arena.size :=
  .inr (Arena.find_bounds h)

theorem idOf_mem_ids (h : v.cls.classOf x ≠ .irrelevant) : v.idOf x ∈ ids v.cls.arena.size :=
  find_mem_ids (Classification.find_of_classOf h)

/-- Everything that the rule of an instruction mentions has a number. -/
def Reserved (v : View) (i : InstId) : Prop :=
  ∀ x ∈ v.reserved i, v.cls.arena.find x = some (v.idOf x)

/-- The facts at the ends of blocks mention none but the first `n` numbers. -/
def ExitsWithin (v : View) (n : Nat) : Prop :=
  ∀ (b : BlockId) (e : Facts), v.exits[b]? = some e → e.knowledge.Within (ids n)

theorem dataSet_subset (hk : k.Within (ids v.cls.arena.size)) (args : List Value) :
    v.dataSet k args ⊆ ids v.cls.arena.size := by
  rintro m ⟨a, _, ⟨h, rfl⟩ | ⟨_, _, _, h, _⟩⟩
  · exact idOf_mem_ids (by simp [h])
  · exact (hk.pointsTo h).2

theorem touch_within (hk : k.Within (ids v.cls.arena.size)) (args : List Value) :
    (v.touch i k args).Within (ids v.cls.arena.size) where
  defs := by
    rintro x m (⟨rfl, j, _, h⟩ | ⟨_, h⟩)
    · exact ⟨(hk.aliases h).2, unknown_mem_ids⟩
    · exact hk.defs h
  aliases := hk.aliases
  pointsTo := by
    rintro x m (h | ⟨⟨p, _, _, h⟩, hm⟩)
    · exact hk.pointsTo h
    · exact ⟨(hk.aliases h).2, dataSet_subset hk args hm⟩

theorem mergeEffect_within (hk : k.Within (ids v.cls.arena.size)) {sources : Set (Id × Knowledge)}
    (hs : ∀ q ∈ sources, q.2.Within (ids v.cls.arena.size)) :
    (v.mergeEffect i k sources).Within (ids v.cls.arena.size) := by
  unfold mergeEffect
  split
  · exact hk
  · next h =>
    have hid : v.idOf (.inst i) ∈ ids v.cls.arena.size := idOf_mem_ids h
    refine (hk.relink hid ?_).describe hid ?_ _
    · rintro m ⟨q, hq, hm⟩
      exact ((hs q hq).aliases hm).2
    · rintro m ⟨q, hq, hm⟩
      exact ((hs q hq).tableOf hm).2

theorem loadEffect_within (hk : k.Within (ids v.cls.arena.size))
    (hid : v.idOf (.inst i) ∈ ids v.cls.arena.size) (pointer : Value) :
    (v.loadEffect i k pointer).Within (ids v.cls.arena.size) := by
  have hls : {m | ∃ j ∈ k.pointsTo (v.idOf pointer), j ≠ unknown ∧ m ∈ k.aliases j} ⊆
      ids v.cls.arena.size := by
    rintro m ⟨j, _, _, hm⟩
    exact (hk.aliases hm).2
  have hloaded : (v.loadedEffect i k pointer).Within (ids v.cls.arena.size) := by
    unfold loadedEffect
    dsimp only
    split
    · exact hk.relink hid hls
    · refine (hk.relink hid hls).describe hid ?_ _
      rintro m (⟨rfl, _⟩ | ⟨j, _, _, _, hm⟩)
      · exact unknown_mem_ids
      · exact (hk.tableOf hm).2
  refine ⟨hloaded.defs, hloaded.aliases, ?_⟩
  rintro x m (⟨h, _⟩ | ⟨h, rfl⟩)
  · exact hloaded.pointsTo h
  · exact ⟨(hk.aliases h).2, hid⟩

theorem opaqueEffect_within (hk : k.Within (ids v.cls.arena.size)) (args : List Value) :
    (v.opaqueEffect i k args).Within (ids v.cls.arena.size) := by
  have ht := touch_within (i := i) hk args
  dsimp only [opaqueEffect]
  split
  · exact ht
  · next h =>
    have hid : v.idOf (.inst i) ∈ ids v.cls.arena.size := idOf_mem_ids h
    refine (ht.relink hid ?_).describe hid ?_ _
    · rintro m ⟨q, _, hm⟩
      exact (hk.aliases hm).2
    · rintro m (rfl | ⟨q, _, hm⟩)
      · exact unknown_mem_ids
      · exact (ht.tableOf hm).2

/-- An effect mentions no new ids but the reserved numbers. -/
theorem effect_within (hv : v.Reserved i) (he : v.ExitsWithin v.cls.arena.size)
    (hk : k.Within (ids v.cls.arena.size)) : (v.effect i k).Within (ids v.cls.arena.size) := by
  have hres {x : Value} (h : v.reserved i = some x) : v.idOf x ∈ ids v.cls.arena.size :=
    find_mem_ids (hv x h)
  have hfits := rule_fits (v := v) (i := i)
  unfold effect
  cases hr : v.rule i with
  | keep => exact hk
  | phi incoming =>
    refine mergeEffect_within hk ?_
    rintro ⟨j, _⟩ ⟨x, b, e, _, _, hb, rfl⟩
    exact he b e hb
  | select t e =>
    refine mergeEffect_within hk ?_
    rintro ⟨j, _⟩ ⟨_, rfl⟩
    exact hk
  | cell =>
    rw [hr] at hfits
    have hid : v.idOf (.inst i) ∈ ids v.cls.arena.size := idOf_mem_ids (by simp [hfits.2])
    exact (hk.relink hid (Set.empty_subset _)).describe hid (Set.empty_subset _) _
  | store value pointer => exact hk.overwrite (hres (by simp [reserved, hr]))
  | load pointer => exact loadEffect_within hk (hres (by simp [reserved, hr])) pointer
  | handle =>
    have hid := hres (x := .inst i) (by simp [reserved, hr])
    exact (hk.relink hid (Set.empty_subset _)).define hid
  | set handle => exact hk.define (hres (by simp [reserved, hr]))
  | call args => exact opaqueEffect_within hk args

end View

end BoxFlow
