import Mathlib.Logic.Relation
import Mathlib.Data.List.Perm.Subperm
import BoxFlow.Escape

/-!
# The search for origins

`Escape.trace` follows phis and selects back to what they may take. It turns round at a value that
it is on the way from, so what it finds further down lacks what only such a value leads to; it is
full once the way is empty (`Escape.trace_spec`). Only full answers are kept as known, hence
questions asked earlier never change an answer (`Escape.ask_after`).
-/

namespace BoxFlow

open Relation (ReflTransGen)

namespace Escape

variable {p : Program} {o : Options} {f : FuncId} {u v w : Value} {i : InstId} {r : Origin}
  {path : List Value} {known : Known} {found : List Origin}

/-! ## Merges -/

/-- Cells are made by allocas and handles by the operation `create`. -/
theorem isRoot_iff : isRoot p o i = true ↔ (∃ ty, (p.inst i).op = .alloca ty) ∨
    ∃ callee args, (p.inst i).op = .call callee args ∧ o.kindOf callee = .operation .create := by
  unfold isRoot
  cases (p.inst i).op <;> simp

/-- An alloca makes a cell, and `create` a handle. -/
inductive Makes (p : Program) (o : Options) : Value → Prop
  | alloca {i : InstId} {ty : Ty} : (p.inst i).op = .alloca ty → Makes p o (.inst i)
  | create {i : InstId} {callee : String} {args : List Value} :
    (p.inst i).op = .call callee args → o.kindOf callee = .operation .create → Makes p o (.inst i)

theorem makes_iff : Makes p o (.inst i) ↔ isRoot p o i = true := by
  rw [isRoot_iff]
  constructor
  · rintro (⟨hop⟩ | ⟨hop, hk⟩)
    · exact .inl ⟨_, hop⟩
    · exact .inr ⟨_, _, hop, hk⟩
  · rintro (⟨_, hop⟩ | ⟨_, _, hop, hk⟩)
    · exact .alloca hop
    · exact .create hop hk

/-- A phi takes what comes in, a select one of the two values that it chooses from. -/
inductive Takes (p : Program) : Value → Value → Prop
  | phi {i : InstId} {incoming : List (Value × BlockId)} {u : Value} :
    (p.inst i).op = .phi incoming → u ∈ incoming.map Prod.fst → Takes p (.inst i) u
  | selectThen {i : InstId} {c t e : Value} :
    (p.inst i).op = .select c t e → Takes p (.inst i) t
  | selectElse {i : InstId} {c t e : Value} :
    (p.inst i).op = .select c t e → Takes p (.inst i) e

theorem takes_iff : Takes p v u ↔ u ∈ mergeInputs p v := by
  constructor
  · rintro (⟨hop, hu⟩ | hop | hop) <;> simp_all [mergeInputs]
  · intro hu
    cases v with
    | inst i =>
      cases hop : (p.inst i).op with
      | phi incoming => exact .phi hop (by simpa [mergeInputs, hop] using hu)
      | select c t e =>
        obtain rfl | rfl : u = t ∨ u = e := by simpa [mergeInputs, hop] using hu
        · exact .selectThen hop
        · exact .selectElse hop
      | _ => simp [mergeInputs, hop] at hu
    | _ => cases hu

/-- Only a phi or a select passes anything on. -/
theorem mergeInputs_eq_nil (h : ownOrigin p o v = some r) : mergeInputs p v = [] := by
  cases v with
  | inst i =>
    unfold ownOrigin isRoot at h
    unfold mergeInputs
    cases hop : (p.inst i).op <;> simp_all
  | _ => rfl

/-- Only what makes something is an origin. -/
theorem root_of_ownOrigin (h : ownOrigin p o u = some (.root i)) :
    u = .inst i ∧ isRoot p o i = true := by
  unfold ownOrigin at h
  split at h
  · split at h
    · next hroot =>
      cases h
      exact ⟨rfl, hroot⟩
    · split at h <;> cases h
  · cases h

/-- The phis and selects. -/
def IsMerge (p : Program) (v : Value) : Prop :=
  ∃ i, v = .inst i ∧ ((∃ incoming, (p.inst i).op = .phi incoming) ∨
    ∃ c t e, (p.inst i).op = .select c t e)

theorem ownOrigin_eq_none : ownOrigin p o v = none ↔ IsMerge p v := by
  cases v with
  | inst i =>
    unfold ownOrigin isRoot IsMerge
    cases hop : (p.inst i).op with
    | call callee args => by_cases hk : o.kindOf callee = .operation .create <;> simp [hk, hop]
    | _ => simp [hop]
  | _ => simp [ownOrigin, IsMerge]

theorem ownOrigin_eq_root : ownOrigin p o v = some (.root i) ↔ v = .inst i ∧ Makes p o v := by
  constructor
  · intro h
    obtain ⟨rfl, hroot⟩ := root_of_ownOrigin h
    exact ⟨rfl, makes_iff.2 hroot⟩
  · rintro ⟨rfl, hmakes⟩
    exact if_pos (makes_iff.1 hmakes)

/-- What neither makes anything nor passes anything on is from elsewhere. -/
theorem ownOrigin_eq_elsewhere :
    ownOrigin p o v = some .elsewhere ↔ ¬Makes p o v ∧ ¬IsMerge p v := by
  rw [← ownOrigin_eq_none (o := o)]
  cases v with
  | inst i =>
    rw [makes_iff, ownOrigin]
    cases hroot : isRoot p o i with
    | true => simp
    | false => cases hop : (p.inst i).op <;> simp
  | _ => exact ⟨fun _ => ⟨by rintro ⟨⟩, by simp [ownOrigin]⟩, fun _ => rfl⟩

/-- There are no more phis and selects than instructions. -/
theorem length_le_of_merges (hpath : path.Nodup) (h : ∀ u ∈ path, ownOrigin p o u = none) :
    path.length ≤ p.insts.size := by
  have hsub : path ⊆ (List.range p.insts.size).map .inst := by
    intro u hu
    obtain ⟨i, rfl, hop⟩ := ownOrigin_eq_none.1 (h u hu)
    refine List.mem_map.2 ⟨i, List.mem_range.2 (Nat.lt_of_not_le fun hi => ?_), rfl⟩
    have hout : (p.inst i).op = .unreachable := by
      rw [Program.inst, Array.getD_eq_getD_getElem?, Array.getElem?_eq_none hi]
      rfl
    simp [hout] at hop
  simpa using (List.subperm_of_subset hpath hsub).length_le

/-! ## Ways -/

/-- `r` is the origin of something that `v` may take through phis and selects. -/
def ComesFrom (p : Program) (o : Options) (v : Value) (r : Origin) : Prop :=
  ∃ u, ReflTransGen (fun a b => b ∈ mergeInputs p a) v u ∧ ownOrigin p o u = some r

/-- The same by a way that keeps off a path. -/
def ComesOff (p : Program) (o : Options) (path : List Value) (v : Value) (r : Origin) : Prop :=
  v ∉ path ∧ ∃ u, ReflTransGen (fun a b => b ∈ mergeInputs p a ∧ b ∉ path) v u ∧
    ownOrigin p o u = some r

theorem comesOff_nil : ComesOff p o [] v r ↔ ComesFrom p o v r := by
  simp [ComesOff, ComesFrom]

theorem comesFrom_of_own {s : Origin} (h : ownOrigin p o v = some s) :
    ComesFrom p o v r ↔ r = s := by
  constructor
  · rintro ⟨u, hu, hr⟩
    rcases hu.cases_head with rfl | ⟨t, ht, -⟩
    · exact Option.some.inj (hr.symm.trans h)
    · rw [mergeInputs_eq_nil h] at ht
      cases ht
  · rintro rfl
    exact ⟨v, .refl, h⟩

theorem ComesFrom.head (h : ComesFrom p o w r) (hw : w ∈ mergeInputs p v) :
    ComesFrom p o v r := by
  obtain ⟨u, hu, hr⟩ := h
  exact ⟨u, .head hw hu, hr⟩

theorem ComesOff.comesFrom (h : ComesOff p o path v r) : ComesFrom p o v r := by
  obtain ⟨-, u, hu, hr⟩ := h
  exact ⟨u, ReflTransGen.mono (fun _ _ => And.left) _ _ hu, hr⟩

/-- A way from a merge need not come back to it. -/
theorem ComesOff.exists_input (h : ComesOff p o path v r) (hv : ownOrigin p o v = none) :
    ∃ w ∈ mergeInputs p v, ComesOff p o (v :: path) w r := by
  obtain ⟨-, u, hu, hr⟩ := h
  have huv : u ≠ v := by
    rintro rfl
    rw [hv] at hr
    cases hr
  -- Either the way never comes to `v`, or it has a rest after the last time that it does.
  have hrest : ∀ a, ReflTransGen (fun a b => b ∈ mergeInputs p a ∧ b ∉ path) a u →
      a ≠ v ∧ ReflTransGen (fun a b => b ∈ mergeInputs p a ∧ b ∉ v :: path) a u ∨
        ∃ w ∈ mergeInputs p v, ComesOff p o (v :: path) w r := by
    intro a ha
    induction ha using ReflTransGen.head_induction_on with
    | refl => exact .inl ⟨huv, .refl⟩
    | @head a b hab _ ih =>
      rcases ih with ⟨hbv, hb⟩ | hw
      · have hboff : b ∉ v :: path := by simp [hbv, hab.2]
        by_cases hav : a = v
        · subst hav
          exact .inr ⟨b, hab.1, hboff, u, hb, hr⟩
        · exact .inl ⟨hav, .head ⟨hab.1, hboff⟩ hb⟩
      · exact .inr hw
  exact (hrest v hu).resolve_left fun h => h.1 rfl

/-! ## Searching -/

/-- What is known is right, and nothing is missing. -/
def Honest (p : Program) (o : Options) (known : Known) : Prop :=
  ∀ v found, known.lookup v = some found → ∀ r, r ∈ found ↔ ComesFrom p o v r

theorem honest_nil : Honest p o [] := fun v found h => by simp at h

theorem Honest.cons (h : Honest p o known) (hv : ∀ r, r ∈ found ↔ ComesFrom p o v r) :
    Honest p o ((v, found) :: known) := by
  intro u found' hu
  rw [List.lookup_cons] at hu
  split at hu
  · next huv =>
    obtain rfl := eq_of_beq huv
    cases hu
    exact hv
  · exact h u found' hu

/-- A right answer, which may lack what only leads there over the path. -/
structure Answers (p : Program) (o : Options) (path : List Value) (v : Value)
    (found : List Origin) : Prop where
  sound : ∀ r ∈ found, ComesFrom p o v r
  full : ∀ r, ComesOff p o path v r → r ∈ found

theorem Answers.of_iff (h : ∀ r, r ∈ found ↔ ComesFrom p o v r) : Answers p o path v found :=
  ⟨fun r => (h r).1, fun r hr => (h r).2 hr.comesFrom⟩

theorem Answers.iff (h : Answers p o [] v found) (r : Origin) :
    r ∈ found ↔ ComesFrom p o v r :=
  ⟨h.sound r, fun hr => h.full r (comesOff_nil.2 hr)⟩

/-- The answer for a merge is that for its inputs, which are come to over it. -/
theorem Answers.of_inputs (hv : ownOrigin p o v = none)
    (hsound : ∀ r ∈ found, ∃ w ∈ mergeInputs p v, ComesFrom p o w r)
    (hfull : ∀ w ∈ mergeInputs p v, ∀ r, ComesOff p o (v :: path) w r → r ∈ found) :
    Answers p o path v found where
  sound r hr := by
    obtain ⟨w, hw, hwr⟩ := hsound r hr
    exact hwr.head hw
  full r hr := by
    obtain ⟨w, hw, hwr⟩ := hr.exists_input hv
    exact hfull w hw r hwr

/-- Searching from several values one after another finds what comes from any of them. -/
theorem gather_spec (search : Value → Known → Option (List Origin × Known)) (vs : List Value)
    (hsearch : ∀ v ∈ vs, ∀ known, Honest p o known → ∃ found known',
      search v known = some (found, known') ∧ Honest p o known' ∧ Answers p o path v found)
    (hknown : Honest p o known) : ∃ found known', gather search vs known = some (found, known') ∧
      Honest p o known' ∧ (∀ r ∈ found, ∃ v ∈ vs, ComesFrom p o v r) ∧
      ∀ v ∈ vs, ∀ r, ComesOff p o path v r → r ∈ found := by
  induction vs generalizing known with
  | nil => exact ⟨[], known, rfl, hknown, by simp, by simp⟩
  | cons v vs ih =>
    obtain ⟨found, known₁, hv, hknown₁, hfound⟩ := hsearch v List.mem_cons_self known hknown
    obtain ⟨more, known₂, hvs, hknown₂, hsound, hfull⟩ :=
      ih (fun w hw => hsearch w (List.mem_cons_of_mem _ hw)) hknown₁
    refine ⟨(found ++ more).eraseDups, known₂, ?_, hknown₂, fun r hr => ?_, fun w hw r hr => ?_⟩
    · simp [gather, hv, hvs]
    · rw [List.mem_eraseDups, List.mem_append] at hr
      rcases hr with hr | hr
      · exact ⟨v, List.mem_cons_self, hfound.sound r hr⟩
      · obtain ⟨w, hw, hwr⟩ := hsound r hr
        exact ⟨w, List.mem_cons_of_mem _ hw, hwr⟩
    · rw [List.mem_eraseDups, List.mem_append]
      rcases List.mem_cons.1 hw with rfl | hw
      · exact .inl (hfound.full r hr)
      · exact .inr (hfull w hw r hr)

/-- A search that may go deeper than there are instructions ends with an answer, and what it adds to
what is known is right. -/
theorem trace_spec (depth : Nat) (path : List Value) (v : Value) (hpath : path.Nodup)
    (hmerges : ∀ u ∈ path, ownOrigin p o u = none)
    (hdepth : p.insts.size < depth + path.length) (hknown : Honest p o known) :
    ∃ found known', trace p o depth path v known = some (found, known') ∧ Honest p o known' ∧
      Answers p o path v found := by
  induction depth generalizing path v known with
  | zero =>
    have hlength := length_le_of_merges hpath hmerges
    omega
  | succ depth ih =>
    rw [trace]
    cases hlookup : known.lookup v with
    | some found => exact ⟨found, known, rfl, hknown, .of_iff (hknown v found hlookup)⟩
    | none =>
      cases hown : ownOrigin p o v with
      | some s =>
        have hv (r : Origin) : r ∈ [s] ↔ ComesFrom p o v r := by
          rw [comesFrom_of_own hown, List.mem_singleton]
        exact ⟨[s], _, rfl, hknown.cons hv, .of_iff hv⟩
      | none =>
        dsimp only
        split
        · next hmem => exact ⟨[], known, rfl, hknown, by simp, fun r hr => absurd hmem hr.1⟩
        · next hmem =>
          have hmerges' : ∀ u ∈ v :: path, ownOrigin p o u = none := by
            intro u hu
            rcases List.mem_cons.1 hu with rfl | hu
            · exact hown
            · exact hmerges u hu
          obtain ⟨found, known', hgather, hknown', hsound, hfull⟩ := gather_spec
            (trace p o depth (v :: path)) (mergeInputs p v)
            (fun w _ known hknown => ih (v :: path) w (List.nodup_cons.2 ⟨hmem, hpath⟩) hmerges'
              (by rw [List.length_cons]; omega) hknown) hknown
          have hanswers : Answers p o path v found := .of_inputs hown hsound hfull
          refine ⟨found, _, by rw [hgather]; rfl, ?_, hanswers⟩
          split
          · next hempty =>
            obtain rfl := List.isEmpty_iff.1 hempty
            exact hknown'.cons hanswers.iff
          · exact hknown'

theorem trace_originsFrom (v : Value) (hknown : Honest p o known) :
    trace p o (p.insts.size + 2) [] v known = some (originsFrom p o v known) ∧
      Honest p o (originsFrom p o v known).2 ∧
      ∀ r, r ∈ (originsFrom p o v known).1 ↔ ComesFrom p o v r := by
  obtain ⟨found, known', htrace, hknown', hanswers⟩ := trace_spec (p.insts.size + 2) [] v
    List.nodup_nil (by simp) (by simp) hknown
  have heq : originsFrom p o v known = (found, known') := by
    rw [originsFrom, htrace, Option.getD_some]
  exact heq ▸ ⟨htrace, hknown', hanswers.iff⟩

theorem mem_origins_iff : r ∈ origins p o v ↔
    ∃ u, ReflTransGen (fun a b => b ∈ mergeInputs p a) v u ∧ ownOrigin p o u = some r :=
  (trace_originsFrom v honest_nil).2.2 r

/-- What is known makes no difference to an answer. -/
theorem mem_originsFrom (hknown : Honest p o known) :
    r ∈ (originsFrom p o v known).1 ↔ r ∈ origins p o v :=
  ((trace_originsFrom v hknown).2.2 r).trans mem_origins_iff.symm

end Escape

end BoxFlow
