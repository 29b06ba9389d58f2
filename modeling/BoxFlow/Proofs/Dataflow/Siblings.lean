import BoxFlow.Proofs.Dataflow.Kept
import BoxFlow.Proofs.Dataflow.Paths
import BoxFlow.Proofs.Loading

/-!
# Aliases among the phis of a block

The rule of a phi unlinks its result and links it to what its sources may be aliases of where they
come from. Of two phis of a block the later one thus has the last word: where the phis end, they are
aliases if and only if the later one takes what may be an alias of the earlier one at the end of a
predecessor (`Analysis.mem_aliases_siblings_iff`). What the two take in common does not link them
(`Analysis.not_mem_aliases_siblings_twins`).
-/

namespace BoxFlow

namespace View

variable {v : View} {k : Knowledge} {i j : InstId} {x y : Id} {sources : Set (Id × Knowledge)}
  {l : List InstId}

/-- May the phi `i` take, at the end of a block, what may be an alias of `x` there? -/
def TakesAlias (v : View) (i : InstId) (x : Value) : Prop :=
  ∃ xs y q e id, (v.program.inst i).op = .phi xs ∧ (y, q) ∈ xs ∧ v.exits[q]? = some e ∧
    v.cls.arena.find y = some id ∧ v.idOf x ∈ e.aliases.get id

/-- A merge links its result to the aliases of its sources. -/
theorem mem_aliases_mergeEffect (hi : v.cls.classOf (.inst i) ≠ .irrelevant)
    (hx : x ≠ v.idOf (.inst i)) :
    (x ∈ (v.mergeEffect i k sources).aliases (v.idOf (.inst i)) ↔
        ∃ q ∈ sources, x ∈ q.2.aliases q.1) ∧
      (v.idOf (.inst i) ∈ (v.mergeEffect i k sources).aliases x ↔
        ∃ q ∈ sources, x ∈ q.2.aliases q.1) := by
  unfold mergeEffect
  split
  · next h => exact absurd h hi
  · rw [Knowledge.describe_aliases]
    simp [Knowledge.relink, hx]

/-- A merge leaves the aliases of all other values among each other. -/
theorem mem_aliases_mergeEffect_of_ne (hx : x ≠ v.idOf (.inst i)) (hy : y ≠ v.idOf (.inst i)) :
    y ∈ (v.mergeEffect i k sources).aliases x ↔ y ∈ k.aliases x := by
  unfold mergeEffect
  split
  · exact .rfl
  · rw [Knowledge.describe_aliases]
    simp [Knowledge.relink, hx, hy]

/-- Phis leave the aliases of all other values among each other. -/
theorem mem_aliases_effects_of_ne (hl : ∀ n ∈ l, (v.program.inst n).op.isPhi = true)
    (hx : ∀ n ∈ l, x ≠ v.idOf (.inst n)) (hy : ∀ n ∈ l, y ≠ v.idOf (.inst n)) :
    y ∈ (v.effects l k).aliases x ↔ y ∈ k.aliases x := by
  induction l generalizing k with
  | nil => exact .rfl
  | cons n l ih =>
    have hrest := ih (k := v.effect n k) (fun m hm => hl m (List.mem_cons_of_mem _ hm))
      (fun m hm => hx m (List.mem_cons_of_mem _ hm)) fun m hm => hy m (List.mem_cons_of_mem _ hm)
    obtain ⟨xs, hop⟩ : ∃ xs, (v.program.inst n).op = .phi xs := by
      have := hl n List.mem_cons_self
      cases hop : (v.program.inst n).op with
      | phi xs => exact ⟨xs, rfl⟩
      | _ => rw [hop] at this; cases this
    rw [effects_cons, hrest, effect_phi hop]
    exact mem_aliases_mergeEffect_of_ne (hx n List.mem_cons_self) (hy n List.mem_cons_self)

theorem takesAlias_iff {xs : List (Value × BlockId)} {u : Value}
    (hop : (v.program.inst i).op = .phi xs) :
    v.TakesAlias i u ↔ ∃ q ∈ v.phiSources xs, v.idOf u ∈ q.2.aliases q.1 := by
  constructor
  · rintro ⟨ys, y, b, e, id, hop', hmem, he, hfind, halias⟩
    obtain rfl : xs = ys := by rw [hop] at hop'; cases hop'; rfl
    exact ⟨(id, e.knowledge), ⟨y, b, e, hmem, hfind, he, rfl⟩, halias⟩
  · rintro ⟨⟨id, k⟩, ⟨y, b, e, hmem, hfind, he, rfl⟩, halias⟩
    exact ⟨xs, y, b, e, id, hop, hmem, he, hfind, halias⟩

/-- After the later of two phis, and other phis that follow it, the two are aliases if the later one
takes an alias of the earlier one, and not otherwise. -/
theorem mem_aliases_effects_siblings (hl : ∀ n ∈ j :: l, (v.program.inst n).op.isPhi = true)
    (hnodup : (j :: l).Nodup) (hil : i ∉ j :: l) (hi : v.cls.classOf (.inst i) ≠ .irrelevant)
    (hj : v.cls.classOf (.inst j) ≠ .irrelevant) :
    (v.idOf (.inst j) ∈ (v.effects (j :: l) k).aliases (v.idOf (.inst i)) ↔
        v.TakesAlias j (.inst i)) ∧
      (v.idOf (.inst i) ∈ (v.effects (j :: l) k).aliases (v.idOf (.inst j)) ↔
        v.TakesAlias j (.inst i)) := by
  obtain ⟨hjl, -⟩ := List.nodup_cons.1 hnodup
  have hid {m n : InstId} (hm : v.cls.classOf (.inst m) ≠ .irrelevant) (hmn : m ≠ n) :
      v.idOf (.inst m) ≠ v.idOf (.inst n) := idOf_ne hm (by simpa using hmn)
  have hin {n : InstId} (hn : n ∈ j :: l) : i ≠ n := fun h => hil (h ▸ hn)
  have hafter {m n : InstId} (hm : ∀ n ∈ l, v.idOf (.inst m) ≠ v.idOf (.inst n))
      (hn : ∀ m ∈ l, v.idOf (.inst n) ≠ v.idOf (.inst m)) :
      v.idOf (.inst n) ∈ (v.effects (j :: l) k).aliases (v.idOf (.inst m)) ↔
        v.idOf (.inst n) ∈ (v.effect j k).aliases (v.idOf (.inst m)) := by
    rw [effects, List.foldl_cons, ← effects]
    exact mem_aliases_effects_of_ne (fun m hm => hl m (List.mem_cons_of_mem _ hm)) hm hn
  have hi' : ∀ n ∈ l, v.idOf (.inst i) ≠ v.idOf (.inst n) := fun n hn =>
    hid hi (hin (List.mem_cons_of_mem _ hn))
  have hj' : ∀ n ∈ l, v.idOf (.inst j) ≠ v.idOf (.inst n) := fun n hn =>
    hid hj fun h => hjl (h ▸ hn)
  obtain ⟨xs, hop⟩ : ∃ xs, (v.program.inst j).op = .phi xs := by
    have := hl j List.mem_cons_self
    cases hop : (v.program.inst j).op with
    | phi xs => exact ⟨xs, rfl⟩
    | _ => rw [hop] at this; cases this
  rw [hafter hi' hj', hafter hj' hi', effect_phi hop, takesAlias_iff hop]
  exact (mem_aliases_mergeEffect hj (hid hi (hin List.mem_cons_self))).symm

end View

namespace Analysis

variable {p : Program} {o : Options} {f : FuncId} {b : BlockId} {i j n : InstId}
  {l m r : List InstId}

/-- From the later of two phis of a block on, to where the phis end, the two are aliases if and only
if the later one takes, from a block that has been visited, what may be an alias of the earlier one
there. -/
theorem mem_aliases_siblings_iff (hp : p.Linked) (hv : p.verify f = []) (oracle : Oracle)
    (hconv : (solve p f o oracle (Classification.ofFunc p o f).1).converged = true)
    (hb : b ∈ (solve p f o oracle (Classification.ofFunc p o f).1).exits)
    (hphis : p.phis b = l ++ i :: m ++ j :: r) (hn : n ∈ j :: r)
    (hi : (solve p f o oracle (Classification.ofFunc p o f).1).cls.classOf (.inst i) ≠ .irrelevant)
    (hj : (solve p f o oracle (Classification.ofFunc p o f).1).cls.classOf (.inst j) ≠ .irrelevant) :
    ((solve p f o oracle (Classification.ofFunc p o f).1).idOf (.inst j) ∈
        (solve p f o oracle (Classification.ofFunc p o f).1).aliasesAfter n (.inst i) ↔
      (solve p f o oracle (Classification.ofFunc p o f).1).TakesAlias j (.inst i)) ∧
    ((solve p f o oracle (Classification.ofFunc p o f).1).idOf (.inst i) ∈
        (solve p f o oracle (Classification.ofFunc p o f).1).aliasesAfter n (.inst j) ↔
      (solve p f o oracle (Classification.ofFunc p o f).1).TakesAlias j (.inst i)) := by
  have ha := run_settled hp hv (Classification.ofFunc_numbered p o f) (run_of_converged hconv)
  generalize solve p f o oracle (Classification.ofFunc p o f).1 = a at *
  have hmem : b ∈ (p.func f).blocks := ((ha.visited b).1 hb).mem_blocks hp
  -- The phis up to `n`, with the later of the two in front.
  obtain ⟨s, t, hsplit⟩ := List.append_of_mem hn
  obtain ⟨u, hu⟩ : ∃ u, s ++ [n] = j :: u := by
    cases s with
    | nil => exact ⟨[], by rw [(List.cons.inj hsplit).1]; rfl⟩
    | cons c s => exact ⟨s ++ [n], by rw [(List.cons.inj hsplit).1]; rfl⟩
  have hinsts : (p.block b).insts = (l ++ i :: m ++ s) ++ n :: (t ++ p.body b) := by
    rw [Program.insts_eq_phis_append hp hv hmem, hphis, hsplit]
    simp
  have hafter : (a.factsAfter n).knowledge =
      a.effects (j :: u) (a.effects (l ++ i :: m) (a.entry b).knowledge) := by
    rw [(ha.facts_of_split hb hinsts).2, List.append_assoc, hu, View.effects_append]
  have hsub : j :: u <+: j :: r := ⟨t, by rw [← hu, hsplit]; simp⟩
  have hnodup : (p.phis b).Nodup := hp.nodup.filter _
  rw [hphis] at hnodup
  obtain ⟨-, hnodup, hdisjoint⟩ := List.nodup_append.1 hnodup
  have hall := View.mem_aliases_effects_siblings (v := a.toView) (i := i) (j := j) (l := u)
    (k := a.effects (l ++ i :: m) (a.entry b).knowledge)
    (fun d hd => by
      rw [ha.program]
      have hd : d ∈ p.phis b := by
        rw [hphis]
        exact List.mem_append_right _ (hsub.subset hd)
      exact (List.mem_filter.1 hd).2)
    (hsub.sublist.nodup hnodup)
    (fun hiu => hdisjoint i (by simp) i (hsub.subset hiu) rfl) hi hj
  rw [← hafter] at hall
  exact ⟨(mem_idsIn hi).trans hall.1, (mem_idsIn hj).trans hall.2⟩

/-- Two phis in a loop, where the later one takes what the earlier one was before. -/
def followText : String :=
  "define void @f()\x7be:br label %j " ++
  "j:%m=phi ptr[0,%e],[%m,%j]%n=phi ptr[0,%e],[%m,%j]call void @destroy(ptr %n)br label %j\x7d"

theorem mem_aliases_siblings_iff_follow : ∃ p, Program.load followText.toList = .ok p ∧ p.Linked ∧
    p.verify 0 = [] ∧ p.phis 1 = [] ++ 1 :: [] ++ 2 :: [] ∧
    (solve p 0 {} .conservative (Classification.ofFunc p {} 0).1).converged = true ∧
    1 ∈ (solve p 0 {} .conservative (Classification.ofFunc p {} 0).1).exits ∧
    (solve p 0 {} .conservative (Classification.ofFunc p {} 0).1).TakesAlias 2 (.inst 1) ∧
    (solve p 0 {} .conservative (Classification.ofFunc p {} 0).1).idOf (.inst 2) ∈
      (solve p 0 {} .conservative (Classification.ofFunc p {} 0).1).aliasesAfter 2 (.inst 1) := by
  obtain ⟨p, hload, hp, hv, hphis, hconv, hb, hi, hj, hmem⟩ :=
    Program.exists_load (s := followText.toList) (P := fun p =>
      p.verify 0 = [] ∧ p.phis 1 = [] ++ 1 :: [] ++ 2 :: [] ∧
      (solve p 0 {} .conservative (Classification.ofFunc p {} 0).1).converged = true ∧
      ((solve p 0 {} .conservative (Classification.ofFunc p {} 0).1).exits[1]?).isSome ∧
      (solve p 0 {} .conservative (Classification.ofFunc p {} 0).1).cls.classOf (.inst 1) ≠
        .irrelevant ∧
      (solve p 0 {} .conservative (Classification.ofFunc p {} 0).1).cls.classOf (.inst 2) ≠
        .irrelevant ∧
      (solve p 0 {} .conservative (Classification.ofFunc p {} 0).1).idOf (.inst 2) ∈
        (solve p 0 {} .conservative (Classification.ofFunc p {} 0).1).aliasesAfter 2 (.inst 1))
      (by decide +kernel)
  have hb := Std.ExtTreeMap.mem_iff_isSome_getElem?.2 hb
  exact ⟨p, hload, hp, hv, hphis, hconv, hb,
    (mem_aliases_siblings_iff hp hv .conservative hconv hb hphis List.mem_cons_self hi hj).1.1 hmem,
    hmem⟩

/-- Two phis that take the same handle. -/
def commonText : String :=
  "define void @f()\x7be:%a=call ptr @create(i64 1)br label %j " ++
  "j:%m=phi ptr[%a,%e]%n=phi ptr[%a,%e]call void @write(ptr %m,i64 5)ret void\x7d"

/-- What two phis take may be aliases where it comes from, though the phis are not. -/
theorem not_mem_aliases_siblings_twins : ∃ p, Program.load commonText.toList = .ok p ∧
    p.verify 0 = [] ∧ p.phis 1 = [2, 3] ∧ 0 ∈ p.predecessorBlocks 1 ∧
    (p.inst 2).op = .phi [(.inst 0, 0)] ∧ (p.inst 3).op = .phi [(.inst 0, 0)] ∧
    (solve p 0 {} .conservative (Classification.ofFunc p {} 0).1).converged = true ∧
    (solve p 0 {} .conservative (Classification.ofFunc p {} 0).1).cls.classOf (.inst 2) = .data ∧
    (solve p 0 {} .conservative (Classification.ofFunc p {} 0).1).cls.classOf (.inst 3) = .data ∧
    (∃ e : Facts, (solve p 0 {} .conservative (Classification.ofFunc p {} 0).1).exits[0]? = some e ∧
      (solve p 0 {} .conservative (Classification.ofFunc p {} 0).1).idOf (.inst 0) ∈
        e.aliases.get
          ((solve p 0 {} .conservative (Classification.ofFunc p {} 0).1).idOf (.inst 0))) ∧
    (solve p 0 {} .conservative (Classification.ofFunc p {} 0).1).idOf (.inst 3) ∉
      (solve p 0 {} .conservative (Classification.ofFunc p {} 0).1).aliasesAfter 3 (.inst 2) := by
  obtain ⟨p, hload, -, h⟩ := Program.exists_load (s := commonText.toList) (P := fun p =>
      p.verify 0 = [] ∧ p.phis 1 = [2, 3] ∧ 0 ∈ p.predecessorBlocks 1 ∧
      (p.inst 2).op = .phi [(.inst 0, 0)] ∧ (p.inst 3).op = .phi [(.inst 0, 0)] ∧
      (solve p 0 {} .conservative (Classification.ofFunc p {} 0).1).converged = true ∧
      (solve p 0 {} .conservative (Classification.ofFunc p {} 0).1).cls.classOf (.inst 2) = .data ∧
      (solve p 0 {} .conservative (Classification.ofFunc p {} 0).1).cls.classOf (.inst 3) = .data ∧
      (∃ e ∈ (solve p 0 {} .conservative (Classification.ofFunc p {} 0).1).exits[0]?,
        (solve p 0 {} .conservative (Classification.ofFunc p {} 0).1).idOf (.inst 0) ∈
          e.aliases.get
            ((solve p 0 {} .conservative (Classification.ofFunc p {} 0).1).idOf (.inst 0))) ∧
      (solve p 0 {} .conservative (Classification.ofFunc p {} 0).1).idOf (.inst 3) ∉
        (solve p 0 {} .conservative (Classification.ofFunc p {} 0).1).aliasesAfter 3 (.inst 2))
      (by decide +kernel)
  exact ⟨p, hload, h⟩

end Analysis

end BoxFlow
