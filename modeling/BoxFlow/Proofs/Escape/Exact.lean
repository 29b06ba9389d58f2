import Mathlib.Order.Bounds.Basic
import BoxFlow.Proofs.Escape
import BoxFlow.Proofs.Loading

/-!
# What the oracle knows

The origins of a value are what phis and selects lead to from it, whatever the oracle was asked
before (`Escape.ask_after`), so its answers do not depend on that either (`Escape.oracle_after`).
The values that escape are the least set that has in it what escapes by itself and is closed under
what escapes with something else (`Escape.EscapeClosed`); the order of the instructions has no part
in that (`Escape.isLeast_escaped`).
-/

namespace BoxFlow

open Relation (ReflTransGen)

namespace Escape

variable {p q : Program} {o : Options} {f : FuncId} {u v : Value} {i : InstId} {r : Origin}
  {e : Escape}

/-! ## Questions -/

/-- A question changes nothing but what is known, and that stays right. -/
theorem asked_spec (question : Question) (h : Honest e.program e.options e.known) :
    ∃ known, e.asked question = { e with known } ∧ Honest e.program e.options known := by
  have hask (v : Value) : ∃ known, (e.ask v).2 = { e with known } ∧
      Honest e.program e.options known := ⟨_, rfl, (trace_originsFrom v h).2.1⟩
  cases question with
  | origins v => exact hask v
  | escapes v => exact hask v
  | mayModify callee location =>
    rw [asked]
    split
    · exact ⟨e.known, rfl, h⟩
    · exact hask location

theorem foldl_asked_spec (questions : List Question) (h : Honest e.program e.options e.known) :
    ∃ known, questions.foldl asked e = { e with known } ∧
      Honest e.program e.options known := by
  induction questions generalizing e with
  | nil => exact ⟨e.known, rfl, h⟩
  | cons question questions ih =>
    obtain ⟨known, heq, hknown⟩ := asked_spec question h
    rw [List.foldl_cons, heq]
    exact ih hknown

/-- After any questions the search for the origins of a value comes to its end and finds all that
makes a cell or a handle and is met along phis and selects; something from elsewhere is found if and
only if something is met that neither makes anything nor is a phi or select itself. -/
theorem ask_after (p : Program) (o : Options) (f : FuncId) (questions : List Question)
    (v : Value) :
    let e := questions.foldl asked (ofFunc p o f)
    trace p o (p.insts.size + 2) [] v e.known = some ((e.ask v).1, (e.ask v).2.known) ∧
      (∀ i, .root i ∈ (e.ask v).1 ↔
        ReflTransGen (Takes p) v (.inst i) ∧ Makes p o (.inst i)) ∧
      (.elsewhere ∈ (e.ask v).1 ↔
        ∃ u, ReflTransGen (Takes p) v u ∧ ¬Makes p o u ∧ ¬IsMerge p u) := by
  obtain ⟨known, heq, hknown⟩ := foldl_asked_spec questions (honest_ofFunc p o f)
  obtain ⟨htrace, -, hfound⟩ := trace_originsFrom v hknown
  have htakes : Takes p = fun a b => b ∈ mergeInputs p a := by
    ext a b
    exact takes_iff
  intro e
  rw [show e = { ofFunc p o f with known } from heq, htakes]
  refine ⟨htrace, fun i => (hfound _).trans ?_, (hfound _).trans ?_⟩
  · constructor
    · rintro ⟨u, hu, hown⟩
      obtain ⟨rfl, hmakes⟩ := ownOrigin_eq_root.1 hown
      exact ⟨hu, hmakes⟩
    · rintro ⟨hu, hmakes⟩
      exact ⟨_, hu, ownOrigin_eq_root.2 ⟨rfl, hmakes⟩⟩
  · exact exists_congr fun u => and_congr_right fun _ => ownOrigin_eq_elsewhere

/-- No question changes an answer about calls: the oracle may be taken for a plain function. -/
theorem oracle_after (questions : List Question) :
    (questions.foldl asked (ofFunc p o f)).oracle = (ofFunc p o f).oracle := by
  obtain ⟨known, heq, hknown⟩ := foldl_asked_spec questions (honest_ofFunc p o f)
  have hescapes (v : Value) :
      ({ ofFunc p o f with known } : Escape).escapes v = (ofFunc p o f).escapes v := by
    rw [escapes_eq hknown, escapes_ofFunc]
    rfl
  rw [heq]
  funext call location size
  simp only [oracle, mayModifyBy, hescapes]

/-! ## The least closed set -/

/-- What is stored through a pointer that may be to `r`. -/
def StoredAt (p : Program) (o : Options) (f : FuncId) (r : Origin) (v : Value) : Prop :=
  ∃ i ∈ p.instructions f, ∃ pointer, (p.inst i).op = .store v pointer ∧ r ∈ origins p o pointer

/-- What a function lets out of its hands is in the set, and with a value what gets out with it. -/
structure EscapeClosed (p : Program) (o : Options) (f : FuncId) (S : Set Value) : Prop where
  returned : ∀ i ∈ p.instructions f, ∀ v, (p.inst i).op = .ret (some v) → v ∈ S
  given : ∀ i ∈ p.instructions f, ∀ callee args, (p.inst i).op = .call callee args →
    o.kindOf callee = .opaqueCall → ∀ v ∈ args, v ∈ S
  elsewhere : ∀ v, StoredAt p o f .elsewhere v → v ∈ S
  taken : ∀ u ∈ S, ∀ v, Takes p u v → v ∈ S
  loaded : ∀ i, .inst i ∈ S → ∀ pointer, (p.inst i).op = .load pointer →
    ∀ r ∈ origins p o pointer, ∀ v, StoredAt p o f r v → v ∈ S
  held : ∀ i, .inst i ∈ S → Makes p o (.inst i) → ∀ v, StoredAt p o f (.root i) v → v ∈ S

theorem mem_storedIn_iff {cells : List Origin} :
    v ∈ storedIn (stores p o f) cells ↔ ∃ r ∈ cells, StoredAt p o f r v := by
  rw [mem_storedIn]
  constructor
  · rintro ⟨i, hi, pointer, hop, r, hr, hcell⟩
    exact ⟨r, hcell, i, hi, pointer, hop, hr⟩
  · rintro ⟨r, hcell, i, hi, pointer, hop, hr⟩
    exact ⟨i, hi, pointer, hop, r, hr, hcell⟩

theorem escapeClosed_escaped (p : Program) (o : Options) (f : FuncId) :
    EscapeClosed p o f {v | v ∈ (ofFunc p o f).escaped} where
  returned _ hi _ hop :=
    mem_escapingValues_iff.2 ⟨_, List.mem_append_left _ (mem_given.2 ⟨_, hi, .inl hop⟩), .refl⟩
  given _ hi _ _ hop hk _ hv := mem_of_arg hi hop hk hv
  elsewhere _ hv :=
    mem_of_storedIn_elsewhere (mem_storedIn_iff.2 ⟨_, List.mem_singleton_self _, hv⟩)
  taken _ hu _ huv := mem_of_merge hu (takes_iff.1 huv)
  loaded _ hi _ hop r hr _ hv := mem_of_load hi hop (mem_storedIn_iff.2 ⟨r, hr, hv⟩)
  held _ hi hmakes _ hv :=
    mem_of_root hi (makes_iff.1 hmakes) (mem_storedIn_iff.2 ⟨_, List.mem_singleton_self _, hv⟩)

theorem EscapeClosed.mem_of_escapesWith {S : Set Value} (h : EscapeClosed p o f S) (hu : u ∈ S)
    (huv : EscapesWith p o f u v) : v ∈ S := by
  cases u with
  | inst i =>
    rcases huv with hv | ⟨pointer, hop, hv⟩ | ⟨hroot, hv⟩
    · exact h.taken _ hu v (takes_iff.2 hv)
    · obtain ⟨r, hr, hv⟩ := mem_storedIn_iff.1 hv
      exact h.loaded i hu pointer hop r hr v hv
    · obtain ⟨r, hr, hv⟩ := mem_storedIn_iff.1 hv
      obtain rfl := List.mem_singleton.1 hr
      exact h.held i hu (makes_iff.2 hroot) v hv
  | _ => cases huv

/-- A closed set has all that escapes in it: along every way out. -/
theorem EscapeClosed.escaped_subset {S : Set Value} (h : EscapeClosed p o f S) :
    {v | v ∈ (ofFunc p o f).escaped} ⊆ S := by
  intro v hv
  obtain ⟨u, hu, huv⟩ := mem_escapingValues_iff.1 hv
  have hstart : u ∈ S := by
    rcases List.mem_append.1 hu with hu | hu
    · obtain ⟨i, hi, hop | ⟨callee, args, hop, hk, harg⟩⟩ := mem_given.1 hu
      · exact h.returned i hi u hop
      · exact h.given i hi callee args hop hk u harg
    · obtain ⟨r, hr, hu⟩ := mem_storedIn_iff.1 hu
      obtain rfl := List.mem_singleton.1 hr
      exact h.elsewhere u hu
  clear hu hv
  induction huv with
  | refl => exact hstart
  | tail _ hstep ih => exact h.mem_of_escapesWith ih hstep

/-! ## The order of the instructions -/

theorem mem_origins_congr (hops : ∀ i, (q.inst i).op = (p.inst i).op) :
    r ∈ origins q o v ↔ r ∈ origins p o v := by
  have hmerge : mergeInputs q = mergeInputs p := by
    funext v
    cases v with
    | inst i => simp only [mergeInputs, hops]
    | _ => rfl
  have hroot (i : InstId) : isRoot q o i = isRoot p o i := by
    unfold isRoot
    rw [hops]
  have hown : ownOrigin q o = ownOrigin p o := by
    funext v
    cases v with
    | inst i =>
      unfold ownOrigin
      dsimp only
      rw [hroot, hops]
    | _ => rfl
  rw [mem_origins_iff, mem_origins_iff, hmerge, hown]

/-- A set is closed whatever order the instructions stand in. -/
theorem EscapeClosed.congr {S : Set Value} (hops : ∀ i, (q.inst i).op = (p.inst i).op)
    (hperm : (q.instructions f).Perm (p.instructions f)) (h : EscapeClosed p o f S) :
    EscapeClosed q o f S := by
  have hstored {r : Origin} {v : Value} (hv : StoredAt q o f r v) : StoredAt p o f r v := by
    obtain ⟨i, hi, pointer, hop, hr⟩ := hv
    exact ⟨i, hperm.mem_iff.1 hi, pointer, hops i ▸ hop, (mem_origins_congr hops).1 hr⟩
  have htakes {u v : Value} (huv : Takes q u v) : Takes p u v := by
    rcases huv with ⟨hop, hu⟩ | hop | hop
    · exact .phi (hops _ ▸ hop) hu
    · exact .selectThen (hops _ ▸ hop)
    · exact .selectElse (hops _ ▸ hop)
  have hmakes {v : Value} (hv : Makes q o v) : Makes p o v := by
    rcases hv with ⟨hop⟩ | ⟨hop, hk⟩
    · exact .alloca (hops _ ▸ hop)
    · exact .create (hops _ ▸ hop) hk
  exact {
    returned := fun i hi v hop => h.returned i (hperm.mem_iff.1 hi) v (hops i ▸ hop)
    given := fun i hi callee args hop =>
      h.given i (hperm.mem_iff.1 hi) callee args (hops i ▸ hop)
    elsewhere := fun v hv => h.elsewhere v (hstored hv)
    taken := fun u hu v huv => h.taken u hu v (htakes huv)
    loaded := fun i hi pointer hop r hr v hv =>
      h.loaded i hi pointer (hops i ▸ hop) r ((mem_origins_congr hops).1 hr) v (hstored hv)
    held := fun i hi hmake v hv => h.held i hi (hmakes hmake) v (hstored hv) }

/-- The search for escaping values ends with the least closed set, and with the same set if the
instructions stand in another order. -/
theorem isLeast_escaped (p : Program) (o : Options) (f : FuncId) :
    (spread p o f).1.waiting = [] ∧
      IsLeast {S | EscapeClosed p o f S} {v | v ∈ (ofFunc p o f).escaped} ∧
      ∀ q : Program, (∀ i, (q.inst i).op = (p.inst i).op) →
        (q.instructions f).Perm (p.instructions f) →
          ∀ v, v ∈ (ofFunc q o f).escaped ↔ v ∈ (ofFunc p o f).escaped := by
  refine ⟨(spread_spec p o f).1,
    ⟨escapeClosed_escaped p o f, fun S hS => hS.escaped_subset⟩, fun q hops hperm v => ⟨?_, ?_⟩⟩
  · exact fun hv => ((escapeClosed_escaped p o f).congr hops hperm).escaped_subset hv
  · exact fun hv => ((escapeClosed_escaped q o f).congr (fun i => (hops i).symm)
      hperm.symm).escaped_subset hv

/-- A handle in a cell that a call gets. -/
def heldText : String :=
  "define void @f()\x7be:%a=call ptr @create(i64 1)%p=alloca ptr store ptr %a,ptr %p " ++
  "call void @g(ptr %p)ret void\x7d"

/-- The handle escapes with its cell, also if the instructions stand the other way round. -/
theorem isLeast_escaped_reversed : ∃ p, Program.load heldText.toList = .ok p ∧
    let q : Program :=
      { p with blocks := p.blocks.map fun b => { b with insts := b.insts.reverse } }
    (∀ i, (q.inst i).op = (p.inst i).op) ∧ (q.instructions 0).Perm (p.instructions 0) ∧
      .inst 0 ∈ (ofFunc p {} 0).escaped ∧ .inst 0 ∈ (ofFunc q {} 0).escaped := by
  obtain ⟨p, hload, -, hperm, hescaped⟩ := Program.exists_load (s := heldText.toList)
    (P := fun p =>
      let q : Program :=
        { p with blocks := p.blocks.map fun b => { b with insts := b.insts.reverse } }
      (q.instructions 0).Perm (p.instructions 0) ∧ .inst 0 ∈ (ofFunc p {} 0).escaped)
    (by decide +kernel)
  refine ⟨p, hload, ?_⟩
  intro q
  have hops (i : InstId) : (q.inst i).op = (p.inst i).op := rfl
  exact ⟨hops, hperm, hescaped, ((isLeast_escaped p {} 0).2.2 q hops hperm _).2 hescaped⟩

end Escape

end BoxFlow
