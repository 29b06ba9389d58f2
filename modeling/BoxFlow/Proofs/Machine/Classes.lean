import BoxFlow.Proofs.Loading
import BoxFlow.Proofs.Classification.Rules
import BoxFlow.Proofs.Machine.Sources

/-!
# Handles and cells are classified as such

Up to the first opaque call of a run, what holds a handle is classified as a handle and what holds
the address of a cell as a cell (`Classification.classOf_of_env`), as long as nothing is taken for
both and a loaded pointer is taken to point to what the cells hold that it may stand for
(`Classification.Cellwise`). The rules see to neither: what may be in a cell is recorded for each
pointer to it (`Classification.not_classOf_of_env_mixed`).
-/

namespace BoxFlow

open Escape (Origin isRoot)

namespace Classification

variable {p : Program} {o : Options} {f : FuncId} {w : World} {m : Machine} {i j r : InstId}
  {v : Value} {t : Origin} {k : Nat}

/-- A loaded pointer is taken to point to what the cells hold that it may stand for. -/
def Cellwise (p : Program) (o : Options) (f : FuncId) (c : Classification) : Prop :=
  ∀ i pointer a ty, i ∈ p.instructions f → (p.inst i).op = .load pointer →
    (p.inst a).op = .alloca ty → c.classOf (.inst i) = .pointer → p.Stems o f (.inst i) (.root a) →
    c.pointeeClass (.inst i) = c.pointeeClass (.inst a)

/-- The value is of the class of the root, and if it is a cell, it is taken to hold the same. -/
def Fits (c : Classification) (v : Value) : Origin → Prop
  | .root r => c.classOf v = c.classOf (.inst r) ∧
      (c.classOf v = .pointer → c.pointeeClass v = c.pointeeClass (.inst r))
  | .elsewhere => True

section Fits

variable (hu : (ofFunc p o f).1.Unmixed)
include hu

theorem Unmixed.classOf_alloca {ty : Ty} (hi : i ∈ p.instructions f)
    (hop : (p.inst i).op = .alloca ty) : (ofFunc p o f).1.classOf (.inst i) = .pointer := by
  obtain ⟨id, hid, hfind⟩ := mem_pointer_of_alloca (o := o) hi hop
  exact hu.classOf_of_mem hid hfind

theorem Unmixed.classOf_root_ne (hr : p.Stems o f v (.root r)) :
    (ofFunc p o f).1.classOf (.inst r) ≠ .irrelevant := by
  obtain ⟨hi, hroot⟩ := hr.isRoot_of_root
  rcases Escape.isRoot_iff.1 hroot with ⟨ty, hop⟩ | ⟨callee, args, hop, hk⟩
  · simp [hu.classOf_alloca hi hop]
  · simp [classOf_create hi hop hk]

omit hu in
theorem alloca_of_classOf (hr : p.Stems o f v (.root r))
    (hk : (ofFunc p o f).1.classOf (.inst r) = .pointer) : ∃ ty, (p.inst r).op = .alloca ty := by
  obtain ⟨hi, hroot⟩ := hr.isRoot_of_root
  refine (Escape.isRoot_iff.1 hroot).resolve_right ?_
  rintro ⟨callee, args, hop, hcreate⟩
  rw [classOf_create hi hop hcreate] at hk
  cases hk

/-- The result of a merge fits where an input does. -/
theorem Unmixed.fits_merge (hi : i ∈ p.instructions f) (hx : v ∈ (p.inst i).op.merged)
    (hs : p.Stems o f v t) (h : (ofFunc p o f).1.Fits v t) :
    (ofFunc p o f).1.Fits (.inst i) t := by
  cases t with
  | elsewhere => trivial
  | root r =>
    have hmerge := visitMerge_ofFunc (o := o) hi hx
    have hne := hu.classOf_root_ne hs
    generalize (ofFunc p o f).1 = c at hu h hmerge hne ⊢
    obtain ⟨hclass, hpointee⟩ := h
    have hres := result_of_visitMerge hmerge hx (hclass ▸ hne) rfl
    have heq : c.classOf v = c.classOf (.inst i) :=
      hu.classOf_of_add (add_of_visitMerge hmerge hres hx) hres hs.isLiteral_eq_false
    refine ⟨heq ▸ hclass, fun hk => ?_⟩
    rw [← hpointee (heq.trans hk)]
    obtain ⟨hfrom, hto⟩ := addPointee_of_visitMerge hmerge hk hx (heq.trans hk)
    -- the input and the result share what they are taken to hold, if anything
    by_cases hv : c.pointeeClass v = .irrelevant
    · by_cases hr : c.pointeeClass (.inst i) = .irrelevant
      · rw [hv, hr]
      · exact (hu.pointeeClass_of_addPointee hto hr).symm
    · exact hu.pointeeClass_of_addPointee hfrom hv

/-- What is loaded fits where what has been stored does. -/
theorem Unmixed.fits_load (hc : Cellwise p o f (ofFunc p o f).1) {a : InstId} {ty : Ty}
    {pointer q : Value} (hi : i ∈ p.instructions f) (hop : (p.inst i).op = .load pointer)
    (hj : j ∈ p.instructions f) (hjop : (p.inst j).op = .store v q)
    (ha : a ∈ p.instructions f) (hcell : (p.inst a).op = .alloca ty)
    (hpointer : (ofFunc p o f).1.Fits pointer (.root a)) (hq : (ofFunc p o f).1.Fits q (.root a))
    (hs : p.Stems o f v t) (h : (ofFunc p o f).1.Fits v t) (hi' : p.Stems o f (.inst i) t) :
    (ofFunc p o f).1.Fits (.inst i) t := by
  cases t with
  | elsewhere => trivial
  | root r =>
    have halloca := hu.classOf_alloca ha hcell
    have hne := hu.classOf_root_ne hs
    have hroot := alloca_of_classOf (o := o) hs
    have hstore := visitStore_ofFunc (o := o) hj hjop
    have hload := visitLoad_ofFunc (o := o) hi hop
    have hagree := hc i pointer r
    generalize (ofFunc p o f).1 = c at hu hpointer hq h halloca hne hroot hstore hload hagree ⊢
    have hv : c.classOf v ≠ .irrelevant := h.1 ▸ hne
    have hstored : c.pointeeClass q = c.classOf v :=
      hu.pointeeClass_of_addPointee (add_of_visitStore hstore hv).2 hv
    have hkp : c.classOf pointer = .pointer := hpointer.1.trans halloca
    have hheld : c.pointeeClass pointer = c.classOf v := by
      rw [hpointer.2 hkp, ← hq.2 (hq.1.trans halloca), hstored]
    have hadd := add_of_pointeeClass hload hkp
    rw [hheld] at hadd
    have hclass : c.classOf (.inst i) = c.classOf (.inst r) :=
      (hu.classOf_of_add hadd hv rfl).trans h.1
    refine ⟨hclass, fun hk => ?_⟩
    obtain ⟨ty, hr⟩ := hroot (hclass ▸ hk)
    exact hagree ty hi hop hr hk hi'

/-- Values fit where they stem from. -/
theorem Unmixed.fits_of_stems (hself : p.SelfContained f) (hc : Cellwise p o f (ofFunc p o f).1)
    (h : p.Stems o f v t) : (ofFunc p o f).1.Fits v t := by
  induction h with
  | root => exact ⟨rfl, fun _ => rfl⟩
  | outside | content => trivial
  | merge hi hx hs ih => exact hu.fits_merge hi hx hs ih
  | @load i j pointer value q s t hi hop hj hjop hcell hpointer hq hvalue ihp ihq ihv =>
    cases s with
    | elsewhere =>
      exact absurd rfl (hpointer.ne_elsewhere hself (hself i hi _ (by simp [hop, Form.operands])))
    | root a =>
      obtain ⟨ty, ha⟩ := hcell
      exact hu.fits_load hc hi hop hj hjop hpointer.isRoot_of_root.1 ha ihp ihq hvalue ihv
        (.load hi hop hj hjop (s := .root a) ⟨ty, ha⟩ hpointer hq hvalue)

end Fits

/-- Up to the first opaque call what holds a handle is classified as a handle, and what holds the
address of a cell as a cell. -/
theorem classOf_of_env (hp : p.Linked) (hself : p.SelfContained f)
    (hu : (ofFunc p o f).1.Unmixed) (hc : Cellwise p o f (ofFunc p o f).1)
    (hm : Machine.after? p o w f k = some m)
    (htrace : ∀ e ∈ m.trace, o.kindOf e.callee ≠ .opaqueCall) :
    (∀ g, m.env i = some (.handle g) → (ofFunc p o f).1.classOf (.inst i) = .data) ∧
      ∀ a, m.env i = some (.cell a) → (ofFunc p o f).1.classOf (.inst i) = .pointer := by
  have htraced := Machine.after_traced hp (World.bounded hself) hm htrace
  have hroot {x : Datum} (hx : m.env i = some x) (href : x.IsRef) : ∃ r ∈ p.instructions f,
      p.Makes o r x ∧ (ofFunc p o f).1.classOf (.inst i) = (ofFunc p o f).1.classOf (.inst r) := by
    have hfrom := htraced.env hx
    obtain ⟨t, ht⟩ := hfrom.source href
    have hstems := hfrom.all ht
    cases t with
    | elsewhere => exact absurd ht.2 (World.not_offers hself)
    | root r =>
      exact ⟨r, hstems.isRoot_of_root.1, (htraced.made ht).1, (hu.fits_of_stems hself hc hstems).1⟩
  constructor
  · intro g hx
    obtain ⟨r, hr, ⟨callee, args, hop, hk⟩, heq⟩ := hroot hx trivial
    exact heq.trans (classOf_create hr hop hk)
  · intro a hx
    obtain ⟨r, hr, ⟨ty, hop⟩, heq⟩ := hroot hx trivial
    exact heq.trans (hu.classOf_alloca hr hop)

/-- Where nothing but the roots `rs` is stored, a loaded pointer stands for one of them. -/
theorem cellwise_of_stored {rs : List InstId} (hself : p.SelfContained f)
    (hu : (ofFunc p o f).1.Unmixed) (hroots : rs.all (isRoot p o) = true)
    (hstored : (Escape.stores p o f).map Prod.snd = rs.map .inst)
    (hsame : ∀ i ∈ p.instructions f, ∀ r ∈ rs, isRoot p o i = false →
      (ofFunc p o f).1.classOf (.inst i) = .pointer →
      (ofFunc p o f).1.classOf (.inst r) = .pointer →
      (ofFunc p o f).1.pointeeClass (.inst i) = (ofFunc p o f).1.pointeeClass (.inst r)) :
    Cellwise p o f (ofFunc p o f).1 := by
  intro i pointer a ty hi hop ha hk hs
  obtain ⟨j, hj, value, q, hjop, hvalue⟩ := hs.exists_stored hself hop
  have hmem : value ∈ (Escape.stores p o f).map Prod.snd := Escape.mem_stores hj hjop
  rw [hstored] at hmem
  obtain ⟨r, hr, rfl⟩ := List.mem_map.1 hmem
  cases hvalue.eq_of_root (List.all_eq_true.1 hroots r hr)
  exact hsame i hi a hr (by simp [isRoot, hop]) hk (hu.classOf_alloca hs.isRoot_of_root.1 ha)

/-- A handle is read back through a loaded pointer and used. -/
def throughText : String :=
  "define void @f()\x7be:%a=call ptr @create(i64 1)%p=alloca ptr %q=alloca ptr " ++
  "store ptr %a,ptr %p store ptr %p,ptr %q %r=load ptr,ptr %q %b=load ptr,ptr %r " ++
  "%v=call i64 @read(ptr %b)ret void\x7d"

theorem classOf_of_env_through : ∃ p m, Program.load throughText.toList = .ok p ∧ p.Linked ∧
    p.SelfContained 0 ∧ (ofFunc p {} 0).1.Unmixed ∧ Cellwise p {} 0 (ofFunc p {} 0).1 ∧
    Machine.after? p {} {} 0 7 = some m ∧ m.env 6 = some (.handle 0) ∧
    (ofFunc p {} 0).1.classOf (.inst 6) = .data ∧ m.env 5 = some (.cell 0) ∧
    (ofFunc p {} 0).1.classOf (.inst 5) = .pointer := by
  obtain ⟨p, hload, hp, hself, hu, hroots, hstored, hsame, m, hm, htrace, hb, hr⟩ :=
    Program.exists_load (s := throughText.toList) (P := fun p =>
      p.SelfContained 0 ∧ (ofFunc p {} 0).1.Unmixed ∧ [0, 1].all (isRoot p {}) = true ∧
      (Escape.stores p {} 0).map Prod.snd = [0, 1].map .inst ∧
      ((p.instructions 0).all fun i => [0, 1].all fun r => decide (isRoot p {} i = false →
        (ofFunc p {} 0).1.classOf (.inst i) = .pointer →
        (ofFunc p {} 0).1.classOf (.inst r) = .pointer →
        (ofFunc p {} 0).1.pointeeClass (.inst i) =
          (ofFunc p {} 0).1.pointeeClass (.inst r))) = true ∧
      ∃ m ∈ Machine.after? p {} {} 0 7,
        m.trace = [] ∧ m.env 6 = some (.handle 0) ∧ m.env 5 = some (.cell 0))
      (by decide +kernel)
  have hc := cellwise_of_stored hself hu hroots hstored fun i hi r hr =>
    of_decide_eq_true (List.all_eq_true.1 (List.all_eq_true.1 hsame i hi) r hr)
  have hclass {i : InstId} := classOf_of_env (i := i) hp hself hu hc hm (by simp [htrace])
  exact ⟨p, m, hload, hp, hself, hu, hc, hm, hb, hclass.1 0 hb, hr, hclass.2 0 hr⟩

/-- A handle is read back through a loaded pointer, and both a cell and a handle are stored into one
cell. -/
def mixedText : String :=
  "define void @f()\x7be:%a=call ptr @create(i64 1)%p=alloca ptr %q=alloca ptr %s=alloca ptr " ++
  "store ptr %a,ptr %p store ptr %p,ptr %q %r=load ptr,ptr %q %b=load ptr,ptr %r " ++
  "store ptr %p,ptr %s %t=load ptr,ptr %s store ptr %a,ptr %s ret void\x7d"

/-- Nothing is recorded for a loaded pointer to which nothing is stored, and what a cell may hold
besides handles is not told apart from them. -/
theorem not_classOf_of_env_mixed : ∃ p m, Program.load mixedText.toList = .ok p ∧ p.Linked ∧
    p.verify 0 = [] ∧ p.SelfContained 0 ∧ Machine.after? p {} {} 0 11 = some m ∧ m.trace = [] ∧
    m.env 7 = some (.handle 0) ∧ (ofFunc p {} 0).1.classOf (.inst 7) = .irrelevant ∧
    m.env 9 = some (.cell 0) ∧ (ofFunc p {} 0).1.classOf (.inst 9) = .data := by
  obtain ⟨p, hload, hp, hv, hself, ⟨m, hm, htrace, henv, henv'⟩, hclass, hclass'⟩ :=
    Program.exists_load (s := mixedText.toList) (P := fun p =>
      p.verify 0 = [] ∧ p.SelfContained 0 ∧
      (∃ m ∈ Machine.after? p {} {} 0 11,
        m.trace = [] ∧ m.env 7 = some (.handle 0) ∧ m.env 9 = some (.cell 0)) ∧
      (ofFunc p {} 0).1.classOf (.inst 7) = .irrelevant ∧
      (ofFunc p {} 0).1.classOf (.inst 9) = .data)
      (by decide +kernel)
  exact ⟨p, m, hload, hp, hv, hself, hm, htrace, henv, hclass, henv', hclass'⟩

end Classification

end BoxFlow
