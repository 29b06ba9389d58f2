import BoxFlow.Proofs.Rewriting.Justified
import BoxFlow.Proofs.Rewriting.Reanalysis

/-!
# What is left to decide

A rewriting is exhausted if none of the calls that are left would be decided if it went on
(`RewriteState.Exhausted`). That is told by the facts from before the rewriting. If the rewritten
function is analysed anew, the same calls are decided by the new facts
(`Rewriting.exhausted_iff`): what may have set a handle is, by other numbers, what has taken the
place of what may have set it before.
-/

namespace BoxFlow

/-- The instruction that stood where `i` stands: the arithmetic call, if `i` reads what the write in
the place of one writes, or else `i` itself. -/
def RewriteState.site (t : RewriteState) (i : InstId) : InstId :=
  ((List.range t.program.insts.size).find? fun j => (t.rewriter.replaced.lookup j).any fun w =>
    (t.program.inst w).op.operands[1]? = some (.inst i)).getD i

/-- Nothing stands elsewhere when nothing has been replaced. -/
theorem RewriteState.site_of_nil {t : RewriteState} (h : t.rewriter.replaced = []) (i : InstId) :
    t.site i = i := by
  rw [site, List.find?_eq_none.2, Option.getD_none]
  intro j _ hj
  rw [h] at hj
  cases hj

/-- Nothing is left to be decided, as far as the facts go. -/
structure RewriteState.Exhausted (t : RewriteState) : Prop where
  arithmetic : ∀ i ∈ t.rewriter.callsOf t.program [.add, .subtract],
    t.rewriter.outcome? t.program i = none
  reads : ∀ i ∈ t.rewriter.callsOf t.program [.read],
    (t.program.inst i).op.operands.head?.bind
      (t.rewriter.constantOf t.program (t.site i)) = none

instance (t : RewriteState) : Decidable t.Exhausted :=
  decidable_of_iff (_ ∧ _) ⟨fun h => ⟨h.1, h.2⟩, fun h => ⟨h.arithmetic, h.reads⟩⟩

namespace Rewriter

variable {r r' : Rewriter} {p p' : Program} {i i' : InstId} {m m' : Id} {x : Value}

/-- Definitions give the same literal if the same call has taken their place. -/
theorem literalOf_congr (hm : r.analysis.cls.arena.value? m = some (.inst i))
    (hm' : r'.analysis.cls.arena.value? m' = some (.inst i'))
    (hcall : (p.inst i).op.isCall = true) (hcall' : (p'.inst i').op.isCall = true)
    (hplace : (r'.replaced.lookup i').getD i' = (r.replaced.lookup i).getD i)
    (hop : (p'.inst ((r.replaced.lookup i).getD i)).op =
      (p.inst ((r.replaced.lookup i).getD i)).op)
    (hkind : r'.analysis.cls.kindOf ((r.replaced.lookup i).getD i) =
      r.analysis.cls.kindOf ((r.replaced.lookup i).getD i)) :
    r'.literalOf p' m' = r.literalOf p m := by
  have hcase {q : Program} {j : InstId} (h : (q.inst j).op.isCall = true) :
      ∃ callee args, (q.inst j).op = .call callee args := by
    cases hq : (q.inst j).op with
    | call callee args => exact ⟨callee, args, rfl⟩
    | _ => rw [hq] at h; cases h
  obtain ⟨callee, args, hcall⟩ := hcase hcall
  obtain ⟨callee', args', hcall'⟩ := hcase hcall'
  simp only [literalOf, hm, hm', Option.bind_eq_bind, Option.bind_some, hcall, hcall', hplace, hop,
    hkind]

/-- Handles are constant alike if their definitions give the same literals. -/
theorem constantOf_congr {e : Id ≃ Id}
    (hdefs : ∀ m, e m ∈ r'.analysis.definitions i' x ↔ m ∈ r.analysis.definitions i x)
    (hliteral : ∀ m ∈ r.analysis.definitions i x, r'.literalOf p' (e m) = r.literalOf p m) :
    r'.constantOf p' i' x = r.constantOf p i x := by
  refine Option.ext fun c => ?_
  rw [constantOf_eq_some_iff, constantOf_eq_some_iff]
  refine and_congr (not_congr ?_) ?_
  · simp only [List.eq_nil_iff_forall_not_mem, ← hdefs]
    exact e.surjective.forall
  · refine e.surjective.forall.trans (forall_congr' fun m => ?_)
    rw [hdefs]
    exact forall_congr' fun hm => by rw [hliteral m hm]

end Rewriter

/-- A rewriting of function `f` of the program `p` has come to its end, and what it has left of the
function, which is part of the program `q` by now, has been analysed anew. -/
structure Resumes (p q : Program) (o : Options) (f : FuncId) (J : InstId → Fate → Prop) (φ : Fates)
    (r : Renumbering) (a a' : Analysis) (t : RewriteState) : Prop where
  rewriting : Rewriting p a o.names J φ [] t
  linked : p.Linked
  follows : p.Follows q o f φ
  instructions : q.instructions f = t.program.instructions f
  inst : ∀ i ∈ t.program.instructions f, q.inst i = t.program.inst i
  program : a.program = p
  func : a.func = f
  func' : a'.func = f
  domain : a.InDomain
  domain' : a'.InDomain
  kinds : ∀ {i callee args}, i ∈ p.instructions f → (p.inst i).op = .call callee args →
    a.cls.kindOf i = o.kindOf callee
  kinds' : ∀ {i callee args}, i ∈ q.instructions f → (q.inst i).op = .call callee args →
    a'.cls.kindOf i = o.kindOf callee
  stays : ∀ {i callee args x}, i ∈ p.instructions f → (p.inst i).op = .call callee args →
    x ∈ args.take (o.kindOf callee).handleArgs → φ.subst x = x
  redone : Analysis.Redone r p f φ a a'

namespace Resumes

variable {p q : Program} {o : Options} {f : FuncId} {J : InstId → Fate → Prop} {φ : Fates}
  {r : Renumbering} {a a' : Analysis} {t : RewriteState} {i j : InstId} {m : Id} {x : Value}
  {callee : String} {args : List Value}

variable (h : Resumes p q o f J φ r a a' t)
include h

/-! ## Calls -/

theorem kindOf (hj : j ∈ t.program.instructions f)
    (hop : (t.program.inst j).op = .call callee args) :
    t.rewriter.analysis.cls.kindOf j = o.kindOf callee := by
  have hj' : j ∈ t.program.instructions a.func := h.func ▸ hj
  rcases h.rewriting.program.old_or_new hj' with ⟨hold, herased⟩ | ⟨-, i, -, hcode⟩
  · have hx := (Fates.erased_layout.1 herased).resolve_right (by simp)
    rw [h.rewriting.op_of_kept hold (.inl hx)] at hop
    rw [h.rewriting.kinds (h.linked.lt_size hold)]
    cases hop' : (p.inst j).op with
    | call callee' args' =>
      rw [hop'] at hop
      obtain ⟨rfl, -⟩ := Form.call.inj hop
      exact h.kinds (h.func ▸ hold) hop'
    | _ => rw [hop'] at hop; cases hop
  · obtain ⟨op, args', hcalls, -⟩ := h.rewriting.kind_of_mem_code hcode
    rw [hcalls.op, h.rewriting.names] at hop
    obtain ⟨rfl, -⟩ := Form.call.inj hop
    rw [hcalls.kind, o.kindOf_nameOf]

theorem kindOf_eq (hj : j ∈ t.program.instructions f)
    (hcall : (t.program.inst j).op.isCall = true) :
    a'.cls.kindOf j = t.rewriter.analysis.cls.kindOf j := by
  cases hop : (t.program.inst j).op with
  | call callee args =>
    rw [h.kindOf hj hop, h.kinds' (h.instructions ▸ hj) (by rw [h.inst j hj]; exact hop)]
  | _ => rw [hop] at hcall; cases hcall

theorem callsOf_eq (os : List Operation) :
    Rewriter.callsOf { analysis := a', names := o.names } q os =
      t.rewriter.callsOf t.program os := by
  have hcalls : q.calls f = t.program.calls f := by
    rw [Program.calls, Program.calls, h.instructions]
    exact List.filter_congr fun j hj => by rw [h.inst j hj]
  rw [Rewriter.callsOf, Rewriter.callsOf, h.func', h.rewriting.func_eq, h.func, hcalls]
  refine List.filter_congr fun j hj => ?_
  obtain ⟨hj, hcall⟩ := List.mem_filter.1 hj
  rw [h.kindOf_eq hj hcall]

/-! ## Constants -/

/-- What sets the handle in the place of a definer. -/
theorem setter_mem (hm : m ∈ a.definers a.func) : ∃ d ∈ p.instructions f,
    (p.inst d).op.isCall = true ∧ a.cls.arena.find (.inst d) = some m ∧
      φ.setter d ∈ t.program.instructions f ∧
      (t.program.inst (φ.setter d)).op.isCall = true := by
  obtain ⟨d, hd, hfind, op, hop, hkind⟩ := hm
  obtain ⟨hd, hcall⟩ := List.mem_filter.1 hd
  rw [h.program] at hd hcall
  refine ⟨d, h.func ▸ hd, hcall, hfind, ?_⟩
  have hcode {w : InstId} (hw : (φ d).write? = some w) :
      w ∈ t.program.instructions f ∧ (t.program.inst w).op.isCall = true := by
    have hmem : w ∈ (φ d).code := by
      cases hx : φ d <;> rw [hx] at hw <;> cases hw <;> simp [Fate.code]
    obtain ⟨_, _, hcalls, -⟩ := h.rewriting.kind_of_mem_code hmem
    exact ⟨h.func ▸ h.rewriting.code_mem_instructions hmem, by rw [hcalls.op]; rfl⟩
  unfold Fates.setter
  cases hx : φ d with
  | kept =>
    refine ⟨h.func ▸ h.rewriting.program.mem_instructions_of_kept hd
      (Fates.erased_layout.2 (.inl hx)), ?_⟩
    show (t.program.inst d).op.isCall = true
    rw [h.rewriting.op_of_kept hd (.inl hx), Form.isCall_map]
    exact hcall
  | dropped l =>
    have hreading := h.rewriting.fits d
    rw [hx] at hreading
    rw [hreading.kind] at hkind
    cases hkind
    simp at hop
  | written w l => exact hcode (by rw [hx]; rfl)
  | copied r w u => exact hcode (by rw [hx]; rfl)

theorem literalOf_eq (hm : m ∈ a.definitions i x) (hm' : r.setter m ∈ a'.definitions j x) :
    Rewriter.literalOf { analysis := a', names := o.names } q (r.setter m) =
      t.rewriter.literalOf t.program m := by
  rcases h.domain.definitions hm with rfl | hm
  · rw [r.setter_unknown]
    rfl
  · obtain ⟨d, hd, hcall, hfind, hset, hcall'⟩ := h.setter_mem hm
    have hne : r.setter m ≠ unknown := by
      rw [← r.setter_unknown]
      intro heq
      rw [r.setter.injective heq] at hfind
      exact absurd (Arena.find_bounds hfind).1 (by decide)
    obtain ⟨_, -, hfind', -⟩ := (h.domain'.definitions hm').resolve_left hne
    have hvalue' := h.redone.setter d hd hfind (Arena.find_bounds hfind')
    have hplace : (t.rewriter.replaced.lookup d).getD d = φ.setter d := by
      rw [h.rewriting.replaced]
      rfl
    have hvalue : t.rewriter.analysis.cls.arena.value? m = some (.inst d) := by
      obtain ⟨kinds, hkinds⟩ := h.rewriting.analysis
      rw [hkinds]
      exact Arena.value?_of_find hfind
    refine Rewriter.literalOf_congr hvalue hvalue' ?_ ?_ ?_ ?_ ?_
    · have hskeleton :=
        congrArg Form.isCall (h.rewriting.program.skeleton (h.linked.lt_size hd))
      rwa [Form.skeleton, Form.skeleton, Form.isCall_map, Form.isCall_map, hcall] at hskeleton
    · rw [h.inst _ hset]
      exact hcall'
    · rw [hplace]
      rfl
    · rw [hplace, h.inst _ hset]
    · rw [hplace]
      exact h.kindOf_eq hset hcall'

/-- What has stood where an instruction stands decides whether a value is constant there. -/
theorem constantOf_eq (hi : i ∈ p.instructions f) (hj : j ∈ φ.segment i) (hx : x ∈ p.values f)
    (hstay : φ.subst x = x) :
    Rewriter.constantOf { analysis := a', names := o.names } q j x =
      t.rewriter.constantOf t.program i x := by
  have hdefs : t.rewriter.analysis.definitions i x = a.definitions i x := by
    obtain ⟨kinds, hkinds⟩ := h.rewriting.analysis
    rw [hkinds]
    rfl
  have hredone := h.redone.definitions i hi j hj x hx hstay
  refine Rewriter.constantOf_congr (e := r.setter) (fun m => ?_) fun m hm => ?_
  · rw [hdefs]
    exact hredone m
  · rw [hdefs] at hm
    exact h.literalOf_eq hm ((hredone m).2 hm)

/-! ## Decisions -/

/-- An operand that has to be a handle is what it was. -/
theorem mem_values_of_handle (hi : i ∈ p.instructions f) (hx : φ i = .kept)
    (hop : (t.program.inst i).op = .call callee args)
    (hmem : x ∈ args.take (o.kindOf callee).handleArgs) : x ∈ p.values f ∧ φ.subst x = x := by
  have hi' : i ∈ p.instructions a.func := h.func ▸ hi
  rw [h.rewriting.op_of_kept hi' (.inl hx)] at hop
  cases hop' : (p.inst i).op with
  | call callee' args' =>
    rw [hop'] at hop
    obtain ⟨rfl, rfl⟩ := Form.call.inj hop
    rw [← List.map_take] at hmem
    obtain ⟨y, hy, rfl⟩ := List.mem_map.1 hmem
    have hstay : φ.subst y = y := h.stays hi hop' hy
    have hval : y ∈ p.values f :=
      Program.mem_values_of_operand hi (by rw [hop']; exact List.mem_of_mem_take hy)
    show φ.subst y ∈ p.values f ∧ φ.subst (φ.subst y) = φ.subst y
    rw [hstay]
    exact ⟨hval, hstay⟩
  | _ => rw [hop'] at hop; cases hop

theorem outcome?_eq (hi : i ∈ t.rewriter.callsOf t.program [.add, .subtract]) :
    Rewriter.outcome? { analysis := a', names := o.names } q i =
      t.rewriter.outcome? t.program i := by
  obtain ⟨hmem, hcall, op, harith, hkind⟩ := h.rewriting.mem_callsOf hi
  have hmem : i ∈ t.program.instructions f := h.func ▸ hmem
  obtain ⟨hx, op', hop', ⟨hold, -, -⟩ | ⟨-, rfl | rfl⟩⟩ := h.rewriting.callsOf_cases h.linked hi
  · have hold : i ∈ p.instructions f := h.func ▸ hold
    have hkind' : a'.cls.kindOf i = t.rewriter.analysis.cls.kindOf i := h.kindOf_eq hmem hcall
    unfold Rewriter.outcome?
    rw [h.inst i hmem]
    cases hop : (t.program.inst i).op with
    | call callee args =>
      match args with
      | handle :: left :: right :: rest =>
        have hhandles : (o.kindOf callee).handleArgs = 3 := by
          rw [← h.kindOf hmem hop, hkind]
          rcases List.mem_pair.1 harith with rfl | rfl <;> rfl
        have hconstant {x : Value} (hmem : x ∈ [handle, left, right]) :
            Rewriter.constantOf { analysis := a', names := o.names } q i x =
              t.rewriter.constantOf t.program i x := by
          obtain ⟨hval, hstay⟩ := h.mem_values_of_handle hold hx hop (x := x) (by
            rw [hhandles]
            exact hmem)
          exact h.constantOf_eq hold (by rw [Fates.segment_eq_self hx]; exact List.mem_cons_self)
            hval hstay
        simp only [hconstant (x := left) (by simp), hconstant (x := right) (by simp), hkind']
      | [] | [_] | [_, _] => rfl
    | _ => rfl
  · simp at hop'
  · simp at hop'

/-! ## Reads -/

theorem writes_read_iff : ((t.rewriter.replaced.lookup j).any fun w =>
    (t.program.inst w).op.operands[1]? = some (.inst i)) = true ↔
      ∃ w u, φ j = .copied i w u := by
  have hfits := h.rewriting.fits j
  rw [h.rewriting.replaced]
  cases hx : φ j with
  | kept | dropped => simp [Fate.write?]
  | written w l =>
    rw [hx] at hfits
    obtain ⟨_, _, _, -, hw⟩ := hfits
    simp [Fate.write?, hw.op, Form.operands]
  | copied r w u =>
    rw [hx] at hfits
    obtain ⟨_, _, _, -, -, -, hw⟩ := hfits
    simp [Fate.write?, hw.op, Form.operands]

theorem site_of_not_copied (hnot : ∀ j w u, φ j ≠ .copied i w u) : t.site i = i := by
  rw [RewriteState.site, List.find?_eq_none.2, Option.getD_none]
  intro j _ hj
  obtain ⟨w, u, hx⟩ := h.writes_read_iff.1 hj
  exact hnot j w u hx

theorem site_of_copied {w : InstId} {u : Value} (hx : φ j = .copied i w u) : t.site i = j := by
  have hsame {k : InstId} (hk : ∃ w u, φ k = .copied i w u) : k = j := by
    obtain ⟨w', u', hk⟩ := hk
    have hmem {k w u} (hk : φ k = .copied i w u) : k ∈ p.instructions f ∧ i ∈ φ.segment k := by
      refine ⟨h.follows.mem (by rw [hk]; nofun), ?_⟩
      rw [Fates.segment_eq_code (by rw [hk]; nofun), hk]
      exact List.mem_cons_self
    exact h.follows.eq_of_mem_segment (hmem hk).1 (hmem hx).1 (hmem hk).2 (hmem hx).2
  have hlt : j < t.program.insts.size :=
    Nat.lt_of_lt_of_le (h.linked.lt_size (h.follows.mem (by rw [hx]; nofun)))
      h.rewriting.program.size
  rw [RewriteState.site]
  cases hfind : (List.range t.program.insts.size).find? _ with
  | none =>
    exact absurd (h.writes_read_iff.2 ⟨w, u, hx⟩)
      (List.find?_eq_none.1 hfind j (List.mem_range.2 hlt))
  | some k =>
    have hk := List.find?_some hfind
    exact hsame (h.writes_read_iff.1 hk)

/-- A read that is put in goes by what was known where the arithmetic call stood. -/
theorem constantOf_copied {w : InstId} {u : Value} (hx : φ j = .copied i w u) :
    (q.inst i).op.operands = [u] ∧
      Rewriter.constantOf { analysis := a', names := o.names } q i u =
        t.rewriter.constantOf t.program j u := by
  have hj : j ∈ p.instructions f := h.follows.mem (by rw [hx]; nofun)
  have hmeets := h.follows.meets j hj
  rw [hx] at hmeets
  obtain ⟨handle, y, z, ⟨callee, rest, hop, hkind⟩, hu, hread, -⟩ := hmeets
  have hmem : u ∈ (handle :: y :: z :: rest).take (o.kindOf callee).handleArgs := by
    have hhandles : (o.kindOf callee).handleArgs = 3 := by
      rcases hkind with hkind | hkind <;> rw [hkind] <;> rfl
    rw [hhandles]
    rcases hu with rfl | rfl <;> simp
  have hstay := h.stays hj hop hmem
  have hval : u ∈ p.values f :=
    Program.mem_values_of_operand hj (by rw [hop]; exact List.mem_of_mem_take hmem)
  refine ⟨by rw [hread, hstay]; rfl, h.constantOf_eq hj ?_ hval hstay⟩
  rw [Fates.segment_eq_code (by rw [hx]; nofun), hx]
  exact List.mem_cons_self

/-- A read that has been put in belongs to the write that is put in with it. -/
theorem exists_copied (hcode : i ∈ (φ j).code)
    (hkind : t.rewriter.analysis.cls.kindOf i = .operation .read) : ∃ w u, φ j = .copied i w u := by
  have hfits := h.rewriting.fits j
  have hwrite {args} (hcalls : t.Calls i .write args) : False := by
    cases hkind.symm.trans hcalls.kind
  cases hx : φ j with
  | kept | dropped => rw [hx] at hcode; cases hcode
  | written w l =>
    rw [hx] at hcode hfits
    obtain ⟨_, _, _, -, hw⟩ := hfits
    exact (hwrite (List.mem_singleton.1 hcode ▸ hw)).elim
  | copied r w u =>
    rw [hx] at hcode hfits
    obtain ⟨_, _, _, -, -, -, hw⟩ := hfits
    rcases List.mem_cons.1 hcode with rfl | hcode
    · exact ⟨w, u, rfl⟩
    · exact (hwrite (List.mem_singleton.1 hcode ▸ hw)).elim

theorem reads_eq (hi : i ∈ t.rewriter.callsOf t.program [.read]) :
    (q.inst i).op.operands.head?.bind
        (Rewriter.constantOf { analysis := a', names := o.names } q i) =
      (t.program.inst i).op.operands.head?.bind
        (t.rewriter.constantOf t.program (t.site i)) := by
  obtain ⟨hmem, hcall, op, hread, hkind⟩ := h.rewriting.mem_callsOf hi
  obtain rfl := List.mem_singleton.1 hread
  rcases h.rewriting.program.old_or_new hmem with ⟨hold, herased⟩ | ⟨hnew, j, -, hcode⟩
  · have hx := (Fates.erased_layout.1 herased).resolve_right (by simp)
    have hold : i ∈ p.instructions f := h.func ▸ hold
    have hmem : i ∈ t.program.instructions f := h.func ▸ hmem
    have hsite : t.site i = i := h.site_of_not_copied fun j w u hj =>
      Nat.not_lt.2 (h.follows.new (i := j) (by rw [hj]; exact List.mem_cons_self))
        (h.linked.lt_size hold)
    rw [h.inst i hmem, hsite]
    cases hop : (t.program.inst i).op with
    | call callee args =>
      have hhandles : (o.kindOf callee).handleArgs = 1 := by
        rw [← h.kindOf hmem hop, hkind]
        rfl
      cases args with
      | nil => rfl
      | cons x rest =>
        obtain ⟨hval, hstay⟩ := h.mem_values_of_handle hold hx hop (x := x) (by
          rw [hhandles]
          exact List.mem_cons_self)
        exact h.constantOf_eq hold (by rw [Fates.segment_eq_self hx]; exact List.mem_cons_self)
          hval hstay
    | _ => rw [hop] at hcall; cases hcall
  · have hmem : i ∈ t.program.instructions f := h.func ▸ hmem
    obtain ⟨w, u, hx⟩ := h.exists_copied hcode hkind
    obtain ⟨hoperands, hconstant⟩ := h.constantOf_copied hx
    rw [h.site_of_copied hx, ← h.inst i hmem, hoperands]
    exact hconstant

/-- What is left to decide by the old facts is what there is to decide by the new ones. -/
theorem exhausted_iff : t.Exhausted ↔ RewriteState.Exhausted
    { program := q, rewriter := { analysis := a', names := o.names } } := by
  have hsite (i : InstId) : RewriteState.site
      { program := q, rewriter := { analysis := a', names := o.names } } i = i :=
    RewriteState.site_of_nil rfl i
  constructor
  · intro ht
    refine ⟨fun i hi => ?_, fun i hi => ?_⟩
    · rw [h.callsOf_eq] at hi
      exact (h.outcome?_eq hi).trans (ht.arithmetic i hi)
    · rw [h.callsOf_eq] at hi
      rw [hsite]
      exact (h.reads_eq hi).trans (ht.reads i hi)
  · intro hq
    refine ⟨fun i hi => ?_, fun i hi => ?_⟩
    · rw [← h.outcome?_eq hi]
      exact hq.arithmetic i (by rw [h.callsOf_eq]; exact hi)
    · have hread := hq.reads i (by rw [h.callsOf_eq]; exact hi)
      rw [hsite] at hread
      exact (h.reads_eq hi).symm.trans hread

end Resumes

/-! ## A rewriting with nothing to decide -/

namespace RewriteM

variable {s : RewriteState} {i : InstId} {is : List InstId}

theorem foldCall_idles : Idles (foldCall i) s (s.rewriter.outcome? s.program i = none) := by
  unfold foldCall
  refine .bind_get ?_
  cases ho : s.rewriter.outcome? s.program i with
  | none => exact Idles.no rfl
  | some outcome =>
    refine Idles.yes ?_ nofun
    cases outcome <;> exact .bind .any fun _ _ _ => .bind .any fun _ _ _ => .bind .any fun _ _ _ =>
      .bind .any fun _ _ _ => .pure rfl

theorem propagateCall_idles : Idles (propagateCall i) s
    ((s.program.inst i).op.operands.head?.bind (s.rewriter.constantOf s.program i) = none) := by
  unfold propagateCall
  refine .bind_get ?_
  dsimp only
  split
  · next hnone => exact Idles.no hnone
  · next value hvalue =>
    refine Idles.yes ?_ (by simp [hvalue])
    exact .bind .any fun _ _ _ => .bind .any fun _ _ _ => .bind .any fun _ _ _ =>
      .bind .any fun _ _ _ => .pure rfl

/-- A phase that decides nothing does nothing. -/
theorem phase_idles {g : InstId → RewriteM Bool} {idle : InstId → Prop}
    (h : ∀ i ∈ is, Idles (g i) s (idle i)) :
    Idles (do
      let doomed ← is.filterM g
      eraseAll doomed
      return !doomed.isEmpty) s (∀ i ∈ is, idle i) := by
  refine (Idles.filterM h).bind fun doomed t ⟨hidle, ht⟩ => ?_
  cases doomed with
  | nil =>
    obtain rfl := ht rfl
    exact .bind (P := fun _ u => u = t) (.pure rfl) fun _ u hu => hu ▸ Idles.no (hidle.1 rfl)
  | cons i doomed => exact .bind .any fun _ _ _ => .pure (by simpa using hidle)

theorem foldArithmetic_idles : Idles foldArithmetic s
    (∀ i ∈ s.rewriter.callsOf s.program [.add, .subtract],
      s.rewriter.outcome? s.program i = none) :=
  .bind_get (phase_idles fun _ _ => foldCall_idles)

theorem propagateConstants_idles : Idles propagateConstants s
    (∀ i ∈ s.rewriter.callsOf s.program [.read],
      (s.program.inst i).op.operands.head?.bind (s.rewriter.constantOf s.program i) = none) :=
  .bind_get (phase_idles fun _ _ => propagateCall_idles)

/-- A rewriting that goes by facts to be relied on does nothing exactly if nothing is left to
decide. -/
theorem run_idles (hconv : s.rewriter.analysis.converged = true)
    (hreplaced : s.rewriter.replaced = []) : Idles run s s.Exhausted := by
  unfold run
  refine .bind_get ?_
  rw [if_pos hconv]
  refine foldArithmetic_idles.bind fun folded t ⟨hfolded, ht⟩ => ?_
  cases folded with
  | true =>
    have hbusy : ¬s.Exhausted := fun hs => nomatch hfolded.2 hs.arithmetic
    exact .bind .any fun _ _ _ => .pure (by simp [hbusy])
  | false =>
    obtain rfl := ht rfl
    refine propagateConstants_idles.bind fun propagated u ⟨hread, hu⟩ => .pure ⟨?_, hu⟩
    have hsite := RewriteState.site_of_nil hreplaced
    rw [Bool.false_or, hread]
    constructor
    · intro hidle
      exact ⟨hfolded.1 rfl, fun i hi => by rw [hsite]; exact hidle i hi⟩
    · intro hs i hi
      have hread := hs.reads i hi
      rwa [hsite] at hread

end RewriteM

end BoxFlow
