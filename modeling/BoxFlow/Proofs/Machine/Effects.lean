import BoxFlow.Proofs.Machine.Covers

/-!
# Effects keep up with actions

The effect of an instruction covers what its action does (`Covers.perform`), by one lemma for each
action. Where a rule goes by a class, the instruction has to be consistent with the classification.
-/

namespace BoxFlow

namespace Machine

variable {p : Program} {o : Options} {w : World} {f : FuncId} {v : View} {k : Knowledge}
  {m : Machine} {i j t : InstId} {x : Datum} {u : Value}

namespace Covers

/-! ## Making handles and cells -/

section Making

variable (hs : Suited p o f v) (hm : m.Proper w) (hfresh : m.Fresh p f v i)
  (h : Covers p f w v k m)
include hs hm hfresh h

theorem alloc {ty : Ty} (hop : (p.inst i).op = .alloca ty)
    (hcons : v.cls.classOf (.inst i) = .pointer) :
    Covers p f w v (v.effect i k) (m.perform w i .alloc) := by
  have hbefore : Covers p f w v k { m with heap.cells := m.heap.cells ++ [none] } := by
    refine h.congr rfl (fun _ hset => hset) fun {j c x} he hx => ?_
    exact (List.getElem?_append_left (hm.env he).2).symm.trans hx
  rw [View.effect_alloca (by rw [hs.program, hop]) hcons]
  refine hbefore.assign_linked (s := ∅) hfresh (by rw [Knowledge.describe_aliases]) ?_ ?_ ?_ ?_ ?_ ?_
  · intro q hq
    rw [Knowledge.describe_defs hq]
    exact subset_rfl
  · intro q r hq _ hr
    rwa [Knowledge.describe_pointsTo hq]
  · intro j _ _ _ he
    exact absurd (hm.env he).2 (Nat.lt_irrefl _)
  · intro g d _ hg
    cases hg
  · intro c y _ heq hy
    cases heq
    simp at hy
  · intro c _
    simp [hcons]

theorem create {callee : String} {args : List Value} (hi : i ∈ p.instructions f)
    (hop : (p.inst i).op = .call callee args) (hkind : o.kindOf callee = .operation .create)
    (n : BitVec 64) : Covers p f w v (v.effect i k) (m.perform w i (.create n)) := by
  have hbefore : Covers p f w v k { m with
      heap.objects := m.heap.objects ++ [n]
      setter := Function.update m.setter m.heap.objects.length (some i) } := by
    refine h.congr rfl (fun {j g d} he hset => ?_) fun _ hx => hx
    exact (Function.update_of_ne (Nat.ne_of_lt (hm.env he).2) ..).symm.trans hset
  rw [View.effect_create (by rw [hs.program, hop]) ((hs.kinds hi hop).trans hkind)]
  refine hbefore.assign_linked (s := ∅) hfresh rfl ?_ (fun _ _ _ _ hr => hr) ?_ ?_ ?_ ?_
  · exact fun q hq d hd => .inr ⟨hq, hd⟩
  · intro j _ _ _ he
    exact absurd (hm.env he).2 (Nat.lt_irrefl _)
  · intro g d _ heq hset
    cases heq
    obtain rfl : i = d := by simpa using hset
    exact .inl ⟨.inl ⟨rfl, .inl rfl⟩, rfl⟩
  · intro c y _ heq
    cases heq
  · intro c heq
    cases heq

end Making

/-! ## Setting handles and filling cells -/

/-- A handle is set through a classified value. -/
theorem define (h : Covers p f w v k m) (ht : v.cls.classOf (.inst t) = .data) {g : Nat}
    (he : m.env t = some (.handle g)) (n : BitVec 64) :
    Covers p f w v (k.define (v.idOf (.inst t)) (v.idOf (.inst i))) { m with
      heap.objects := m.heap.objects.set g n
      setter := Function.update m.setter g (some i) } where
  aliases := h.aliases
  pointsTo hj hej hc := by
    obtain ⟨u, hu, hmem, heval⟩ := h.pointsTo hj hej hc
    refine ⟨u, hu, hmem, fun hcl => ?_⟩
    have := heval hcl
    cases u <;> exact this
  cells he := h.cells he
  defs {j g' d} hj hej hset := by
    have hset : Function.update m.setter g (some i) g' = some d := hset
    have hej : m.env j = some (.handle g') := hej
    have hne {j} (hj : v.cls.classOf (.inst j) = .data) : v.cls.classOf (.inst j) ≠ .irrelevant := by
      simp [hj]
    by_cases hg : g' = g
    · subst hg
      rw [Function.update_self] at hset
      cases hset
      exact .inl ⟨h.aliases (x := .handle g') (hne ht) (hne hj) trivial he hej, rfl⟩
    · rw [Function.update_of_ne hg] at hset
      refine .inr ⟨View.idOf_ne (hne hj) ?_, h.defs hj hej hset⟩
      rintro heq
      cases heq
      rw [he] at hej
      cases hej
      exact hg rfl

/-- A cell is filled through a classified value. -/
theorem overwrite (h : Covers p f w v k m) (ht : v.cls.classOf (.inst t) = .pointer) {c : Nat}
    (he : m.env t = some (.cell c)) (hu : u ∈ p.stored f) (hx : m.eval w u = some x) :
    Covers p f w v (k.overwrite (v.idOf (.inst t)) (v.idOf u)) (m.perform w i (.fill c x)) where
  aliases := h.aliases
  defs := h.defs
  cells he := h.cells he
  pointsTo {j c' y} hj hej hy := by
    have heval {u : Value} : (m.perform w i (.fill c x)).eval w u = m.eval w u := by cases u <;> rfl
    have hy : (m.heap.cells.set c (some x))[c']? = some (some y) := hy
    have hej : m.env j = some (.cell c') := hej
    have hne {j} (hj : v.cls.classOf (.inst j) = .pointer) :
        v.cls.classOf (.inst j) ≠ .irrelevant := by simp [hj]
    by_cases hc : c' = c
    · subst hc
      rw [List.getElem?_set_self'] at hy
      cases hcell : m.heap.cells[c']? with
      | none => rw [hcell] at hy; cases hy
      | some z =>
        rw [hcell] at hy
        cases hy
        exact ⟨u, hu, .inl ⟨h.aliases (x := .cell c') (hne ht) (hne hj) trivial he hej, rfl⟩,
          fun _ => heval.trans hx⟩
    · rw [List.getElem?_set_ne (Ne.symm hc)] at hy
      obtain ⟨u', hu', hmem, hold⟩ := h.pointsTo hj hej hy
      refine ⟨u', hu', .inr ⟨View.idOf_ne (hne hj) ?_, hmem⟩, fun hcl => heval.trans (hold hcl)⟩
      rintro heq
      cases heq
      rw [he] at hej
      cases hej
      exact hc rfl

/-! ## Loads -/

/-- Where a closed function uses a handle or an address, it uses a result. -/
theorem inst_of_operand (hc : p.Closed o f) (hi : i ∈ p.instructions f)
    (hu : u ∈ (p.inst i).op.operands) (hx : x.IsRef) (he : m.eval w u = some x) :
    ∃ j, u = .inst j := by
  rcases hc.literal_or_inst hi hu with hlit | h
  · cases u with
    | literal l => cases he; exact hx.elim
    | _ => cases hlit
  · exact h

theorem load (hs : Suited p o f v) (hc : p.Closed o f) (hfresh : m.Fresh p f v i)
    (h : Covers p f w v k m) (hop : (p.inst i).op = .load (.inst t)) (hcons : v.Consistent i k)
    {c : Nat} (he : m.env t = some (.cell c)) (hx : m.heap.cells[c]? = some (some x)) :
    Covers p f w v (v.effect i k) (m.perform w i (.yield x)) := by
  have hop' : (v.program.inst i).op = .load (.inst t) := by rw [hs.program, hop]
  obtain ⟨hptr, hclass⟩ := hcons.load hop'
  -- The value that has filled the cell; it is of the class of the result.
  have hsource (hi : v.cls.classOf (.inst i) ≠ .irrelevant) (href : x.IsRef) :
      ∃ s, v.idOf (.inst s) ∈ k.pointsTo (v.idOf (.inst t)) ∧
        v.cls.classOf (.inst s) = v.cls.classOf (.inst i) ∧ m.env s = some x := by
    obtain ⟨u, hu, hmem, heval⟩ := h.pointsTo hptr he hx
    have hu' : v.cls.classOf u = v.cls.classOf (.inst i) := by
      rw [← View.classOfId_idOf hs.numbered]
      exact hclass hi _ hmem (v.idOf_ne_unknown u)
    have heval := heval (hu' ▸ hi)
    obtain ⟨s, hs', pointer, hstore⟩ := hu
    obtain ⟨s, rfl⟩ := inst_of_operand hc hs' (by simp [hstore, Form.operands]) href heval
    exact ⟨s, hmem, hu', heval⟩
  have hid (s : InstId) := v.idOf_ne_unknown (.inst s)
  have hclassId {s} (hs' : v.cls.classOf (.inst s) = v.cls.classOf (.inst i)) :
      v.cls.classOfId (v.idOf (.inst s)) = v.cls.classOf (.inst i) :=
    (View.classOfId_idOf hs.numbered _).trans hs'
  rw [View.effect_load hop' hptr]
  refine h.assign_linked hfresh (View.loadEffect_aliases ..) (fun q hq => View.loadEffect_defs hq)
    (fun q r hq hr hmem => View.loadEffect_pointsTo hq (fun hu => absurd hu hr) hmem) ?_ ?_ ?_ ?_
  · intro j hi hj href hej
    obtain ⟨s, hmem, hs', hes⟩ := hsource hi href
    exact ⟨_, hmem, hid s, h.aliases (hs' ▸ hi) hj href hes hej⟩
  · rintro g d hk rfl hset
    obtain ⟨s, hmem, hs', hes⟩ := hsource (by simp [hk]) trivial
    exact (View.loadEffect_loaded hmem (hid s) (hclassId hs')).1 hk (h.defs (hs'.trans hk) hes hset)
  · rintro c' y hk rfl hy
    obtain ⟨s, hmem, hs', hes⟩ := hsource (by simp [hk]) trivial
    obtain ⟨u, hu, hmem', heval⟩ := h.pointsTo (hs'.trans hk) hes hy
    exact ⟨u, hu,
      (View.loadEffect_loaded hmem (hid s) (hclassId hs')).2 hk (v.idOf_ne_unknown u) hmem',
      heval⟩
  · rintro c' rfl hk
    obtain ⟨s, -, hs', hes⟩ := hsource (by simp [hk]) trivial
    exact h.cells hes (hs'.trans hk)

/-! ## Selects -/

theorem select (hs : Suited p o f v) (hc : p.Closed o f) (hi : i ∈ p.instructions f)
    (hfresh : m.Fresh p f v i) (h : Covers p f w v k m) {b ifTrue ifFalse : Value}
    (hop : (p.inst i).op = .select b ifTrue ifFalse) (hu : u ∈ [ifTrue, ifFalse])
    (hx : m.eval w u = some x) : Covers p f w v (v.effect i k) (m.perform w i (.yield x)) := by
  have hmerged : u ∈ (p.inst i).op.merged := by rw [hop]; exact hu
  rw [View.effect_select (by rw [hs.program, hop])]
  refine h.merge hfresh fun hclass href => ?_
  obtain ⟨j, rfl⟩ := inst_of_operand hc hi
    (by rw [hop]; exact List.mem_cons_of_mem _ hu) href hx
  have hj : v.cls.classOf (.inst j) ≠ .irrelevant := by
    cases hk : v.cls.classOf (.inst i) with
    | data => simp [hs.data hi hmerged rfl hk]
    | pointer => exact hs.pointer hi hmerged rfl hk
    | irrelevant => exact absurd hk hclass
  have hfind : v.cls.arena.find (.inst j) = some (v.idOf (.inst j)) :=
    Classification.find_of_classOf hj
  refine ⟨(v.idOf (.inst j), k), ⟨?_, rfl⟩, h.takes hx href (hs.data hi hmerged rfl)
    (hs.pointer hi hmerged rfl) hclass⟩
  simp only [List.mem_cons, List.not_mem_nil, or_false] at hu
  rcases hu with rfl | rfl
  · exact .inl hfind
  · exact .inr hfind

/-! ## Calls -/

theorem call (hs : Suited p o f v) (hc : p.Closed o f) (hi : i ∈ p.instructions f)
    (hm : m.Proper w) (hfresh : m.Fresh p f v i) (h : Covers p f w v k m) {callee : String}
    {args : List Value} (hop : (p.inst i).op = .call callee args) (hcons : v.Consistent i k)
    {a : Action} (ha : m.action o w (.call callee args) = some a) :
    Covers p f w v (v.effect i k) (m.perform w i a) := by
  have hkind := hs.kinds hi hop
  have hop' : (v.program.inst i).op = .call callee args := by rw [hs.program, hop]
  obtain ⟨xs, hxs, ha⟩ := action_call.1 ha
  -- The handle that a call sets is classified as such.
  have hset {g : Nat} {n r : BitVec 64} {ys : List Datum}
      (hd : (o.kindOf callee).definesFirst = true) (hys : xs = .handle g :: ys) :
      Covers p f w v (v.effect i k) (m.perform w i (.set g n r)) := by
    obtain ⟨u, rest, rfl, hu, heffect⟩ := hcons.define hop' (hkind ▸ hd)
    rw [hys, List.map_cons, List.map_cons] at hxs
    obtain ⟨hx, -⟩ := List.cons.inj hxs
    obtain ⟨t, rfl⟩ := inst_of_operand hc hi (by rw [hop]; exact List.mem_cons_self)
      (x := .handle g) trivial hx
    rw [heffect]
    exact (h.define hu hx n).assign_plain hfresh fun href => href.elim
  have hplain (hc : o.kindOf callee ≠ .operation .create) (ho : o.kindOf callee ≠ .opaqueCall)
      (hd : (o.kindOf callee).definesFirst = false) (n : BitVec 64) :
      Covers p f w v (v.effect i k) (m.assign i (.int n)) := by
    rw [View.effect_of_keeping hop' (hkind ▸ hc) (hkind ▸ ho) (hkind ▸ hd)]
    exact h.assign_plain hfresh fun href => href.elim
  unfold Machine.call at ha
  split at ha
  · next op hk =>
    cases operation_eq_some_iff.1 ha with
    | create => exact h.create hs hm hfresh hi hop hk _
    | read | destroy =>
      exact hplain (by simp [hk]) (by simp [hk]) (by simp [hk, CallKind.definesFirst]) _
    | write | add | subtract => exact hset (by simp [hk, CallKind.definesFirst]) rfl
  · next hk =>
    cases ha
    have hreport := hplain (by simp [hk]) (by simp [hk]) (by simp [hk, CallKind.definesFirst])
      (w.result (m.trace ++ [⟨callee, xs⟩]))
    exact hreport.congr rfl (fun _ hset => hset) fun _ hx => hx
  · next hk => exact absurd hk (hc.calls i hi callee (by rw [hop]; rfl))

/-! ## Any action -/

/-- The effect of an instruction that does something covers what it does. -/
theorem perform (hs : Suited p o f v) (hc : p.Closed o f) (hi : i ∈ p.instructions f)
    (hm : m.Proper w) (hfresh : m.Fresh p f v i) (h : Covers p f w v k m)
    (hcons : v.Consistent i k) {a : Action} (ha : m.action o w (p.inst i).op = some a) :
    Covers p f w v (v.effect i k) (m.perform w i a) := by
  have hpointer {u : Value} {c : Nat} (hu : u ∈ (p.inst i).op.operands)
      (hx : m.eval w u = some (.cell c)) : ∃ t, u = .inst t :=
    inst_of_operand hc hi hu (x := .cell c) trivial hx
  cases hop : (p.inst i).op with
  | alloca ty =>
    rw [hop] at ha
    cases ha
    exact h.alloc hs hm hfresh hop (hcons.alloca (by rw [hs.program, hop]))
  | load pointer =>
    rw [hop] at ha hpointer
    obtain ⟨c, x, hptr, hcell, rfl⟩ := action_load.1 ha
    obtain ⟨t, rfl⟩ := hpointer List.mem_cons_self hptr
    exact h.load hs hc hfresh hop hcons hptr hcell
  | store value pointer =>
    rw [hop] at ha hpointer
    obtain ⟨x, c, y, hval, hptr, -, rfl⟩ := action_store.1 ha
    obtain ⟨t, rfl⟩ := hpointer (by simp [Form.operands]) hptr
    have hop' : (v.program.inst i).op = .store value (.inst t) := by rw [hs.program, hop]
    have ht := hcons.store hop'
    rw [View.effect_store hop' ht]
    exact h.overwrite ht hptr ⟨i, hi, _, hop⟩ hval
  | select b ifTrue ifFalse =>
    rw [hop] at ha
    obtain ⟨n, x, y, -, hx, hy, rfl⟩ := action_select.1 ha
    split
    · exact h.select hs hc hi hfresh hop List.mem_cons_self hx
    · exact h.select hs hc hi hfresh hop (by simp) hy
  | call callee args =>
    exact h.call hs hc hi hm hfresh hop hcons (hop ▸ ha)
  | phi | br | ret | unreachable => rw [hop] at ha; cases ha

end Covers

end Machine

end BoxFlow
