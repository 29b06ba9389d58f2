import BoxFlow.Proofs.Machine.Truth
import BoxFlow.Proofs.Rewriting.Phases

/-!
# Fates that runs bear out

A fate is justified if every run of the function before the rewriting bears it out: whenever a
dropped `read` acts, it yields the literal, and so on (`Fate.Justified`). With truthful facts,
everything that is decided in a rewriting is justified (`Analysis.Truthful.sanctions`): a constant
is what all calls that may have set a handle set it to, in any run, by the fates that these calls
have met so far.
-/

namespace BoxFlow

/-- An action that gives an object a value. -/
def Action.Sets (x : BitVec 64) (act : Action) : Prop :=
  act = .create x ∨ ∃ g r, act = .set g x r

/-- What a call of unknown effect keeps has the value that it had. -/
theorem Aftermath.getElem?_after {a : Aftermath} {objects : List (BitVec 64)} {h : Nat}
    (hk : a.keeps objects h = true) : (a.after objects)[h]? = objects[h]? := by
  obtain ⟨hlt, hset⟩ : h < objects.length ∧ h ∉ a.sets.map Prod.fst := by
    simpa only [keeps, Bool.and_eq_true, decide_eq_true_eq] using hk
  have hsets (l : List (Nat × BitVec 64)) : ∀ os : List (BitVec 64), h ∉ l.map Prod.fst →
      (l.foldl (fun os s => os.set s.1 s.2) os)[h]? = os[h]? ∧
        (l.foldl (fun os s => os.set s.1 s.2) os).length = os.length := by
    induction l with
    | nil => exact fun _ _ => ⟨rfl, rfl⟩
    | cons s l ih =>
      intro os hnot
      rw [List.map_cons, List.mem_cons, not_or] at hnot
      rw [List.foldl_cons, (ih _ hnot.2).1, (ih _ hnot.2).2, List.getElem?_set_ne (Ne.symm hnot.1),
        List.length_set]
      exact ⟨rfl, rfl⟩
  obtain ⟨hget, hlen⟩ := hsets a.sets objects hset
  rw [after, List.getElem?_append_left (by rwa [hlen]), hget]

namespace Machine

variable {p : Program} {o : Options} {w : World} {f : FuncId} {m n : Machine} {i j d r : InstId}
  {rest pre : List InstId} {g : Nat} {x : BitVec 64} {y : Datum} {act : Action}

/-- Whenever instruction `i` acts, in any run, it does what `P` allows. -/
def Always (p : Program) (o : Options) (f : FuncId) (i : InstId)
    (P : World → Machine → Action → Prop) : Prop :=
  ∀ {w m rest act}, Reaches p o w f m → m.rest = i :: rest →
    m.action o w (p.inst i).op = some act → P w m act

/-- What has set an object last after an action is the action, or has set it before. -/
theorem perform_setter (hset : (m.perform w i act).setter g = some d)
    (hx : (m.perform w i act).heap.objects[g]? = some x) :
    d = i ∧ act.Sets x ∨ m.setter g = some d ∧ m.heap.objects[g]? = some x := by
  cases act with
  | yield | alloc | fill | report => exact .inr ⟨hset, hx⟩
  | create y =>
    replace hset : Function.update m.setter m.heap.objects.length (some i) g = some d := hset
    replace hx : (m.heap.objects ++ [y])[g]? = some x := hx
    by_cases hg : g = m.heap.objects.length
    · subst hg
      rw [Function.update_self] at hset
      cases hset
      obtain rfl : y = x := by simpa using hx
      exact .inl ⟨rfl, .inl rfl⟩
    · rw [Function.update_of_ne hg] at hset
      refine .inr ⟨hset, ?_⟩
      rcases Nat.lt_or_gt_of_ne hg with hlt | hgt
      · rwa [List.getElem?_append_left hlt] at hx
      · rw [List.getElem?_eq_none (by simpa using hgt)] at hx
        cases hx
  | set h y r =>
    replace hset : Function.update m.setter h (some i) g = some d := hset
    replace hx : (m.heap.objects.set h y)[g]? = some x := hx
    by_cases hg : g = h
    · subst hg
      rw [Function.update_self] at hset
      cases hset
      rw [List.getElem?_set_self'] at hx
      cases ho : m.heap.objects[g]? with
      | none => rw [ho] at hx; cases hx
      | some z =>
        rw [ho] at hx
        cases hx
        exact .inl ⟨rfl, .inr ⟨g, r, rfl⟩⟩
    · rw [Function.update_of_ne hg] at hset
      rw [List.getElem?_set_ne (Ne.symm hg)] at hx
      exact .inr ⟨hset, hx⟩
  | leave e =>
    replace hset : (if (w.act (m.trace ++ [e]) m.heap).keeps m.heap.objects g then
      m.setter g else none) = some d := hset
    replace hx : ((w.act (m.trace ++ [e]) m.heap).after m.heap.objects)[g]? = some x := hx
    split at hset
    · next hkeeps => exact .inr ⟨hset, (Aftermath.getElem?_after hkeeps).symm.trans hx⟩
    · cases hset

/-- The value of an object is one that its last setter has given. -/
theorem reaches_setBy (h : Reaches p o w f m) : ∀ {g d x}, m.setter g = some d →
    m.heap.objects[g]? = some x → ∃ k rest act, Reaches p o w f k ∧ k.rest = d :: rest ∧
      k.action o w (p.inst d).op = some act ∧ act.Sets x := by
  refine h.induction (P := fun m => ∀ {g d x}, m.setter g = some d →
    m.heap.objects[g]? = some x → ∃ k rest act, Reaches p o w f k ∧ k.rest = d :: rest ∧
      k.action o w (p.inst d).op = some act ∧ act.Sets x) ?_ ?_
  · intro m hs g d x hset
    obtain ⟨b, -, rfl⟩ := Option.map_eq_some_iff.1 hs
    cases hset
  · intro m n hreach ih hmove g d x hset hx
    cases hmove with
    | @act i rest act hrest hact =>
      rcases perform_setter hset hx with ⟨rfl, hsets⟩ | ⟨hset, hx⟩
      · exact ⟨m, rest, act, hreach, hrest, hact, hsets⟩
      · exact ih hset hx
    | jump hrest hop ht hent =>
      obtain ⟨-, rfl⟩ := enter_eq_some hent
      exact ih hset hx
    | ret => exact ih hset hx

end Machine

/-- What every run bears out. -/
def Fate.Justified (p : Program) (o : Options) (f : FuncId) (i : InstId) : Fate → Prop
  | .kept => True
  | .dropped l => Machine.Always p o f i fun _ _ act => act = .yield (.int (.ofInt 64 l.value))
  | .written _ l => Machine.Always p o f i fun _ _ act => ∃ g r, act = .set g (.ofInt 64 l.value) r
  | .copied _ _ u => Machine.Always p o f i fun w m act => ∃ g g' x r,
      m.eval w u = some (.handle g') ∧ m.heap.objects[g']? = some x ∧ act = .set g x r

/-! ## Constants -/

namespace Rewriter

variable {r : Rewriter} {p : Program} {i : InstId} {id : Id} {v : Value} {c : Int}

theorem literalOf_eq_some (h : r.literalOf p id = some c) : ∃ i callee args l,
    r.analysis.cls.arena.value? id = some (.inst i) ∧
    (p.inst ((r.replaced.lookup i).getD i)).op = .call callee args ∧ l.value = c ∧
    (r.analysis.cls.kindOf ((r.replaced.lookup i).getD i) = .operation .create ∧
        args[0]? = some (.literal l) ∨
      r.analysis.cls.kindOf ((r.replaced.lookup i).getD i) = .operation .write ∧
        args[1]? = some (.literal l)) := by
  unfold literalOf at h
  obtain ⟨v, hv, h⟩ := Option.bind_eq_some_iff.1 h
  split at h
  · next i =>
    dsimp only at h
    split at h
    · split at h
      · next callee args hop =>
        split at h
        · next hkind =>
          obtain ⟨x, hx, hl⟩ := Option.bind_eq_some_iff.1 h
          split at hl
          · next l => exact ⟨i, callee, args, l, hv, hop, Option.some.inj hl, .inl ⟨hkind, hx⟩⟩
          · cases hl
        · next hkind =>
          obtain ⟨x, hx, hl⟩ := Option.bind_eq_some_iff.1 h
          split at hl
          · next l => exact ⟨i, callee, args, l, hv, hop, Option.some.inj hl, .inr ⟨hkind, hx⟩⟩
          · cases hl
        · cases h
      · cases h
    · cases h
  · cases h

theorem constantOf_eq_some (h : r.constantOf p i v = some c) :
    r.analysis.definitions i v ≠ [] ∧
      ∀ id ∈ r.analysis.definitions i v, r.literalOf p id = some c := by
  obtain ⟨cs, hcs, h⟩ := Option.bind_eq_some_iff.1 h
  rw [Machine.listMapM_eq_some_iff] at hcs
  cases cs with
  | nil => cases h
  | cons d cs =>
    unfold common? at h
    split at h
    · cases h
    · next heq =>
      cases heq
      split at h
      · next hall =>
        cases h
        refine ⟨?_, fun id hid => ?_⟩
        · intro hnil
          rw [hnil] at hcs
          cases hcs
        have hmem : r.literalOf p id ∈ (c :: cs).map some := hcs ▸ List.mem_map_of_mem hid
        obtain ⟨x, hx, heq⟩ := List.mem_map.1 hmem
        rw [← heq]
        rcases List.mem_cons.1 hx with rfl | hx
        · rfl
        · simpa using List.all_eq_true.1 hall x hx
      · cases h

/-- A handle is constant exactly if all its definitions, of which there are some, agree. -/
theorem constantOf_eq_some_iff : r.constantOf p i v = some c ↔
    r.analysis.definitions i v ≠ [] ∧
      ∀ id ∈ r.analysis.definitions i v, r.literalOf p id = some c := by
  refine ⟨constantOf_eq_some, fun ⟨hne, hall⟩ => ?_⟩
  have hmapM : (r.analysis.definitions i v).mapM (r.literalOf p) =
      some ((r.analysis.definitions i v).map fun _ => c) := by
    rw [Machine.listMapM_eq_some_iff, List.map_map]
    exact List.map_congr_left hall
  obtain ⟨id, ids, hids⟩ := List.exists_cons_of_ne_nil hne
  rw [constantOf, hmapM, hids]
  simp [common?]

/-- There is no constant where something that is not tracked may have set the handle. -/
theorem constantOf_of_unknown (h : unknown ∈ r.analysis.definitions i v) :
    r.constantOf p i v = none := by
  cases hc : r.constantOf p i v with
  | none => rfl
  | some c =>
    obtain ⟨j, _, _, _, hvalue, -⟩ := literalOf_eq_some ((constantOf_eq_some hc).2 _ h)
    cases hvalue

end Rewriter

/-! ## Decisions -/

/-- An analysis goes by the options, and takes for handles what the operations take for handles. -/
structure Analysis.Classifies (a : Analysis) (p : Program) (o : Options) : Prop where
  kinds : ∀ {i callee args}, i ∈ p.instructions a.func → (p.inst i).op = .call callee args →
    a.cls.kindOf i = o.kindOf callee
  handles : ∀ {i callee args x}, i ∈ p.instructions a.func → (p.inst i).op = .call callee args →
    x ∈ args.take (o.kindOf callee).handleArgs → x.isLiteral = false → a.cls.classOf x = .data

/-- What an arithmetic call does. -/
theorem Analysis.Arithmetic.action {p : Program} {o : Options} {a : Analysis} {i : InstId}
    {handle y z : Value} {w : World} {m : Machine} {act : Action} (h : a.Arithmetic p i handle y z)
    (ha : a.Classifies p o) (hact : m.action o w (p.inst i).op = some act) :
    ∃ g l r k x₁ x₂ result, m.eval w handle = some (.handle g) ∧ m.heap.objects[g]? = some k ∧
      m.eval w y = some (.handle l) ∧ m.heap.objects[l]? = some x₁ ∧
      m.eval w z = some (.handle r) ∧ m.heap.objects[r]? = some x₂ ∧
      act = .set g (if a.cls.kindOf i = .operation .add then x₁ + x₂ else x₁ - x₂) result := by
  obtain ⟨callee, rest, hop⟩ := h.op
  have hkind := ha.kinds h.mem hop
  rw [hop] at hact
  rcases h.kind with hk | hk
  · rw [hkind] at hk
    obtain ⟨xs, hxs, hacts⟩ := (Machine.action_operation hk).1 hact
    cases hacts with
    | add hg hl hr =>
      simp only [List.map_cons, List.cons.injEq] at hxs
      exact ⟨_, _, _, _, _, _, _, hxs.1, hg, hxs.2.1, hl, hxs.2.2.1, hr,
        by rw [hkind, hk, if_pos rfl]⟩
  · rw [hkind] at hk
    obtain ⟨xs, hxs, hacts⟩ := (Machine.action_operation hk).1 hact
    cases hacts with
    | subtract hg hl hr =>
      simp only [List.map_cons, List.cons.injEq] at hxs
      exact ⟨_, _, _, _, _, _, _, hxs.1, hg, hxs.2.1, hl, hxs.2.2.1, hr,
        by rw [hkind, hk, if_neg nofun]⟩

theorem ofInt_wrap64 (n : Int) : BitVec.ofInt 64 (wrap64 n) = BitVec.ofInt 64 n := by
  refine BitVec.eq_of_toInt_eq ?_
  rw [BitVec.toInt_ofInt, BitVec.toInt_ofInt]
  exact Int.bmod_bmod

theorem ofInt_sub (n k : Int) : BitVec.ofInt 64 (n - k) = BitVec.ofInt 64 n - BitVec.ofInt 64 k :=
  BitVec.eq_of_toInt_eq (by simp)

namespace Rewriting

open Machine

variable {p : Program} {o : Options} {a : Analysis} {names : Names} {φ : Fates}
  {ds : List InstId} {s : RewriteState} {w : World} {m : Machine} {i d r : InstId} {l : Literal}
  {rest : List InstId} {v : Value} {x : BitVec 64} {y : Datum} {act : Action} {c : Int} {g : Nat}
  (h : Rewriting p a names (Fate.Justified p o a.func) φ ds s)
include h

/-- What a dropped `read` has yielded is the literal. -/
theorem env_of_dropped (hm : Reaches p o w a.func m) (hx : φ r = .dropped l) :
    ∀ {y}, m.env r = some y → y = .int (.ofInt 64 l.value) := by
  refine hm.induction (P := fun m => ∀ {y}, m.env r = some y → y = .int (.ofInt 64 l.value)) ?_ ?_
  · intro m hs y hy
    obtain ⟨b, -, rfl⟩ := Option.map_eq_some_iff.1 hs
    cases hy
  · intro m n hreach ih hmove y hy
    cases hmove with
    | @act i rest act hrest hact =>
      by_cases hri : r = i
      · subst hri
        have hj := h.justified r (by simp [hx])
        rw [hx] at hj
        obtain rfl := hj hreach hrest hact
        have hy : (m.assign r _).env r = some y := hy
        rcases assign_env.1 hy with ⟨-, hy⟩ | ⟨hne, -⟩
        · exact hy.symm
        · exact absurd rfl hne
      · exact ih ((env_perform_of_ne act hri).symm.trans hy)
    | @jump i rest c targets b _ hrest hop ht hent =>
      obtain ⟨-, rfl⟩ := enter_eq_some hent
      dsimp only at hy
      split at hy
      · next hphi =>
        have hcall := Form.isPhi_of_isCall (h.isCall (i := r) (by simp [hx]))
        have hphi := (List.mem_filter.1 hphi).2
        rw [hcall] at hphi
        cases hphi
      · exact ih hy
    | ret => exact ih hy

/-- Operands keep their values. -/
theorem eval_subst (hm : Reaches p o w a.func m) (hy : m.eval w v = some y) :
    m.eval w ((φ.layout ds).subst v) = some y := by
  cases v with
  | inst r =>
    cases hx : φ r with
    | dropped l =>
      rw [Fates.subst_dropped hx, h.env_of_dropped hm hx hy]
      rfl
    | kept | written | copied =>
      rw [Fates.subst_of_literal?_eq_none (by rw [hx]; rfl)]
      exact hy
  | _ => exact hy

/-- What an operand that is a literal by now stands for. -/
theorem eval_of_literal (hm : Reaches p o w a.func m) (hl : (φ.layout ds).subst v = .literal l)
    (hy : m.eval w v = some y) : y = .int (.ofInt 64 l.value) := by
  have := h.eval_subst hm hy
  rw [hl] at this
  exact (Option.some.inj this).symm

/-- What an argument that is a literal by now stands for. -/
theorem arg_of_literal {args : List Value} {xs : List Datum} {k : Nat}
    (hm : Reaches p o w a.func m) (hxs : args.map (m.eval w) = xs.map some)
    (hl : (args.map (φ.layout ds).subst)[k]? = some (.literal l)) (hx : xs[k]? = some (.int x)) :
    x = .ofInt 64 l.value := by
  rw [List.getElem?_map, Option.map_eq_some_iff] at hl
  obtain ⟨v, hv, hl⟩ := hl
  have heval : (args.map (m.eval w))[k]? = some (m.eval w v) := by
    rw [List.getElem?_map, hv]; rfl
  rw [hxs, List.getElem?_map, hx] at heval
  exact Datum.int.inj (h.eval_of_literal hm hl (Option.some.inj heval).symm)

variable (ha : a.Classifies p o) (hp : p.Linked)
include ha hp

/-- A kept call with a literal in the place of the value sets its handle to the literal. -/
theorem sets_of_kept {callee : String} {args : List Value} (hd : d ∈ p.instructions a.func)
    (hx : φ d = .kept) (hop : (s.program.inst d).op = .call callee args)
    (hkind : s.rewriter.analysis.cls.kindOf d = .operation .create ∧
        args[0]? = some (.literal l) ∨
      s.rewriter.analysis.cls.kindOf d = .operation .write ∧ args[1]? = some (.literal l)) :
    Always p o a.func d fun _ _ act => ∀ {x}, act.Sets x → x = .ofInt 64 l.value := by
  intro w m rest act hm hrest hact x hsets
  rw [h.op_of_kept hd (.inl hx)] at hop
  cases hop' : (p.inst d).op with
  | call callee' args' =>
    rw [hop'] at hop hact
    obtain ⟨rfl, rfl⟩ := Form.call.inj hop
    rw [(h.kinds (hp.lt_size hd)).trans (ha.kinds hd hop')] at hkind
    rcases hkind with ⟨hk, hl⟩ | ⟨hk, hl⟩
    · obtain ⟨xs, hxs, hacts⟩ := (action_operation hk).1 hact
      cases hacts
      rcases hsets with heq | ⟨_, _, heq⟩ <;> cases heq
      exact h.arg_of_literal hm hxs hl rfl
    · obtain ⟨xs, hxs, hacts⟩ := (action_operation hk).1 hact
      cases hacts
      rcases hsets with heq | ⟨_, _, heq⟩ <;> cases heq
      exact h.arg_of_literal hm hxs hl rfl
  | _ => rw [hop'] at hop; cases hop

/-- The literal that a definition gives its handle is what it sets it to. -/
theorem sets_of_literalOf (hd : d ∈ p.instructions a.func)
    (hc : s.rewriter.literalOf s.program (a.idOf (.inst d)) = some c) :
    Always p o a.func d fun _ _ act => ∀ {x}, act.Sets x → x = .ofInt 64 c := by
  obtain ⟨d', callee, args, l, hvalue, hop, rfl, hkind⟩ := Rewriter.literalOf_eq_some hc
  obtain rfl : d' = d := by
    obtain ⟨kinds, hkinds⟩ := h.analysis
    rw [hkinds] at hvalue
    exact Value.inst.inj (Arena.eq_of_value?_idOf hvalue)
  rw [h.replaced] at hop hkind
  intro w m rest act hm hrest hact x hsets
  have hj := h.justified d'
  have hfits := h.fits d'
  cases hx : φ d' with
  | kept =>
    rw [hx] at hop hkind
    exact h.sets_of_kept ha hp hd hx hop hkind hm hrest hact hsets
  | dropped l' =>
    rw [hx] at hkind hfits
    have hk : s.rewriter.analysis.cls.kindOf d' = .operation .read :=
      (h.kinds (hp.lt_size hd)).trans hfits.kind
    rcases hkind with ⟨hk', -⟩ | ⟨hk', -⟩
    · cases hk.symm.trans hk'
    · cases hk.symm.trans hk'
  | written w' l' =>
    rw [hx] at hop hkind hfits hj
    obtain ⟨handle, y, z, -, hcalls⟩ := hfits
    obtain ⟨rfl, rfl⟩ := Form.call.inj (hcalls.op.symm.trans hop)
    obtain ⟨g, _, rfl⟩ := hj nofun hm hrest hact
    rcases hkind with ⟨hk, -⟩ | ⟨-, hl⟩
    · cases hcalls.kind.symm.trans hk
    · cases hl
      rcases hsets with heq | ⟨_, _, heq⟩ <;> cases heq
      rfl
  | copied r w' u =>
    rw [hx] at hop hkind hfits
    obtain ⟨handle, y, z, -, -, -, hcalls⟩ := hfits
    obtain ⟨rfl, rfl⟩ := Form.call.inj (hcalls.op.symm.trans hop)
    rcases hkind with ⟨hk, -⟩ | ⟨-, hl⟩
    · cases hcalls.kind.symm.trans hk
    · cases hl

/-- What all definitions of a value agree on is what the object holds, if they include what has set
it last. -/
theorem eq_of_mem_definitions (hm : Reaches p o w a.func m) (hx : m.heap.objects[g]? = some x)
    (hmem : (m.setter g).elim unknown (fun d => a.idOf (.inst d)) ∈ a.definitions i v)
    (hc : s.rewriter.constantOf s.program i v = some c) : x = .ofInt 64 c := by
  obtain ⟨-, hall⟩ := Rewriter.constantOf_eq_some hc
  obtain ⟨kinds, hkinds⟩ := h.analysis
  have hdefs : s.rewriter.analysis.definitions i v = a.definitions i v := by rw [hkinds]; rfl
  rw [hdefs] at hall
  cases hset : m.setter g with
  | none =>
    rw [hset] at hmem
    obtain ⟨d, _, _, _, hvalue, -⟩ := Rewriter.literalOf_eq_some (hall _ hmem)
    cases hvalue
  | some d =>
    rw [hset] at hmem
    obtain ⟨k, rest', act, hk, hkrest, hact, hsets⟩ := reaches_setBy hm hset hx
    exact h.sets_of_literalOf ha hp (mem_instructions_of_reaches hp hk hkrest) (hall _ hmem) hk
      hkrest hact hsets

/-! ## Everything decided is justified -/

/-- A value less itself is zero. -/
theorem justified_cancelled {handle y z : Value} (harith : a.Arithmetic p i handle y z)
    (write : InstId) (hcomes : s.rewriter.Comes s.program i ((φ.layout ds).subst y)
      ((φ.layout ds).subst z) .cancelled) (hl : l.value = 0) :
    Fate.Justified p o a.func i (.written write l) := by
  intro w m rest act hm hrest hact
  obtain ⟨g, _, _, _, x₁, x₂, result, -, -, hy, hx₁, hz, hx₂, rfl⟩ := harith.action ha hact
  obtain ⟨hadd, hsame⟩ := hcomes
  rw [h.kinds (hp.lt_size harith.mem)] at hadd
  cases (h.eval_subst hm hy).symm.trans (hsame ▸ h.eval_subst hm hz)
  obtain rfl : x₁ = x₂ := Option.some.inj (hx₁.symm.trans hx₂)
  exact ⟨g, result, by simp [hadd, hl]⟩

variable (hprog : a.program = p) (ht : a.Truthful o)
include hprog ht

/-- A constant handle holds the constant. -/
theorem eq_of_constantOf {callee : String} {args : List Value} (hi : i ∈ p.instructions a.func)
    (hop : (p.inst i).op = .call callee args) (hmem : v ∈ args.take (o.kindOf callee).handleArgs)
    (hc : s.rewriter.constantOf s.program i ((φ.layout ds).subst v) = some c)
    (hm : Reaches p o w a.func m) (hrest : m.rest = i :: rest)
    (hy : m.eval w v = some (.handle g)) (hx : m.heap.objects[g]? = some x) :
    x = .ofInt 64 c := by
  have hsubst : (φ.layout ds).subst v = v := by
    rcases (φ.layout ds).subst_cases v with h' | ⟨l, h'⟩
    · exact h'
    · cases h.eval_of_literal hm h' hy
  have hclass : a.cls.classOf v = .data := by
    refine ha.handles hi hop hmem ?_
    cases v with
    | literal l => cases hy
    | _ => rfl
  rw [hsubst] at hc
  have hbefore : i ∈ a.before := by
    by_contra hnot
    obtain ⟨kinds, hkinds⟩ := h.analysis
    refine (Rewriter.constantOf_eq_some hc).1 ?_
    rw [hkinds]
    exact Analysis.definitions_eq_nil (a := a) hnot
  refine h.eq_of_mem_definitions ha hp hm hx ?_ hc
  subst hprog
  exact ht hm hrest hbefore (by rw [hop]; exact List.mem_of_mem_take hmem) hclass hy

/-- A constant `read` yields the constant. -/
theorem justified_dropped (hx : φ i = .kept) (hread : a.Reading p i)
    (hconst : (s.program.inst i).op.operands.head?.bind (s.rewriter.constantOf s.program i) =
      some l.value) : Fate.Justified p o a.func i (.dropped l) := by
  intro w m rest act hm hrest hact
  obtain ⟨callee, args, hop⟩ : ∃ callee args, (p.inst i).op = .call callee args := by
    have := hread.call
    cases hop : (p.inst i).op with
    | call callee args => exact ⟨callee, args, rfl⟩
    | _ => rw [hop] at this; cases this
  have hk : o.kindOf callee = .operation .read := (ha.kinds hread.mem hop).symm.trans hread.kind
  rw [h.op_of_kept hread.mem (.inl hx), hop] at hconst
  rw [hop] at hact
  obtain ⟨xs, hxs, hacts⟩ := (Machine.action_operation hk).1 hact
  cases hacts with
  | @read g x hg =>
    obtain ⟨v, rfl⟩ : ∃ v, args = [v] :=
      List.length_eq_one_iff.1 (by simpa using congrArg List.length hxs)
    have hmem : v ∈ [v].take (o.kindOf callee).handleArgs := by rw [hk]; exact List.mem_cons_self
    rw [h.eq_of_constantOf ha hp hprog ht hread.mem hop hmem hconst hm hrest
      (List.cons.inj hxs).1 hg]

variable {handle u z : Value} (harith : a.Arithmetic p i handle u z)
include harith

/-- A constant operand of an arithmetic call holds the constant. -/
theorem eq_of_constant_operand (hv : v = u ∨ v = z)
    (hc : s.rewriter.constantOf s.program i ((φ.layout ds).subst v) = some c)
    (hm : Reaches p o w a.func m) (hrest : m.rest = i :: rest)
    (hg : m.eval w v = some (.handle g)) (hx : m.heap.objects[g]? = some x) : x = .ofInt 64 c := by
  obtain ⟨callee, args, hop⟩ := harith.op
  refine h.eq_of_constantOf ha hp hprog ht harith.mem hop ?_ hc hm hrest hg hx
  rw [← ha.kinds harith.mem hop]
  rcases harith.kind with hk | hk <;> rw [hk] <;> exact List.mem_cons_of_mem _ (by simpa using hv)

/-- Two constants come to their sum or difference. -/
theorem justified_constant (write : InstId) {n : Int} (hcomes : s.rewriter.Comes s.program i
      ((φ.layout ds).subst u) ((φ.layout ds).subst z) (.constant n)) (hl : l.value = n) :
    Fate.Justified p o a.func i (.written write l) := by
  intro w m rest act hm hrest hact
  obtain ⟨g, _, _, _, x₁, x₂, result, -, -, hu, hx₁, hz, hx₂, rfl⟩ := harith.action ha hact
  obtain ⟨c₁, c₂, hc₁, hc₂, rfl⟩ := hcomes
  obtain rfl :=
    h.eq_of_constant_operand ha hp hprog ht harith (.inl rfl) hc₁ hm hrest hu hx₁
  obtain rfl :=
    h.eq_of_constant_operand ha hp hprog ht harith (.inr rfl) hc₂ hm hrest hz hx₂
  refine ⟨g, result, ?_⟩
  rw [hl, ofInt_wrap64, h.kinds (hp.lt_size harith.mem)]
  split
  · rw [BitVec.ofInt_add]
  · rw [ofInt_sub]

/-- What zero is added to is the result: the operand copied is that one, or holds the same
handle. -/
theorem justified_copied (read write : InstId) (hcomes : s.rewriter.Comes s.program i
      ((φ.layout ds).subst u) ((φ.layout ds).subst z) (.copied ((φ.layout ds).subst v)))
    (hv : v = u ∨ v = z) : Fate.Justified p o a.func i (.copied read write v) := by
  intro w m rest act hm hrest hact
  obtain ⟨g, n₁, n₂, _, x₁, x₂, result, -, -, hu, hx₁, hz, hx₂, rfl⟩ := harith.action ha hact
  obtain ⟨hadd, hcomes⟩ := hcomes
  rw [h.kinds (hp.lt_size harith.mem)] at hadd
  rw [if_pos hadd]
  have hsame {v v' : Value} {n n' : Nat} (heq : (φ.layout ds).subst v = (φ.layout ds).subst v')
      (hn : m.eval w v = some (.handle n)) (hn' : m.eval w v' = some (.handle n')) :
      m.eval w v = some (.handle n') := by
    cases (h.eval_subst hm hn).symm.trans (heq ▸ h.eval_subst hm hn')
    exact hn
  rcases hcomes with ⟨hc, heq⟩ | ⟨hc, heq⟩
  · obtain rfl :=
      h.eq_of_constant_operand ha hp hprog ht harith (.inl rfl) hc hm hrest hu hx₁
    refine ⟨g, n₂, x₂, result, ?_, hx₂, by simp⟩
    rcases hv with rfl | rfl
    · exact hsame heq hu hz
    · exact hz
  · obtain rfl :=
      h.eq_of_constant_operand ha hp hprog ht harith (.inr rfl) hc hm hrest hz hx₂
    refine ⟨g, n₁, x₁, result, ?_, hx₁, by simp⟩
    rcases hv with rfl | rfl
    · exact hu
    · exact hsame heq hz hu

end Rewriting

namespace Analysis

variable {p : Program} {o : Options} {a : Analysis}

/-- What has to be constant for the outcome of an arithmetic call. -/
theorem Arithmetic.comes {names : Names} {J : InstId → Fate → Prop} {φ : Fates}
    {ds : List InstId} {s : RewriteState} {i : InstId} {handle y z : Value}
    {outcome : Rewriter.Outcome} (harith : a.Arithmetic p i handle y z)
    (h : Rewriting p a names J φ ds s) (hx : φ i = .kept)
    (ho : s.rewriter.outcome? s.program i = some outcome) :
    s.rewriter.Comes s.program i ((φ.layout ds).subst y) ((φ.layout ds).subst z) outcome := by
  obtain ⟨callee, rest, hop⟩ := harith.op
  obtain ⟨_, _, left, right, _, hop', hcomes⟩ := Rewriter.outcome?_eq_some ho
  rw [h.op_of_kept harith.mem (.inl hx), hop] at hop'
  cases hop'
  exact hcomes

/-- Truthful facts justify what is decided by them. -/
theorem Truthful.sanctions (ht : a.Truthful o) (hp : p.Linked) (ha : a.Classifies p o)
    (hprog : a.program = p) (names : Names) :
    Sanctions p a names (Fate.Justified p o a.func) where
  reading h hx hread hconst := h.justified_dropped ha hp hprog ht hx hread hconst
  arithmetic h hx harith ho hbrings := by
    have hcomes := harith.comes h hx ho
    cases hbrings with
    | @cancelled write l hl =>
      intro w m rest act
      exact h.justified_cancelled ha hp harith write hcomes hl
    | @constant write l n hl =>
      intro w m rest act
      exact h.justified_constant ha hp hprog ht harith write hcomes hl
    | @copied read write v hv =>
      intro w m rest act
      exact h.justified_copied ha hp hprog ht harith read write hcomes hv

end Analysis

end BoxFlow
