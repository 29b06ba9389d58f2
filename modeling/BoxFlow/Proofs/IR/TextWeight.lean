import BoxFlow.Classification
import BoxFlow.IR.Edit
import BoxFlow.Proofs.Lists

/-!
# What a text weighs

A text weighs as much as it has opening parentheses with at least two commas before the next closing
one. If names are plain, a call of three or more arguments weighs one, and any other instruction
nothing (`Program.PlainInst.weight_instText`); and an instruction is written on one line
(`Program.PlainInst.newline_not_mem`).
-/

namespace BoxFlow

/-! ## Texts -/

def weight : List Char → Nat
  | [] => 0
  | c :: s => (if c = '(' ∧ 2 ≤ (s.takeWhile (· ≠ ')')).count ',' then 1 else 0) + weight s

variable {l s t : List Char} {a b : String}

theorem weight_append (h : '(' ∉ l) (s : List Char) : weight (l ++ s) = weight s := by
  induction l with
  | nil => rfl
  | cons c l ih =>
    rw [List.mem_cons, not_or] at h
    rw [List.cons_append, weight, ih h.2, if_neg fun hc => h.1 hc.1.symm, Nat.zero_add]

theorem takeWhile_append_close (u w : List Char) :
    (u ++ ')' :: w).takeWhile (· ≠ ')') = u.takeWhile (· ≠ ')') := by
  induction u with
  | nil => simp
  | cons d u ih =>
    rw [List.cons_append, List.takeWhile_cons, List.takeWhile_cons, ih]

/-- What follows a text in which every parenthesis has been closed does not matter to it. -/
theorem weight_append_closed (u v s : List Char) (hv : '(' ∉ v) :
    weight (u ++ ')' :: (v ++ s)) = weight (u ++ ')' :: v) + weight s := by
  induction u with
  | nil =>
    have hnil := weight_append hv []
    rw [List.append_nil] at hnil
    simp [weight, weight_append hv, hnil]
  | cons c u ih =>
    rw [List.cons_append, List.cons_append, weight, weight, ih, takeWhile_append_close,
      takeWhile_append_close, Nat.add_assoc]

/-- Parentheses around a text without any. -/
theorem weight_parens (hopen : '(' ∉ l) (hclose : ')' ∉ l) (s : List Char) :
    weight ('(' :: (l ++ ')' :: s)) = (if 2 ≤ l.count ',' then 1 else 0) + weight s := by
  have htake : (l ++ ')' :: s).takeWhile (· ≠ ')') = l := by
    rw [List.takeWhile_append_of_pos fun c hc => ?_]
    · simp
    · have hne : c ≠ ')' := fun h => hclose (h ▸ hc)
      simpa using hne
  rw [weight, htake, weight_append hopen]
  simp [weight]

/-! ## Plain texts -/

/-- The text has neither a line break, nor a comma, nor a parenthesis. -/
def IsPlain (a : String) : Prop := ∀ c ∈ ['\n', ',', '(', ')'], c ∉ a.toList

instance : DecidablePred IsPlain := fun a => List.decidableBAll (fun c => c ∉ a.toList) _

theorem IsPlain.append (ha : IsPlain a) (hb : IsPlain b) : IsPlain (a ++ b) := fun c hc => by
  rw [String.toList_append, List.mem_append, not_or]
  exact ⟨ha c hc, hb c hc⟩

theorem isPlain_type (ty : Ty) : IsPlain ty.name := by
  cases ty <;> decide

theorem isPlain_nat (n : Nat) : IsPlain (toString n) := fun c hc hmem => by
  rw [Nat.toString_eq_ofList_toDigits, String.toList_ofList] at hmem
  have hdigit := Nat.isDigit_of_mem_toDigits (by decide) (by decide) hmem
  simp only [List.mem_cons, List.not_mem_nil, or_false] at hc
  rcases hc with rfl | rfl | rfl | rfl <;> cases hdigit

theorem isPlain_int (n : Int) : IsPlain (toString n) := by
  cases n with
  | ofNat n => exact isPlain_nat n
  | negSucc n => exact IsPlain.append (a := "-") (by decide) (isPlain_nat (n + 1))

theorem isPlain_numbered (ha : IsPlain a) (n : Nat) : IsPlain (Program.numbered a n) := by
  cases n with
  | zero => exact ha
  | succ n => exact (ha.append (b := ".") (by decide)).append (isPlain_nat _)

/-- Arguments without a comma of their own have one between every two. -/
theorem count_comma_args {args : List String} (h : ∀ x ∈ args, IsPlain x) :
    (", ".intercalate args).toList.count ',' = args.length - 1 := by
  have hzero {x : String} (hx : IsPlain x) : x.toList.count ',' = 0 :=
    List.count_eq_zero.2 (hx ',' (by simp))
  rw [String.toList_intercalate]
  cases args with
  | nil => rfl
  | cons x xs =>
    have htail (ys : List String) (hys : ∀ y ∈ ys, IsPlain y) :
        ((ys.map String.toList).flatMap (", ".toList ++ ·)).count ',' = ys.length := by
      induction ys with
      | nil => rfl
      | cons y ys ih =>
        rw [List.map_cons, List.flatMap_cons, List.count_append, List.count_append,
          hzero (hys y List.mem_cons_self), ih fun z hz => hys z (List.mem_cons_of_mem _ hz)]
        exact Nat.add_comm ..
    rw [List.map_cons, intercalate_cons, List.count_append, hzero (h x List.mem_cons_self),
      htail xs fun y hy => h y (List.mem_cons_of_mem _ hy)]
    simp

theorem not_mem_commas {args : List String} {c : Char} (hsep : c ∉ ", ".toList)
    (h : ∀ x ∈ args, c ∉ x.toList) : c ∉ (", ".intercalate args).toList := by
  rw [String.toList_intercalate]
  intro hmem
  rcases mem_intercalate hmem with hmem | ⟨t, ht, hmem⟩
  · exact hsep hmem
  · obtain ⟨x, hx, rfl⟩ := List.mem_map.1 ht
    exact h x hx hmem

theorem not_mem_args {args : List String} (h : ∀ x ∈ args, IsPlain x) {c : Char}
    (hc : c ∈ ['\n', '(', ')']) : c ∉ (", ".intercalate args).toList := by
  refine not_mem_commas ?_ fun x hx => h x hx c ?_
  · simp only [List.mem_cons, List.not_mem_nil, or_false] at hc
    rcases hc with rfl | rfl | rfl <;> simp
  · exact List.mem_cons.2 ((List.mem_cons.1 hc).imp_right (List.mem_cons_of_mem _))

/-! ## Instructions -/

namespace Program

variable {p : Program} {i : InstId} {f : FuncId} {v : Value} {op : Op} {ty : Ty}

theorem isPlain_typedRef (h : IsPlain (p.ref v)) : IsPlain (p.typedRef v) :=
  ((isPlain_type _).append (b := " ") (by decide)).append h

/-- All that an operation is written with is plain. -/
structure PlainOp (p : Program) (op : Op) : Prop where
  operands : ∀ v ∈ op.operands, IsPlain (p.ref v)
  labels : ∀ b ∈ op.blocks, IsPlain (p.label b)
  callee : ∀ callee ∈ op.callee?, IsPlain callee

/-- An operation is written on one line, and without parentheses if it is no call. -/
theorem PlainOp.not_mem (h : p.PlainOp op) {c : Char}
    (hc : c = '\n' ∨ c = '(' ∧ op.isCall = false) : c ∉ (p.opText ty op).toList := by
  have hplain {a : String} (ha : IsPlain a) : c ∉ a.toList :=
    ha c (by rcases hc with rfl | ⟨rfl, -⟩ <;> simp)
  have htyped {v : Value} (hv : v ∈ op.operands) : c ∉ (p.typedRef v).toList :=
    hplain (isPlain_typedRef (h.operands v hv))
  have hcommas {l : List String} (hl : ∀ a ∈ l, c ∉ a.toList) :
      c ∉ (", ".intercalate l).toList :=
    not_mem_commas (by rcases hc with rfl | ⟨rfl, -⟩ <;> simp) hl
  cases op with
  | alloca cell =>
    have hcell := hplain (isPlain_type cell)
    rcases hc with rfl | ⟨rfl, -⟩ <;> simp [opText, hcell]
  | load x =>
    have hty := hplain (isPlain_type ty)
    have hx := htyped (v := x) (by simp [Form.operands])
    rcases hc with rfl | ⟨rfl, -⟩ <;> simp [opText, hty, hx]
  | store x y =>
    have hx := htyped (v := x) (by simp [Form.operands])
    have hy := htyped (v := y) (by simp [Form.operands])
    rcases hc with rfl | ⟨rfl, -⟩ <;> simp [opText, hx, hy]
  | phi incoming =>
    have hty := hplain (isPlain_type ty)
    have htext : p.opText ty (.phi incoming) = "phi " ++ ty.name ++ " " ++
        ", ".intercalate (incoming.map fun x =>
          "[ " ++ p.ref x.1 ++ ", %" ++ p.label x.2 ++ " ]") := rfl
    rw [htext]
    have hargs := hcommas (l := incoming.map fun x =>
      "[ " ++ p.ref x.1 ++ ", %" ++ p.label x.2 ++ " ]") fun a ha => by
        obtain ⟨⟨x, b⟩, hmem, rfl⟩ := List.mem_map.1 ha
        have hx := hplain (h.operands x (List.mem_map_of_mem (f := Prod.fst) hmem))
        have hb := hplain (h.labels b (List.mem_map_of_mem (f := Prod.snd) hmem))
        rcases hc with rfl | ⟨rfl, -⟩ <;> simp [hx, hb]
    rcases hc with rfl | ⟨rfl, -⟩ <;> simp [-String.toList_intercalate, hty, hargs]
  | select x y z =>
    have hx := htyped (v := x) (by simp [Form.operands])
    have hy := htyped (v := y) (by simp [Form.operands])
    have hz := htyped (v := z) (by simp [Form.operands])
    rcases hc with rfl | ⟨rfl, -⟩ <;> simp [opText, hx, hy, hz]
  | call callee args =>
    obtain rfl : c = '\n' := hc.resolve_right (by simp [Form.isCall])
    have hty := hplain (isPlain_type ty)
    have hcallee := hplain (h.callee callee rfl)
    have hargs := hcommas (l := args.map p.typedRef) fun a ha => by
      obtain ⟨u, hu, rfl⟩ := List.mem_map.1 ha
      exact htyped hu
    simp [-String.toList_intercalate, opText, hty, hcallee, hargs]
  | br x targets =>
    have hlabels := hcommas (l := targets.map fun b => "label %" ++ p.label b) fun a ha => by
      obtain ⟨b, hb, rfl⟩ := List.mem_map.1 ha
      have hb := hplain (h.labels b hb)
      rcases hc with rfl | ⟨rfl, -⟩ <;> simp [hb]
    cases x with
    | none => rcases hc with rfl | ⟨rfl, -⟩ <;> simp [-String.toList_intercalate, opText, hlabels]
    | some x =>
      have hx := htyped (v := x) (by simp [Form.operands])
      rcases hc with rfl | ⟨rfl, -⟩ <;> simp [-String.toList_intercalate, opText, hx, hlabels]
  | ret x =>
    cases x with
    | none => rcases hc with rfl | ⟨rfl, -⟩ <;> simp [opText]
    | some x =>
      have hx := htyped (v := x) (by simp [Form.operands])
      rcases hc with rfl | ⟨rfl, -⟩ <;> simp [opText, hx]
  | unreachable => rcases hc with rfl | ⟨rfl, -⟩ <;> simp [opText]

/-- An operation that weighs something. -/
def isHeavy : Op → Bool
  | .call _ args => 3 ≤ args.length
  | _ => false

theorem isHeavy_map (g : Value → Value) (op : Op) : isHeavy (op.map g id) = isHeavy op := by
  cases op <;> simp [isHeavy, Form.map]

theorem PlainOp.weight_opText (h : p.PlainOp op) (s : List Char) :
    weight ((p.opText ty op).toList ++ s) = weight s + if isHeavy op then 1 else 0 := by
  cases hcall : op.isCall with
  | false =>
    rw [weight_append (h.not_mem (.inr ⟨rfl, hcall⟩))]
    cases op <;> first | rfl | cases hcall
  | true =>
    cases op with
    | call callee args =>
      have hargs : ∀ a ∈ args.map p.typedRef, IsPlain a := fun a ha => by
        obtain ⟨u, hu, rfl⟩ := List.mem_map.1 ha
        exact isPlain_typedRef (h.operands u hu)
      have hhead : '(' ∉ ("call " ++ ty.name ++ " @" ++ callee).toList := by
        have hty := isPlain_type ty '(' (by simp)
        have hcallee := h.callee callee rfl '(' (by simp)
        simp [hty, hcallee]
      have heq : (p.opText ty (.call callee args)).toList ++ s =
          ("call " ++ ty.name ++ " @" ++ callee).toList ++
            '(' :: ((", ".intercalate (args.map p.typedRef)).toList ++ ')' :: s) := by
        simp [opText]
      rw [heq, weight_append hhead, weight_parens (not_mem_args hargs (by simp))
        (not_mem_args hargs (by simp)), count_comma_args hargs, List.length_map, Nat.add_comm]
      simp only [isHeavy, decide_eq_true_eq]
      congr 2
      exact propext (by omega)
    | _ => cases hcall

/-- All that instruction `i` is written with is plain. -/
structure PlainInst (p : Program) (i : InstId) : Prop extends p.PlainOp (p.inst i).op where
  result : IsPlain (p.ref (.inst i))

theorem PlainInst.newline_not_mem (h : p.PlainInst i) : '\n' ∉ (p.instText i).toList := by
  have hop : '\n' ∉ (p.opText (p.inst i).ty (p.inst i).op).toList := h.not_mem (.inl rfl)
  have hresult := h.result '\n' (by simp)
  unfold instText
  dsimp only
  split <;> simp [hop, hresult]

theorem PlainInst.weight_instText (h : p.PlainInst i) (s : List Char) :
    weight ((p.instText i).toList ++ s) =
      weight s + if isHeavy (p.inst i).op then 1 else 0 := by
  have hresult := h.result '(' (by simp)
  have hhead : '(' ∉ (if (p.inst i).hasResult then p.ref (.inst i) ++ " = " else "").toList := by
    split <;> simp [hresult]
  rw [instText, String.toList_append, List.append_assoc, weight_append hhead, h.weight_opText]

/-- The names in function `f` are plain: those of the values that it mentions, of its blocks and of
the blocks that it branches to, and of what it calls. -/
structure PlainFunc (p : Program) (f : FuncId) : Prop where
  insts : ∀ i ∈ p.instructions f, p.PlainInst i
  blocks : ∀ b ∈ (p.func f).blocks, IsPlain (p.label b)

end Program

end BoxFlow
