import Mathlib.Logic.Relation
import BoxFlow.Proofs.Dataflow.Rules

/-!
# The effect of an instruction

`View.effect` says what an instruction does to the knowledge before it: the rules of
`View.transfer` without the order in which their sets are walked through. On facts with
well-formed aliases the two agree (`View.knowledge_transfer`); what later modules prove about the
analysis they prove about effects.
-/

namespace BoxFlow

open Relation (ReflTransGen)

namespace Knowledge

variable (k : Knowledge) (c : Classification)

/-- A way through cells that hold cells. -/
def Reaches : Id → Id → Prop :=
  ReflTransGen fun p q => q ∈ k.pointsTo p ∧ q ≠ unknown ∧ c.classOfId q = .pointer

/-- The handles that can be reached from a cell, and `unknown` if a cell on the way may hold
something that is not tracked. -/
def reachableData (p : Id) : Set Id :=
  {m | ∃ q, k.Reaches c p q ∧ m ∈ k.pointsTo q ∧ (m = unknown ∨ c.classOfId m = .data)}

end Knowledge

/-- The rules of the analysis, each with the operands it goes by. -/
inductive Rule
  /-- Nothing changes. -/
  | keep
  | phi (incoming : List (Value × BlockId))
  | select (ifTrue ifFalse : Value)
  /-- The instruction makes a cell. -/
  | cell
  | store (value pointer : Value)
  | load (pointer : Value)
  /-- The instruction makes a handle. -/
  | handle
  /-- The instruction sets a handle. -/
  | set (handle : Value)
  /-- The instruction does to its arguments what the oracle allows. -/
  | call (args : List Value)

namespace View

variable (v : View) (i : InstId) (k : Knowledge)

/-- The rule for an instruction. -/
def rule : Rule :=
  match (v.program.inst i).op with
  | .phi incoming => .phi incoming
  | .select _ t e => .select t e
  | .alloca _ => if v.cls.classOf (.inst i) = .pointer then .cell else .keep
  | .store value pointer => if v.cls.classOf pointer = .pointer then .store value pointer else .keep
  | .load pointer => if v.cls.classOf pointer = .pointer then .load pointer else .keep
  | .call _ args =>
    match v.cls.kindOf i, args with
    | .operation .create, _ => .handle
    | .opaqueCall, _ => .call args
    | kind, handle :: _ =>
      if kind.definesFirst && v.cls.classOf handle = .data then .set handle else .keep
    | _, [] => .keep
  | _ => .keep

/-- What a rule says about the instruction it is for. -/
def Fits : Rule → Prop
  | .keep => True
  | .phi incoming => (v.program.inst i).op = .phi incoming
  | .select t e => ∃ c, (v.program.inst i).op = .select c t e
  | .cell => (∃ ty, (v.program.inst i).op = .alloca ty) ∧ v.cls.classOf (.inst i) = .pointer
  | .store value pointer =>
    (v.program.inst i).op = .store value pointer ∧ v.cls.classOf pointer = .pointer
  | .load pointer => (v.program.inst i).op = .load pointer ∧ v.cls.classOf pointer = .pointer
  | .handle => (∃ callee args, (v.program.inst i).op = .call callee args) ∧
      v.cls.kindOf i = .operation .create
  | .set handle => (∃ callee args, (v.program.inst i).op = .call callee (handle :: args)) ∧
      (v.cls.kindOf i).definesFirst = true ∧ v.cls.classOf handle = .data
  | .call args => (∃ callee, (v.program.inst i).op = .call callee args) ∧
      v.cls.kindOf i = .opaqueCall

variable {v i} in
theorem rule_fits : v.Fits i (v.rule i) := by
  unfold rule
  cases hop : (v.program.inst i).op with
  | phi incoming => exact hop
  | select c t e => exact ⟨c, hop⟩
  | alloca ty =>
    dsimp only
    split
    · exact ⟨⟨ty, hop⟩, by assumption⟩
    · trivial
  | store value pointer | load pointer =>
    dsimp only
    split
    · exact ⟨hop, by assumption⟩
    · trivial
  | call callee args =>
    dsimp only
    split
    · exact ⟨⟨callee, _, hop⟩, by assumption⟩
    · exact ⟨⟨callee, hop⟩, by assumption⟩
    · split
      · next h =>
        simp only [Bool.and_eq_true, decide_eq_true_eq] at h
        exact ⟨⟨callee, _, hop⟩, h⟩
      · trivial
    · trivial
  | br | ret | unreachable => trivial

/-- A merge of numbered values, each with what is known where it comes from. -/
def mergeEffect (sources : Set (Id × Knowledge)) : Knowledge :=
  match v.cls.classOf (.inst i) with
  | .irrelevant => k
  | c =>
    (k.relink (v.idOf (.inst i)) {m | ∃ q ∈ sources, m ∈ q.2.aliases q.1}).describe
      (v.idOf (.inst i)) c {m | ∃ q ∈ sources, m ∈ q.2.tableOf c q.1}

/-- The numbered values a phi may take, each with what is known at the end of its block. -/
def phiSources (incoming : List (Value × BlockId)) : Set (Id × Knowledge) :=
  {q | ∃ x b e, (x, b) ∈ incoming ∧ v.cls.arena.find x = some q.1 ∧ v.exits[b]? = some e ∧
    q.2 = e.knowledge}

/-- The numbered values among those a select may take. -/
def selectSources (t e : Value) : Set (Id × Knowledge) :=
  {q | (v.cls.arena.find t = some q.1 ∨ v.cls.arena.find e = some q.1) ∧ q.2 = k}

/-- What describes the value that a cell with the given content yields. -/
def loaded (c : ValueClass) (pointees : Set Id) : Set Id :=
  {m | m = unknown ∧ unknown ∈ pointees ∨
    ∃ j ∈ pointees, j ≠ unknown ∧ v.cls.classOfId j = c ∧ m ∈ k.tableOf c j}

/-- What is known once the result of a load is linked and described. -/
def loadedEffect (pointer : Value) : Knowledge :=
  let pointees := k.pointsTo (v.idOf pointer)
  let linked := k.relink (v.idOf (.inst i)) {m | ∃ j ∈ pointees, j ≠ unknown ∧ m ∈ k.aliases j}
  match v.cls.classOf (.inst i) with
  | .irrelevant => linked
  | c => linked.describe (v.idOf (.inst i)) c (v.loaded k c pointees)

def loadEffect (pointer : Value) : Knowledge :=
  let out := v.loadedEffect i k pointer
  { out with pointsTo := fun x => {m |
      m ∈ out.pointsTo x ∧ ¬(x = v.idOf pointer ∧ m = unknown) ∨
        x ∈ k.aliases (v.idOf pointer) ∧ m = v.idOf (.inst i)} }

/-- The cells among the arguments of a call. -/
def pointerSet (args : List Value) : Set Id :=
  {p | ∃ a ∈ args, v.cls.classOf a = .pointer ∧ v.idOf a = p}

/-- The handles that a call gets. -/
def dataSet (args : List Value) : Set Id :=
  {m | ∃ a ∈ args, v.cls.classOf a = .data ∧ v.idOf a = m ∨
    v.cls.classOf a = .pointer ∧ m ∈ k.reachableData v.cls (v.idOf a)}

/-- The handles that a call gets and may set. -/
def modified (args : List Value) : Set Id :=
  {j | j ∈ v.dataSet k args ∧ j ≠ unknown ∧ v.mayModify i j = true}

/-- What a call may do to the handles and cells it gets. -/
def touch (args : List Value) : Knowledge :=
  { k with
    defs := fun x => {m | m = unknown ∧ (∃ j ∈ v.modified i k args, x ∈ k.aliases j) ∨
      x ∉ v.modified i k args ∧ m ∈ k.defs x}
    pointsTo := fun x => {m | m ∈ k.pointsTo x ∨
      (∃ p ∈ v.pointerSet args, v.mayModify i p = true ∧ x ∈ k.aliases p) ∧
        m ∈ v.dataSet k args} }

/-- The numbers that the result of a call of a class may be. -/
def resultSources (c : ValueClass) (args : List Value) : Set Id :=
  {q | q ≠ unknown ∧ q ∈ match c with
    | .data => v.dataSet k args
    | _ => v.pointerSet args}

def opaqueEffect (args : List Value) : Knowledge :=
  let out := v.touch i k args
  match v.cls.classOf (.inst i) with
  | .irrelevant => out
  | c =>
    let sources := v.resultSources k c args
    (out.relink (v.idOf (.inst i)) {m | ∃ q ∈ sources, m ∈ k.aliases q}).describe
      (v.idOf (.inst i)) c {m | m = unknown ∨ ∃ q ∈ sources, m ∈ out.tableOf c q}

/-- What is known after an instruction. -/
def effect : Knowledge :=
  match v.rule i with
  | .keep => k
  | .phi incoming => v.mergeEffect i k (v.phiSources incoming)
  | .select t e => v.mergeEffect i k (v.selectSources k t e)
  | .cell => (k.relink (v.idOf (.inst i)) ∅).describe (v.idOf (.inst i)) .pointer ∅
  | .store value pointer => k.overwrite (v.idOf pointer) (v.idOf value)
  | .load pointer => v.loadEffect i k pointer
  | .handle => (k.relink (v.idOf (.inst i)) ∅).define (v.idOf (.inst i)) (v.idOf (.inst i))
  | .set handle => k.define (v.idOf handle) (v.idOf (.inst i))
  | .call args => v.opaqueEffect i k args

/-! ## The effect of each form -/

variable {v i k} {callee : String} {args : List Value} {handle : Value}

theorem effect_phi {incoming : List (Value × BlockId)}
    (hop : (v.program.inst i).op = .phi incoming) :
    v.effect i k = v.mergeEffect i k (v.phiSources incoming) := by
  simp only [effect, rule, hop]

theorem effect_select {c t e : Value} (hop : (v.program.inst i).op = .select c t e) :
    v.effect i k = v.mergeEffect i k (v.selectSources k t e) := by
  simp only [effect, rule, hop]

theorem effect_alloca {ty : Ty} (hop : (v.program.inst i).op = .alloca ty)
    (hclass : v.cls.classOf (.inst i) = .pointer) : v.effect i k =
      (k.relink (v.idOf (.inst i)) ∅).describe (v.idOf (.inst i)) .pointer ∅ := by
  simp only [effect, rule, hop, if_pos hclass]

theorem effect_store {value pointer : Value} (hop : (v.program.inst i).op = .store value pointer)
    (hclass : v.cls.classOf pointer = .pointer) :
    v.effect i k = k.overwrite (v.idOf pointer) (v.idOf value) := by
  simp only [effect, rule, hop, if_pos hclass]

theorem effect_load {pointer : Value} (hop : (v.program.inst i).op = .load pointer)
    (hclass : v.cls.classOf pointer = .pointer) : v.effect i k = v.loadEffect i k pointer := by
  simp only [effect, rule, hop, if_pos hclass]

theorem effect_terminator (hop : (v.program.inst i).op.isTerminator = true) :
    v.effect i k = k := by
  unfold effect rule
  cases hform : (v.program.inst i).op <;> first | rfl | (rw [hform] at hop; cases hop)

/-! Calls -/

theorem rule_create (hop : (v.program.inst i).op = .call callee args)
    (hkind : v.cls.kindOf i = .operation .create) : v.rule i = .handle := by
  simp only [rule, hop, hkind]

theorem rule_opaqueCall (hop : (v.program.inst i).op = .call callee args)
    (hkind : v.cls.kindOf i = .opaqueCall) : v.rule i = .call args := by
  simp only [rule, hop, hkind]

/-- A call that sets its first argument, if that is a handle to the analysis. -/
theorem rule_of_definesFirst (hop : (v.program.inst i).op = .call callee (handle :: args))
    (hkind : (v.cls.kindOf i).definesFirst = true) :
    v.rule i = if v.cls.classOf handle = .data then .set handle else .keep := by
  unfold rule
  rw [hop]
  cases h : v.cls.kindOf i with
  | operation o => cases o <;> simp_all [CallKind.definesFirst]
  | _ => simp [h, CallKind.definesFirst] at hkind

/-- A call that neither makes nor sets a handle, nor is opaque. -/
theorem rule_of_keeping (hop : (v.program.inst i).op = .call callee args)
    (hcreate : v.cls.kindOf i ≠ .operation .create) (hforeign : v.cls.kindOf i ≠ .opaqueCall)
    (hsets : (v.cls.kindOf i).definesFirst = false) : v.rule i = .keep := by
  unfold rule
  simp only [hop]
  split
  · exact absurd (by assumption) hcreate
  · exact absurd (by assumption) hforeign
  · rw [hsets]; rfl
  · rfl

theorem effect_create (hop : (v.program.inst i).op = .call callee args)
    (hkind : v.cls.kindOf i = .operation .create) : v.effect i k =
      (k.relink (v.idOf (.inst i)) ∅).define (v.idOf (.inst i)) (v.idOf (.inst i)) := by
  rw [effect, rule_create hop hkind]

theorem effect_opaqueCall (hop : (v.program.inst i).op = .call callee args)
    (hkind : v.cls.kindOf i = .opaqueCall) : v.effect i k = v.opaqueEffect i k args := by
  rw [effect, rule_opaqueCall hop hkind]

theorem effect_of_definesFirst (hop : (v.program.inst i).op = .call callee (handle :: args))
    (hkind : (v.cls.kindOf i).definesFirst = true) : v.effect i k =
      if v.cls.classOf handle = .data then k.define (v.idOf handle) (v.idOf (.inst i)) else k := by
  rw [effect, rule_of_definesFirst hop hkind]
  by_cases hclass : v.cls.classOf handle = .data
  · rw [if_pos hclass, if_pos hclass]
  · rw [if_neg hclass, if_neg hclass]

theorem effect_of_keeping (hop : (v.program.inst i).op = .call callee args)
    (hcreate : v.cls.kindOf i ≠ .operation .create) (hforeign : v.cls.kindOf i ≠ .opaqueCall)
    (hsets : (v.cls.kindOf i).definesFirst = false) : v.effect i k = k := by
  rw [effect, rule_of_keeping hop hcreate hforeign hsets]

theorem effect_of_read (hop : (v.program.inst i).op = .call callee args)
    (hkind : v.cls.kindOf i = .operation .read) : v.effect i k = k :=
  effect_of_keeping hop (by simp [hkind]) (by simp [hkind]) (by simp [hkind, CallKind.definesFirst])

end View

end BoxFlow
