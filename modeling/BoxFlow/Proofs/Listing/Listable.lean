import BoxFlow.Loading

/-!
# Programs that can be written down

What a program has to be like for its text to be a listing of it (`Program.Listable`), and the
listing that it is then (`Program.items`).
-/

namespace BoxFlow

namespace Listing

/-- A word that can be a name. -/
def IsName (s : String) : Prop := s.toList ≠ [] ∧ ∀ c ∈ s.toList, isNameChar c = true

instance (s : String) : Decidable (IsName s) :=
  decidable_of_iff (s.toList ≠ [] ∧ s.toList.all isNameChar = true) (by rw [List.all_eq_true]; rfl)

/-! ## Places left out -/

/-- The line, wherever it is. -/
def Line.bare (l : Line) : Line := { l with left := 0 }

/-- The block, wherever it is. -/
def Block.bare (b : Block) : Block := { b with lines := b.lines.map Line.bare, left := 0 }

/-- The function, wherever it is. -/
def Function.bare (f : Function) : Function := { f with blocks := f.blocks.map Block.bare, left := 0 }

/-- The item, wherever it is. -/
def Item.bare : Item → Item
  | .function f => .function f.bare
  | item => item

end Listing

/-! ## What an instruction can be -/

/-- An instruction of that type can be written down: what has a result has a type, a branch has one
way to go or two, and a phi takes something. -/
def Form.Fits {V B : Type} (ty : Ty) : Form V B → Prop
  | .alloca _ => ty = .ptr
  | .load _ | .select .. => ty ≠ .void
  | .phi incoming => ty ≠ .void ∧ incoming ≠ []
  | .call .. => True
  | .br none targets => ty = .void ∧ targets.length = 1
  | .br (some _) targets => ty = .void ∧ targets.length = 2
  | .store .. | .ret _ | .unreachable => ty = .void

namespace Program

open Listing

variable (p : Program) (f : FuncId)

/-! ## The listing of a program -/

/-- A value as it is written. -/
def operandOf : Value → Operand
  | .literal l => .integer (l.value < 0) (Nat.toDigits 10 l.value.natAbs)
  | .param a => .named a.name
  | .global g => .global g.name
  | .inst i => .named ((p.inst i).name.getD "")

/-- A value as it is written with its type. -/
def typedOf (v : Value) : Typed := ⟨p.valueTy v, p.operandOf v⟩

/-- An operation of that type as it is written; the values of a phi have its type. -/
def formOf (ty : Ty) : Op → Form Typed String
  | .phi incoming => .phi (incoming.map fun (v, b) => (⟨ty, p.operandOf v⟩, p.label b))
  | op => op.map p.typedOf p.label

def lineOf (i : InstId) : Line where
  result := (p.inst i).name
  form := p.formOf (p.inst i).ty (p.inst i).op
  ty := (p.inst i).ty
  left := 0

def blockOf (b : BlockId) : Listing.Block where
  label := p.label b
  lines := (p.block b).insts.map p.lineOf
  left := 0

def functionOf (f : FuncId) : Listing.Function where
  name := (p.func f).name
  result := (p.func f).result
  params := (p.func f).params
  blocks := (p.func f).blocks.map p.blockOf
  left := 0

/-- What the text of the program lists. -/
def items : List Item :=
  p.globals.map (fun (_, g) => .global g.name g.cell) ++
    p.declarations.map (fun (name, result, params) => .declaration name result params) ++
    p.moduleFuncs.map fun f => .function (p.functionOf f)

/-! ## What it takes -/

/-- A value that an instruction of the function can refer to. -/
def Refers (f : FuncId) : Value → Prop
  | .literal l => (Nat.toDigits 10 l.value.natAbs).length ≤ Decimal.digitLimit
  | .param a => .param a ∈ p.params f
  | .global g => (g.name, g) ∈ p.globals
  | .inst j => j ∈ p.instructions f ∧ (p.inst j).ty ≠ .void

/-- An instruction of the function that can be written down. -/
structure ListableInst (f : FuncId) (i : InstId) : Prop where
  named : (p.inst i).name.isSome = (p.inst i).hasResult
  name : ∀ n ∈ (p.inst i).name, IsName n
  fits : (p.inst i).op.Fits (p.inst i).ty
  callee : ∀ callee ∈ (p.inst i).op.callee?, IsName callee
  operands : ∀ v ∈ (p.inst i).op.operands, p.Refers f v
  labels : ∀ b ∈ (p.inst i).op.blocks, IsName (p.label b)
  /-- A constant that a phi takes has the type of the phi. -/
  phi : ∀ incoming, (p.inst i).op = .phi incoming → ∀ l, .literal l ∈ incoming.map (·.1) →
    l.ty = (p.inst i).ty
  select : ∀ c t e, (p.inst i).op = .select c t e → p.valueTy t = (p.inst i).ty
  ret : ∀ v, (p.inst i).op = .ret (some v) → p.valueTy v ≠ .void

/-- The names in a function that stand for something. -/
def localNames (f : FuncId) : List String :=
  (p.func f).params.map (·.2) ++ (p.func f).blocks.map p.label ++
    (p.instructions f).filterMap fun i => (p.inst i).name

/-- A function that can be written down. -/
structure ListableFunc (f : FuncId) : Prop where
  name : IsName (p.func f).name
  params : ∀ x ∈ (p.func f).params, IsName x.2
  labels : ∀ b ∈ (p.func f).blocks, IsName (p.label b)
  /-- No label but the first is taken for an instruction. -/
  later : ∀ b ∈ (p.func f).blocks.tail, instruction ((p.label b).toList ++ [':']) = none
  distinct : (p.localNames f).Nodup
  verified : p.verify f = []
  insts : ∀ i ∈ p.instructions f, p.ListableInst f i

end Program

/-- A program that can be written down. -/
structure Program.Listable (p : Program) : Prop where
  globals : ∀ g ∈ p.globals, g.2.name = g.1 ∧ Listing.IsName g.1
  globals_nodup : (p.globals.map (·.1)).Nodup
  declarations : ∀ d ∈ p.declarations, Listing.IsName d.1
  declarations_nodup : (p.declarations.map (·.1)).Nodup
  functions : ∀ f ∈ p.functions, (p.func f.2).name = f.1
  functions_nodup : (p.functions.map (·.1)).Nodup
  funcs : ∀ f ∈ p.moduleFuncs, p.ListableFunc f

end BoxFlow
