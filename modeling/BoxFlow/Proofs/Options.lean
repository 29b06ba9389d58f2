import BoxFlow.Options.OfJson
import Mathlib.Data.List.Nodup

/-!
# What a configuration may be

A JSON value describes options (`Options.Describes`) if it is an object with some of the five keys
and of the right shape under each (`Options.Shape`). `Options.ofJson` takes exactly these values,
for the options that they describe (`ofJson_spec`). What it takes for a list of texts is more than
that: an object counts as the list of its keys (`not_ofJson_spec`).
-/

namespace BoxFlow

/-! ## Operations by name -/

theorem Names.operation?_nameOf (n : Names) (op : Operation) :
    n.operation? (n.nameOf op) = some op := by
  have hnodup : (Operation.all.map n.nameOf).Nodup := n.nodup_toList
  cases hfind : n.operation? (n.nameOf op) with
  | none => simpa using List.find?_eq_none.1 hfind op (Operation.mem_all op)
  | some op' =>
    have hname : n.nameOf op' = n.nameOf op := by simpa using List.find?_some hfind
    rw [List.inj_on_of_nodup_map hnodup (Operation.mem_all op') (Operation.mem_all op) hname]

theorem Options.kindOf_nameOf (o : Options) (op : Operation) :
    o.kindOf (o.names.nameOf op) = .operation op := by
  rw [kindOf, Names.operation?_nameOf]

/-! ## Fields of an object -/

theorem strangers_eq_nil_iff {allowed keys : List String} :
    strangers allowed keys = [] ↔ ∀ k ∈ keys, k ∈ allowed := by
  rw [strangers, Std.ExtTreeSet.toList_eq_nil_iff, Std.ExtTreeSet.ofList_eq_empty_iff,
    List.filter_eq_nil_iff]
  simp

theorem bind_eq_ok {ε α β : Type} {x : Except ε α} {k : α → Except ε β} {r : β} :
    x >>= k = .ok r ↔ ∃ a, x = .ok a ∧ k a = .ok r := by
  cases x <;> simp [bind, Except.bind]

/-- What stands under a key describes `x`, or there is nothing and `x` is the usual one. -/
def Keyed.Gives {α β : Type} (fields : Keyed α) (key : String) (P : α → β → Prop) (usual x : β) :
    Prop :=
  (List.lookup key fields).elim (x = usual) (P · x)

theorem Keyed.exists_gives_iff {α β : Type} {fields : Keyed α} {key : String}
    {P : α → β → Prop} {usual : β} :
    (∃ x, fields.Gives key P usual x) ↔ ∀ v, List.lookup key fields = some v → ∃ x, P v x := by
  unfold Gives
  cases List.lookup key fields <;> simp

/-! ## Names -/

namespace Names

variable {v : Json} {n : Names} {fields : Keyed Json}

/-- The name that an object gives an operation, or the usual one. -/
def given (fields : Keyed Json) (op : Operation) : String :=
  match fields.lookup op.key with
  | some (.str s) => s
  | _ => (default : Names).nameOf op

/-- The field gives an operation a name. -/
def IsGiven (field : String × Json) : Prop :=
  ∃ (op : Operation) (s : String), field = (op.key, .str s) ∧ s ≠ ""

/-- A value and the names that it stands for. -/
inductive Describes : Json → Names → Prop
  | null : Describes .null default
  | default : Describes (.str "default") default
  | cat : Describes (.str "cat") Names.cat
  | fields {fields : Keyed Json} {n : Names} :
    (∀ e ∈ fields, IsGiven e) → n.nameOf = given fields → Describes (.obj fields) n

/-- The values that stand for names. -/
inductive Shape : Json → Prop
  | null : Shape .null
  | default : Shape (.str "default")
  | cat : Shape (.str "cat")
  | fields {fields : Keyed Json} :
    (∀ e ∈ fields, IsGiven e) → (Operation.all.map (given fields)).Nodup → Shape (.obj fields)

theorem nameOf_injective : Function.Injective nameOf := by
  rintro ⟨⟩ ⟨⟩ h
  obtain rfl : _ = _ := congrFun h .create
  obtain rfl : _ = _ := congrFun h .read
  obtain rfl : _ = _ := congrFun h .write
  obtain rfl : _ = _ := congrFun h .add
  obtain rfl : _ = _ := congrFun h .subtract
  obtain rfl : _ = _ := congrFun h .destroy
  rfl

/-- The names by an object, if they are distinct. -/
def ofGiven (fields : Keyed Json) (h : (Operation.all.map (given fields)).Nodup) : Names where
  create := given fields .create
  read := given fields .read
  write := given fields .write
  add := given fields .add
  subtract := given fields .subtract
  destroy := given fields .destroy
  distinct := h

@[simp] theorem nameOf_ofGiven {h : (Operation.all.map (given fields)).Nodup} :
    (ofGiven fields h).nameOf = given fields := by
  funext op
  cases op <;> rfl

theorem eq_ofGiven_iff {h : (Operation.all.map (given fields)).Nodup} :
    n = ofGiven fields h ↔ n.nameOf = given fields := by
  rw [← nameOf_ofGiven (h := h), nameOf_injective.eq_iff]

theorem exists_describes_iff : (∃ n, Describes v n) ↔ Shape v := by
  constructor
  · rintro ⟨n, h⟩
    cases h with
    | null => exact .null
    | default => exact .default
    | cat => exact .cat
    | fields hgiven hnames => exact .fields hgiven (hnames ▸ n.nodup_toList)
  · intro h
    cases h with
    | null => exact ⟨_, .null⟩
    | default => exact ⟨_, .default⟩
    | cat => exact ⟨_, .cat⟩
    | fields hgiven hnodup => exact ⟨ofGiven _ hnodup, .fields hgiven nameOf_ofGiven⟩

/-- The value is no name. -/
def isNameless (e : String × Json) : Bool :=
  match e.2 with
  | .str s => s.isEmpty
  | _ => true

theorem ofFields_eq (fields : Keyed Json) : ofFields fields =
    if (strangers (Operation.all.map Operation.key) (fields.map (·.1))).isEmpty then
      match fields.find? isNameless with
      | some e => .error (.emptyName e.1)
      | none =>
        if distinct : (Operation.all.map (given fields)).Nodup then .ok (ofGiven fields distinct)
        else .error .sameNames
    else
      .error (.unknownOperations
        (strangers (Operation.all.map Operation.key) (fields.map (·.1)))) := by
  unfold ofFields
  dsimp only
  split
  · cases hfind : fields.find? isNameless with
    | none =>
      split
      · next h => cases hfind.symm.trans h
      · rfl
    | some e =>
      split
      · next h =>
        cases hfind.symm.trans h
        rfl
      · next h => cases hfind.symm.trans h
  · rfl

/-- The check of the keys and the check of the values are one check of every field. -/
theorem forall_isGiven_iff : (∀ e ∈ fields, IsGiven e) ↔
    (strangers (Operation.all.map Operation.key) (fields.map (·.1))).isEmpty ∧
      fields.find? isNameless = none := by
  rw [List.isEmpty_iff, strangers_eq_nil_iff, List.find?_eq_none]
  constructor
  · intro h
    refine ⟨fun k hk => ?_, fun e he => ?_⟩
    · obtain ⟨e, he, rfl⟩ := List.mem_map.1 hk
      obtain ⟨op, s, rfl, -⟩ := h e he
      exact List.mem_map_of_mem (Operation.mem_all op)
    · obtain ⟨op, s, rfl, hs⟩ := h e he
      simpa [isNameless] using hs
  · rintro ⟨hkeys, hvalues⟩ ⟨k, v⟩ he
    obtain ⟨op, -, rfl⟩ := List.mem_map.1 (hkeys k (List.mem_map_of_mem he))
    have hvalue := hvalues _ he
    cases v with
    | str s => exact ⟨op, s, rfl, by simpa [isNameless] using hvalue⟩
    | _ => exact absurd rfl hvalue

theorem ofFields_eq_ok_iff : ofFields fields = .ok n ↔
    (∀ e ∈ fields, IsGiven e) ∧ n.nameOf = given fields := by
  rw [ofFields_eq, forall_isGiven_iff]
  split
  · next hkeys =>
    cases hfind : fields.find? isNameless with
    | some e => simp
    | none =>
      dsimp only
      split
      · next hdistinct =>
        rw [Except.ok.injEq, eq_comm, eq_ofGiven_iff]
        simp [hkeys]
      · next hdistinct =>
        refine iff_of_false nofun fun h => hdistinct ?_
        exact h.2 ▸ n.nodup_toList
  · next hkeys => simp [hkeys]

theorem ofJson_eq_ok_iff : ofJson v = .ok n ↔ Describes v n := by
  constructor
  · intro h
    unfold ofJson at h
    split at h
    · cases h
      exact .null
    · split at h
      · next hs =>
        cases h
        exact hs ▸ .default
      · split at h
        · next hs =>
          cases h
          exact hs ▸ .cat
        · cases h
    · obtain ⟨hgiven, hnames⟩ := ofFields_eq_ok_iff.1 h
      exact .fields hgiven hnames
    · cases h
  · intro h
    cases h with
    | null | default | cat => rfl
    | fields hgiven hnames => exact ofFields_eq_ok_iff.2 ⟨hgiven, hnames⟩

end Names

/-! ## Options -/

/-- A value that is taken for a list, and the texts in it. -/
inductive Json.Texts : Json → List String → Prop
  | list (l : List String) : Texts (.arr (l.map .str)) l
  /-- An object counts as the list of its keys. -/
  | keys (fields : Keyed Json) : Texts (.obj fields) (fields.map (·.1))

namespace Options

variable {v : Json} {fields : Keyed Json} {key : String} {o : Options}

theorem stringList?_arr_eq_some_iff {items : List Json} {l : List String} :
    stringList? (.arr items) = some l ↔ items = l.map .str := by
  rw [stringList?]
  induction items generalizing l with
  | nil => cases l <;> simp
  | cons v items ih =>
    rw [List.mapM_cons]
    cases v with
    | str s => cases l <;> simp [Option.bind_eq_some_iff, ih, and_comm]
    | _ => cases l <;> simp

theorem stringList?_eq_some_iff {l : List String} : stringList? v = some l ↔ v.Texts l := by
  constructor
  · intro h
    cases v with
    | arr items => exact stringList?_arr_eq_some_iff.1 h ▸ .list l
    | obj fields =>
      cases h
      exact .keys fields
    | _ => cases h
  · intro h
    cases h with
    | list => exact stringList?_arr_eq_some_iff.2 rfl
    | keys => rfl

/-- The value is a list of texts that make up the set. -/
def DescribesSet (v : Json) (s : StringSet) : Prop := ∃ l, v.Texts l ∧ s = .ofList l

theorem stringsAt_eq_ok_iff {given s : StringSet} :
    stringsAt fields key given = .ok s ↔ fields.Gives key DescribesSet given s := by
  unfold stringsAt Keyed.Gives DescribesSet
  cases fields.lookup key with
  | none => simp [eq_comm]
  | some v =>
    simp only [Option.elim_some, ← stringList?_eq_some_iff]
    cases stringList? v <;> simp [eq_comm]

/-- The value is a positive integer. -/
def DescribesBound (v : Json) (n : Nat) : Prop := 0 < n ∧ v = .int n

theorem boundAt_eq_ok_iff {given n : Nat} : boundAt fields given = .ok n ↔
    fields.Gives "max_iterations" DescribesBound given n := by
  unfold boundAt Keyed.Gives DescribesBound
  cases fields.lookup "max_iterations" with
  | none => simp [eq_comm]
  | some v =>
    cases v with
    | int z =>
      dsimp only [Option.elim_some]
      split
      · simp only [Except.ok.injEq, Json.int.injEq]
        omega
      · simp only [reduceCtorEq, Json.int.injEq, false_iff]
        omega
    | _ => simp

/-- The options that an object stands for. -/
structure Describes (fields : Keyed Json) (o : Options) : Prop where
  keys : ∀ e ∈ fields, e.1 ∈ Options.keys
  names : fields.Gives "names" Names.Describes default o.names
  benignCallees : fields.Gives "benign_callees" DescribesSet (.ofList ["printf"]) o.benignCallees
  benignPrefixes :
    fields.Gives "benign_prefixes" DescribesSet (.ofList ["llvm.lifetime"]) o.benignPrefixes
  readonlyCallees : fields.Gives "readonly_callees" DescribesSet ∅ o.readonlyCallees
  maxIterations : fields.Gives "max_iterations" DescribesBound 1000000 o.maxIterations

theorem ofJson_obj (fields : Keyed Json) : ofJson (.obj fields) =
    if (strangers keys (fields.map (·.1))).isEmpty then do
      let names ← (fields.lookup "names").elim (.ok default) Names.ofJson
      let benignCallees ← stringsAt fields "benign_callees" (.ofList ["printf"])
      let benignPrefixes ← stringsAt fields "benign_prefixes" (.ofList ["llvm.lifetime"])
      let readonlyCallees ← stringsAt fields "readonly_callees" ∅
      let maxIterations ← boundAt fields 1000000
      return { names, benignCallees, benignPrefixes, readonlyCallees, maxIterations }
    else .error (.unknownKeys (strangers keys (fields.map (·.1)))) := by
  unfold ofJson
  dsimp only
  split
  · cases fields.lookup "names" <;> rfl
  · rfl

theorem namesAt_eq_ok_iff {n : Names} :
    (fields.lookup key).elim (.ok default) Names.ofJson = .ok n ↔
      fields.Gives key Names.Describes default n := by
  unfold Keyed.Gives
  cases fields.lookup key with
  | none => simp [eq_comm]
  | some v => exact Names.ofJson_eq_ok_iff

theorem ofJson_eq_ok_iff : ofJson v = .ok o ↔ ∃ fields, v = .obj fields ∧ Describes fields o := by
  cases v with
  | obj fields =>
    rw [ofJson_obj]
    split
    · next hkeys =>
      rw [List.isEmpty_iff, strangers_eq_nil_iff] at hkeys
      simp only [bind_eq_ok, namesAt_eq_ok_iff, stringsAt_eq_ok_iff, boundAt_eq_ok_iff]
      constructor
      · rintro ⟨names, hnames, callees, hcallees, prefixes, hprefixes, readonly, hreadonly, bound,
          hbound, h⟩
        cases h
        exact ⟨fields, rfl, ⟨by simpa using hkeys, hnames, hcallees, hprefixes, hreadonly, hbound⟩⟩
      · rintro ⟨_, ⟨⟩, h⟩
        exact ⟨_, h.names, _, h.benignCallees, _, h.benignPrefixes, _, h.readonlyCallees, _,
          h.maxIterations, rfl⟩
    · next hkeys =>
      refine iff_of_false nofun ?_
      rintro ⟨_, ⟨⟩, h⟩
      exact hkeys (List.isEmpty_iff.2 (strangers_eq_nil_iff.2 (by simpa using h.keys)))
  | _ => simp [ofJson]

/-- The objects that stand for options, if `IsList` holds of what may stand for a list of texts. -/
structure Shape (IsList : Json → Prop) (fields : Keyed Json) : Prop where
  keys : ∀ e ∈ fields, e.1 ∈ Options.keys
  names : ∀ v, fields.lookup "names" = some v → Names.Shape v
  lists : ∀ key ∈ ["benign_callees", "benign_prefixes", "readonly_callees"],
    ∀ v, fields.lookup key = some v → IsList v
  bound : ∀ v, fields.lookup "max_iterations" = some v → ∃ n : Int, 0 < n ∧ v = .int n

theorem exists_set_iff {usual : StringSet} : (∃ s, fields.Gives key DescribesSet usual s) ↔
    ∀ v, fields.lookup key = some v → ∃ l, v.Texts l := by
  rw [Keyed.exists_gives_iff]
  refine forall₂_congr fun v _ => ⟨?_, ?_⟩
  · rintro ⟨_, l, h, -⟩
    exact ⟨l, h⟩
  · rintro ⟨l, h⟩
    exact ⟨_, l, h, rfl⟩

theorem exists_bound_iff {usual : Nat} :
    (∃ n, fields.Gives "max_iterations" DescribesBound usual n) ↔
      ∀ v, fields.lookup "max_iterations" = some v → ∃ n : Int, 0 < n ∧ v = .int n := by
  rw [Keyed.exists_gives_iff]
  refine forall₂_congr fun v _ => ⟨?_, ?_⟩
  · rintro ⟨n, hn, h⟩
    exact ⟨n, by omega, h⟩
  · rintro ⟨n, hn, rfl⟩
    exact ⟨n.toNat, by omega, congrArg _ (by omega)⟩

theorem exists_describes_iff :
    (∃ o, Describes fields o) ↔ Shape (fun v => ∃ l, v.Texts l) fields := by
  constructor
  · rintro ⟨o, h⟩
    refine ⟨h.keys, fun v hv => ?_, ?_, exists_bound_iff.1 ⟨_, h.maxIterations⟩⟩
    · exact Names.exists_describes_iff.1 (Keyed.exists_gives_iff.1 ⟨_, h.names⟩ v hv)
    · simp only [List.forall_mem_cons]
      exact ⟨exists_set_iff.1 ⟨_, h.benignCallees⟩, exists_set_iff.1 ⟨_, h.benignPrefixes⟩,
        exists_set_iff.1 ⟨_, h.readonlyCallees⟩, by simp⟩
  · intro h
    have hlists := h.lists
    simp only [List.forall_mem_cons] at hlists
    obtain ⟨hcallees, hprefixes, hreadonly, -⟩ := hlists
    obtain ⟨names, hnames⟩ := Keyed.exists_gives_iff.2 fun v hv =>
      Names.exists_describes_iff.2 (h.names v hv)
    obtain ⟨callees, hcallees⟩ := exists_set_iff.2 hcallees
    obtain ⟨prefixes, hprefixes⟩ := exists_set_iff.2 hprefixes
    obtain ⟨readonly, hreadonly⟩ := exists_set_iff.2 hreadonly
    obtain ⟨bound, hbound⟩ := exists_bound_iff.2 h.bound
    exact ⟨⟨names, callees, prefixes, readonly, bound⟩, h.keys, hnames, hcallees, hprefixes,
      hreadonly, hbound⟩

/-- A configuration is taken if and only if it has the shape, and for the options that it
describes, in which every operation is found by its name whatever the lists hold. -/
theorem ofJson_spec (v : Json) :
    match ofJson v with
    | .ok o => (∃ fields, v = .obj fields ∧ Shape (fun v => ∃ l, v.Texts l) fields ∧
        Describes fields o) ∧ ∀ op, o.kindOf (o.names.nameOf op) = .operation op
    | .error _ => ¬∃ fields, v = .obj fields ∧ Shape (fun v => ∃ l, v.Texts l) fields := by
  cases hv : ofJson v with
  | ok o =>
    obtain ⟨fields, heq, h⟩ := ofJson_eq_ok_iff.1 hv
    exact ⟨⟨fields, heq, exists_describes_iff.1 ⟨o, h⟩, h⟩, o.kindOf_nameOf⟩
  | error f =>
    rintro ⟨fields, heq, h⟩
    obtain ⟨o, ho⟩ := exists_describes_iff.2 h
    cases hv.symm.trans (ofJson_eq_ok_iff.2 ⟨fields, heq, ho⟩)

/-- An object is taken where a list of texts is asked for. -/
theorem not_ofJson_spec :
    let v := Json.obj [("benign_callees", .obj [("a", .int 1)])]
    ofJson v = .ok { benignCallees := .ofList ["a"] } ∧
      ¬∃ fields, v = .obj fields ∧
        Shape (fun v => ∃ l : List String, v = .arr (l.map .str)) fields := by
  refine ⟨rfl, ?_⟩
  rintro ⟨_, ⟨⟩, h⟩
  obtain ⟨l, hl⟩ := h.lists "benign_callees" (by simp) _ rfl
  cases hl

end Options

end BoxFlow
