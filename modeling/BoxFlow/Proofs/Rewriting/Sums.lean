import BoxFlow.Proofs.Dataflow.Domain
import BoxFlow.Proofs.Loading
import BoxFlow.Proofs.Rewriting.Justified
import Mathlib.Data.Int.ModEq

/-!
# Sums of literals

Folding replaces calls one after another, and each folding reduces what it comes to. What is written
is nevertheless the exact sum or difference of the literals that the function had at first, reduced
once (`RewriteM.ends_foldArithmetic_exact`). Such a sum is a `LiteralSum`, and the sums that a call
stands for follow the definitions of its operands (`Analysis.Denotes`).
-/

namespace BoxFlow

/-! ## Reduction -/

theorem eq_wrap64_iff {n k : Int} :
    k = wrap64 n ↔ -2 ^ 63 ≤ k ∧ k < 2 ^ 63 ∧ k ≡ n [ZMOD 2 ^ 64] := by
  have hmod := wrap64_emod n
  have hlower := neg_le_wrap64 n
  have hupper := wrap64_lt n
  constructor
  · rintro rfl
    exact ⟨by omega, by omega, hmod⟩
  · rintro ⟨hle, hlt, hk⟩
    have hk : k % 0x10000000000000000 = n % 0x10000000000000000 := hk
    omega

theorem wrap64_eq_wrap64_iff {n k : Int} : wrap64 n = wrap64 k ↔ n ≡ k [ZMOD 2 ^ 64] := by
  rw [eq_wrap64_iff]
  constructor
  · rintro ⟨-, -, h⟩
    exact (show wrap64 n ≡ n [ZMOD 2 ^ 64] from wrap64_emod n).symm.trans h
  · intro h
    obtain ⟨hle, hlt, hn⟩ := eq_wrap64_iff.1 (rfl : wrap64 n = wrap64 n)
    exact ⟨hle, hlt, hn.trans h⟩

theorem wrap64_wrap64 (n : Int) : wrap64 (wrap64 n) = wrap64 n :=
  wrap64_eq_wrap64_iff.2 (wrap64_emod n)

variable {n n' k k' : Int}

theorem wrap64_add_congr (hn : wrap64 n = wrap64 n') (hk : wrap64 k = wrap64 k') :
    wrap64 (n + k) = wrap64 (n' + k') :=
  wrap64_eq_wrap64_iff.2 ((wrap64_eq_wrap64_iff.1 hn).add (wrap64_eq_wrap64_iff.1 hk))

theorem wrap64_sub_congr (hn : wrap64 n = wrap64 n') (hk : wrap64 k = wrap64 k') :
    wrap64 (n - k) = wrap64 (n' - k') :=
  wrap64_eq_wrap64_iff.2 ((wrap64_eq_wrap64_iff.1 hn).sub (wrap64_eq_wrap64_iff.1 hk))

/-! ## What calls stand for -/

/-- Sums and differences of literals. -/
inductive LiteralSum
  | literal (n : Int)
  /-- A handle less itself, whatever it holds. -/
  | cancelled
  | add (left right : LiteralSum)
  | subtract (left right : LiteralSum)
  deriving DecidableEq, Repr

/-- The value of a sum in the unbounded integers. -/
def LiteralSum.value : LiteralSum → Int
  | literal n => n
  | cancelled => 0
  | add left right => left.value + right.value
  | subtract left right => left.value - right.value

namespace Analysis

variable {a : Analysis} {p : Program} {i d : InstId} {handle x y : Value}

/-- Call `d` is one of those that may have set the handle `x` before instruction `i`. -/
def Defines (a : Analysis) (d i : InstId) (x : Value) : Prop :=
  ∃ id ∈ a.definitions i x, a.cls.arena.value? id = some (.inst d)

/-- A call of the program `p` stands for a sum of literals of `p`, spelt out from what sets the
operands. -/
inductive Denotes (a : Analysis) (p : Program) : InstId → LiteralSum → Prop
  | created {i : InstId} {callee : String} {args : List Value} {l : Literal} :
      a.cls.kindOf i = .operation .create → (p.inst i).op = .call callee args →
      args[0]? = some (.literal l) → Denotes a p i (.literal l.value)
  | written {i : InstId} {callee : String} {args : List Value} {l : Literal} :
      a.cls.kindOf i = .operation .write → (p.inst i).op = .call callee args →
      args[1]? = some (.literal l) → Denotes a p i (.literal l.value)
  | cancelled {i : InstId} {handle x : Value} :
      a.cls.kindOf i = .operation .subtract → a.Arithmetic p i handle x x →
      Denotes a p i .cancelled
  | add {i d d' : InstId} {handle x y : Value} {left right : LiteralSum} :
      a.cls.kindOf i = .operation .add → a.Arithmetic p i handle x y →
      a.Defines d i x → Denotes a p d left → a.Defines d' i y → Denotes a p d' right →
      Denotes a p i (.add left right)
  | subtract {i d d' : InstId} {handle x y : Value} {left right : LiteralSum} :
      a.cls.kindOf i = .operation .subtract → a.Arithmetic p i handle x y → x ≠ y →
      a.Defines d i x → Denotes a p d left → a.Defines d' i y → Denotes a p d' right →
      Denotes a p i (.subtract left right)

/-- `n` is what call `i` stands for, up to reduction: it stands for something, and all that it
stands for reduces to the same as `n`. -/
structure Exact (a : Analysis) (p : Program) (i : InstId) (n : Int) : Prop where
  exists_denotes : ∃ e, a.Denotes p i e
  wrap64_eq : ∀ {e}, a.Denotes p i e → wrap64 e.value = wrap64 n

/-- A handle is set before an instruction to what is `n` up to reduction. -/
structure ExactBefore (a : Analysis) (p : Program) (i : InstId) (x : Value) (n : Int) :
    Prop where
  exists_defines : ∃ d, a.Defines d i x ∧ ∃ e, a.Denotes p d e
  wrap64_eq : ∀ {d e}, a.Defines d i x → a.Denotes p d e → wrap64 e.value = wrap64 n

/-- A `create` stands for its literal only. -/
theorem exact_of_create {callee : String} {args : List Value} {l : Literal}
    (hkind : a.cls.kindOf i = .operation .create) (hop : (p.inst i).op = .call callee args)
    (hl : args[0]? = some (.literal l)) : a.Exact p i l.value where
  exists_denotes := ⟨_, .created hkind hop hl⟩
  wrap64_eq he := by
    cases he with
    | created _ hop' hl' =>
      cases hop.symm.trans hop'
      cases hl.symm.trans hl'
      rfl
    | written hk | cancelled hk | add hk | subtract hk => cases hkind.symm.trans hk

/-- A `write` of a literal stands for the literal only. -/
theorem exact_of_write {callee : String} {args : List Value} {l : Literal}
    (hkind : a.cls.kindOf i = .operation .write) (hop : (p.inst i).op = .call callee args)
    (hl : args[1]? = some (.literal l)) : a.Exact p i l.value where
  exists_denotes := ⟨_, .written hkind hop hl⟩
  wrap64_eq he := by
    cases he with
    | written _ hop' hl' =>
      cases hop.symm.trans hop'
      cases hl.symm.trans hl'
      rfl
    | created hk | cancelled hk | add hk | subtract hk => cases hkind.symm.trans hk

/-- A handle less itself is zero. -/
theorem exact_of_cancelled (hkind : a.cls.kindOf i = .operation .subtract)
    (harith : a.Arithmetic p i handle x x) : a.Exact p i 0 where
  exists_denotes := ⟨_, .cancelled hkind harith⟩
  wrap64_eq he := by
    cases he with
    | cancelled => rfl
    | subtract _ harith' hne =>
      obtain ⟨-, rfl, rfl⟩ := harith.operands_eq harith'
      exact absurd rfl hne
    | created hk | written hk | add hk => cases hkind.symm.trans hk

variable {n k : Int}

theorem exact_of_add (hkind : a.cls.kindOf i = .operation .add)
    (harith : a.Arithmetic p i handle x y) (hx : a.ExactBefore p i x n)
    (hy : a.ExactBefore p i y k) : a.Exact p i (n + k) where
  exists_denotes := by
    obtain ⟨d, hd, e, he⟩ := hx.exists_defines
    obtain ⟨d', hd', e', he'⟩ := hy.exists_defines
    exact ⟨_, .add hkind harith hd he hd' he'⟩
  wrap64_eq he := by
    cases he with
    | add _ harith' hd hleft hd' hright =>
      obtain ⟨-, rfl, rfl⟩ := harith.operands_eq harith'
      exact wrap64_add_congr (hx.wrap64_eq hd hleft) (hy.wrap64_eq hd' hright)
    | created hk | written hk | cancelled hk | subtract hk => cases hkind.symm.trans hk

theorem exact_of_subtract (hkind : a.cls.kindOf i = .operation .subtract)
    (harith : a.Arithmetic p i handle x y) (hne : x ≠ y) (hx : a.ExactBefore p i x n)
    (hy : a.ExactBefore p i y k) : a.Exact p i (n - k) where
  exists_denotes := by
    obtain ⟨d, hd, e, he⟩ := hx.exists_defines
    obtain ⟨d', hd', e', he'⟩ := hy.exists_defines
    exact ⟨_, .subtract hkind harith hne hd he hd' he'⟩
  wrap64_eq he := by
    cases he with
    | subtract _ harith' _ hd hleft hd' hright =>
      obtain ⟨-, rfl, rfl⟩ := harith.operands_eq harith'
      exact wrap64_sub_congr (hx.wrap64_eq hd hleft) (hy.wrap64_eq hd' hright)
    | cancelled _ harith' =>
      obtain ⟨-, rfl, rfl⟩ := harith.operands_eq harith'
      exact absurd rfl hne
    | created hk | written hk | add hk => cases hkind.symm.trans hk

end Analysis

/-! ## Foldings in progress -/

/-- A literal that is written is what the call stands for, reduced. No `read` gives way as yet. -/
def Fate.Exact (p : Program) (a : Analysis) (i : InstId) : Fate → Prop
  | .kept | .copied .. => True
  | .dropped _ => False
  | .written _ l => (∃ e, a.Denotes p i e) ∧ ∀ e, a.Denotes p i e → l.value = wrap64 e.value

namespace Rewriting

variable {p : Program} {a : Analysis} {names : Names} {φ : Fates} {ds : List InstId}
  {s : RewriteState} {i d : InstId} {id : Id} {v : Value} {c : Int}
  (h : Rewriting p a names (Fate.Exact p a) φ ds s)
include h

/-- Nothing is substituted while calls are folded. -/
theorem subst_eq_self (v : Value) : (φ.layout ds).subst v = v := by
  cases v with
  | inst r =>
    apply Fates.subst_of_literal?_eq_none
    cases hx : φ r with
    | dropped l =>
      have hj := h.justified r (by simp [hx])
      rw [hx] at hj
      exact hj.elim
    | kept | written | copied => rfl
  | _ => rfl

/-- So calls that are kept stand as they stood. -/
theorem op_of_exact (hd : d ∈ p.instructions a.func) (hx : φ d = .kept) :
    (s.program.inst d).op = (p.inst d).op := by
  rw [h.op_of_kept hd (.inl hx), funext h.subst_eq_self]
  exact Form.map_id _

variable (hp : p.Linked)
include hp

/-- The literal that a definition gives its handle is what the call stood for at first. -/
theorem exact_of_literalOf (hd : d ∈ p.instructions a.func)
    (hvalue : a.cls.arena.value? id = some (.inst d))
    (hc : s.rewriter.literalOf s.program id = some c) : a.Exact p d c := by
  obtain ⟨d', callee, args, l, hvalue', hop, rfl, hkind⟩ := Rewriter.literalOf_eq_some hc
  obtain rfl : d' = d := by
    obtain ⟨kinds, hkinds⟩ := h.analysis
    rw [hkinds] at hvalue'
    exact Value.inst.inj (Option.some.inj (hvalue'.symm.trans hvalue))
  rw [h.replaced] at hop hkind
  have hfits := h.fits d'
  -- Either the call stands as it stood, or a `write` has taken its place in this folding.
  cases hx : φ d' with
  | kept =>
    rw [hx] at hop hkind
    simp only [Fate.write?, Option.getD_none] at hop hkind
    rw [h.op_of_exact hd hx] at hop
    rw [h.kinds (hp.lt_size hd)] at hkind
    obtain ⟨hk, hl⟩ | ⟨hk, hl⟩ := hkind
    · exact Analysis.exact_of_create hk hop hl
    · exact Analysis.exact_of_write hk hop hl
  | dropped =>
    have hj := h.justified d' (by simp [hx])
    rw [hx] at hj
    exact hj.elim
  | written w l' =>
    have hj := h.justified d' (by simp [hx])
    rw [hx] at hop hkind hfits hj
    obtain ⟨handle, y, z, -, hcalls⟩ := hfits
    obtain ⟨rfl, rfl⟩ := Form.call.inj (hcalls.op.symm.trans hop)
    obtain ⟨hk, -⟩ | ⟨-, hl⟩ := hkind
    · cases hcalls.kind.symm.trans hk
    · cases hl
      obtain ⟨hexists, hall⟩ := hj
      refine ⟨hexists, fun he => ?_⟩
      rw [hall _ he, wrap64_wrap64]
  | copied r w u =>
    rw [hx] at hop hkind hfits
    obtain ⟨handle, y, z, -, -, -, hcalls⟩ := hfits
    obtain ⟨rfl, rfl⟩ := Form.call.inj (hcalls.op.symm.trans hop)
    obtain ⟨hk, -⟩ | ⟨-, hl⟩ := hkind
    · cases hcalls.kind.symm.trans hk
    · cases hl

variable (hprog : a.program = p) (hdom : a.InDomain)
include hprog hdom

/-- What all definitions of a handle agree on is what each of them stood for at first. -/
theorem exactBefore_of_constantOf (hc : s.rewriter.constantOf s.program i v = some c) :
    a.ExactBefore p i v c := by
  obtain ⟨hne, hall⟩ := Rewriter.constantOf_eq_some hc
  obtain ⟨kinds, hkinds⟩ := h.analysis
  have hdefs : s.rewriter.analysis.definitions i v = a.definitions i v := by rw [hkinds]; rfl
  rw [hdefs] at hne hall
  have hdefiner {id : Id} (hid : id ∈ a.definitions i v) :
      ∃ d ∈ p.instructions a.func, a.cls.arena.value? id = some (.inst d) := by
    obtain rfl | ⟨d, hd, hfind, -⟩ := hdom.definitions hid
    · obtain ⟨d, _, _, _, hvalue, -⟩ := Rewriter.literalOf_eq_some (hall _ hid)
      cases hvalue
    · rw [hprog] at hd
      exact ⟨d, (List.mem_filter.1 hd).1, Arena.value?_of_find hfind⟩
  constructor
  · obtain ⟨id, hid⟩ := List.exists_mem_of_ne_nil _ hne
    obtain ⟨d, hd, hvalue⟩ := hdefiner hid
    exact ⟨d, ⟨id, hid, hvalue⟩, (h.exact_of_literalOf hp hd hvalue (hall id hid)).exists_denotes⟩
  · rintro d e ⟨id, hid, hvalue⟩ he
    obtain ⟨d', hd', hvalue'⟩ := hdefiner hid
    obtain rfl := Value.inst.inj (Option.some.inj (hvalue.symm.trans hvalue'))
    exact (h.exact_of_literalOf hp hd' hvalue (hall id hid)).wrap64_eq he

/-- What two constants come to is what their sum or difference stands for. -/
theorem exact_of_constants {handle x y : Value} {n k : Int} (harith : a.Arithmetic p i handle x y)
    (hne : a.cls.kindOf i = .operation .subtract → x ≠ y)
    (hx : s.rewriter.constantOf s.program i x = some n)
    (hy : s.rewriter.constantOf s.program i y = some k) :
    a.Exact p i (if a.cls.kindOf i = .operation .add then n + k else n - k) := by
  have hleft := h.exactBefore_of_constantOf hp hprog hdom hx
  have hright := h.exactBefore_of_constantOf hp hprog hdom hy
  obtain hkind | hkind := harith.kind
  · rw [if_pos hkind]
    exact Analysis.exact_of_add hkind harith hleft hright
  · rw [if_neg (by rw [hkind]; decide)]
    exact Analysis.exact_of_subtract hkind harith (hne hkind) hleft hright

end Rewriting

/-- Without a sum, a handle less itself is cancelled. -/
theorem Rewriter.outcome?_of_same {r : Rewriter} {p : Program} {i : InstId} {callee : String}
    {handle x : Value} {rest : List Value} (hkind : r.analysis.cls.kindOf i ≠ .operation .add)
    (hop : (p.inst i).op = .call callee (handle :: x :: x :: rest)) :
    r.outcome? p i = some .cancelled := by
  unfold outcome?
  rw [hop]
  simp [hkind]

/-- Facts that keep to their domain justify the literals that are written by them. -/
theorem Analysis.InDomain.sanctionsArithmetic {p : Program} {a : Analysis} (hdom : a.InDomain)
    (hp : p.Linked) (hprog : a.program = p) (names : Names) :
    SanctionsArithmetic p a names (Fate.Exact p a) := by
  intro φ ds s i handle x y outcome fate h hx harith ho hbrings
  have hcomes := harith.comes h hx ho
  have hkinds := h.kinds (hp.lt_size harith.mem)
  rw [h.subst_eq_self, h.subst_eq_self] at hcomes
  cases hbrings with
  | cancelled hl =>
    obtain ⟨hadd, rfl⟩ := hcomes
    rw [hkinds] at hadd
    have hexact := exact_of_cancelled (harith.kind.resolve_left hadd) harith
    refine ⟨hexact.exists_denotes, fun e he => ?_⟩
    rw [hexact.wrap64_eq he, hl]
    rfl
  | constant hl =>
    obtain ⟨n, k, hn, hk, rfl⟩ := hcomes
    have hne : a.cls.kindOf i = .operation .subtract → x ≠ y := by
      rintro hkind rfl
      obtain ⟨callee, rest, hop⟩ := harith.op
      rw [← h.op_of_exact harith.mem hx] at hop
      rw [Rewriter.outcome?_of_same (by rw [hkinds, hkind]; decide) hop] at ho
      cases ho
    have hexact := h.exact_of_constants hp hprog hdom harith hne hn hk
    refine ⟨hexact.exists_denotes, fun e he => ?_⟩
    rw [hexact.wrap64_eq he, hl, hkinds]
  | copied => exact True.intro

/-! ## Whole foldings -/

/-- Call `j` has taken the place of call `i`, which is gone, and writes the literal `l` to the same
handle. The literal is the value of each sum that `i` stood for in `p`, reduced once, and there is
such a sum. -/
structure RewriteState.WritesExact (t : RewriteState) (p : Program) (a : Analysis) (i j : InstId)
    (l : Literal) : Prop where
  replaced : t.rewriter.replaced.lookup i = some j
  gone : i ∉ t.program.instructions a.func
  write : ∃ handle x y, a.Arithmetic p i handle x y ∧
    (t.program.inst j).op = .call (t.rewriter.names.nameOf .write) [handle, .literal l]
  exists_denotes : ∃ e, a.Denotes p i e
  value_eq : ∀ e, a.Denotes p i e → l.value = wrap64 e.value

namespace Rewriting

variable {p : Program} {a : Analysis} {names : Names} {φ : Fates} {t : RewriteState}
  {i j : InstId} {callee : String} {args : List Value} {l : Literal}

/-- What has met its fate is gone at the end. -/
theorem not_mem_instructions (hp : p.Linked) {J : InstId → Fate → Prop}
    (h : Rewriting p a names J φ [] t) (hx : φ i ≠ .kept) :
    i ∉ t.program.instructions a.func := by
  intro hmem
  obtain ⟨-, herased⟩ | ⟨hle, -⟩ := h.program.old_or_new hmem
  · exact hx ((Fates.erased_layout.1 herased).resolve_right (by simp))
  · exact Nat.not_le.2 (hp.lt_size (h.mem_instructions hx)) hle

/-- A new call with a literal in the place of a value writes an exact result. -/
theorem writesExact (hp : p.Linked) (h : Rewriting p a names (Fate.Exact p a) φ [] t)
    (hj : j ∈ t.program.instructions a.func) (hnew : p.insts.size ≤ j)
    (hop : (t.program.inst j).op = .call callee args) (hl : args[1]? = some (.literal l)) :
    ∃ i, t.WritesExact p a i j l := by
  obtain ⟨hmem, -⟩ | ⟨-, i, hi, hcode⟩ := h.program.old_or_new hj
  · exact absurd hnew (Nat.not_le.2 (hp.lt_size hmem))
  · have hcode : j ∈ (φ i).code := hcode
    have hfits := h.fits i
    -- Of what is put in, only the `write` of a literal has one in that place.
    cases hx : φ i with
    | kept | dropped =>
      rw [hx] at hcode
      cases hcode
    | written w l' =>
      rw [hx] at hcode hfits
      obtain rfl : j = w := List.mem_singleton.1 hcode
      obtain ⟨handle, x, y, harith, hcalls⟩ := hfits
      obtain ⟨rfl, rfl⟩ := Form.call.inj (hcalls.op.symm.trans hop)
      cases hl
      have hreplaced := h.replaced i
      have hne : φ i ≠ .kept := by simp [hx]
      have hjust := h.justified i hne
      rw [hx] at hreplaced hjust
      have hwrite := hcalls.op
      rw [h.subst_eq_self] at hwrite
      exact ⟨i, hreplaced, h.not_mem_instructions hp hne, ⟨handle, x, y, harith, hwrite⟩,
        hjust.1, hjust.2⟩
    | copied r w u =>
      rw [hx] at hcode hfits
      obtain ⟨handle, x, y, -, -, hread, hwrite⟩ := hfits
      obtain rfl | hcode := List.mem_cons.1 hcode
      · obtain ⟨rfl, rfl⟩ := Form.call.inj (hread.op.symm.trans hop)
        cases hl
      · obtain rfl : j = w := List.mem_singleton.1 hcode
        obtain ⟨rfl, rfl⟩ := Form.call.inj (hwrite.op.symm.trans hop)
        cases hl

end Rewriting

namespace RewriteM

/-- `wrap64 n` is the only integer in `[-2 ^ 63, 2 ^ 63)` congruent to `n` modulo `2 ^ 64`, and
folding writes exact results. Each literal that a new call gives a handle is the value of the sums
of literals of the program that the call whose place it takes stood for, reduced once, whatever the
chain of foldings that has led to it. -/
theorem ends_foldArithmetic_exact {p : Program} (hp : p.Linked) (f : FuncId) (o : Options)
    (oracle : Oracle) {a : Analysis}
    (ha : a = Analysis.solve p f o oracle (Classification.ofFunc p o f).1) :
    (∀ n k : Int, k = wrap64 n ↔ -2 ^ 63 ≤ k ∧ k < 2 ^ 63 ∧ k ≡ n [ZMOD 2 ^ 64]) ∧
    Ends foldArithmetic { program := p, rewriter := { analysis := a, names := o.names } } fun _ t =>
      ∀ j ∈ t.program.instructions f, p.insts.size ≤ j → ∀ callee args l,
        (t.program.inst j).op = .call callee args → args[1]? = some (.literal l) →
        ∃ i, t.WritesExact p a i j l := by
  have hdom : a.InDomain := ha ▸ Analysis.solve_inDomain p f o oracle
  obtain ⟨hprog, rfl⟩ : a.program = p ∧ a.func = f := by
    obtain ⟨w, b, hrun, heq⟩ := Analysis.run_solve p f o oracle (Classification.ofFunc p o f).1
    rw [ha, heq]
    exact ⟨(Analysis.run_program hrun).1, (Analysis.run_program hrun).2.1⟩
  refine ⟨fun n k => eq_wrap64_iff, ?_⟩
  have hS : SanctionsArithmetic p a o.names (Fate.Exact p a) :=
    hdom.sanctionsArithmetic hp hprog o.names
  apply (ends_foldArithmetic hp (.trivial p a o.names _) hS (.start hp a o.names _)
    True.intro).mono
  rintro _ t ⟨φ, h, -, -⟩ j hj hnew callee args l hop hl
  exact h.writesExact hp hj hnew hop hl

/-- Sums and differences one after another, of literals of up to 66 bits, with sums that leave the
64-bit integers and a handle less itself. -/
def chainText : String :=
  "define void @f()\x7be:%a=call ptr @create(i64 9223372036854775807)" ++
  "%b=call ptr @create(i64 36893488147419103235)call void @add(ptr %a,ptr %a,ptr %b)" ++
  "call void @add(ptr %b,ptr %a,ptr %a)call void @subtract(ptr %a,ptr %b,ptr %b)" ++
  "call void @subtract(ptr %b,ptr %a,ptr %b)ret void\x7d"

theorem ends_foldArithmetic_exact_chain : ∃ p a, Program.load chainText.toList = .ok p ∧ p.Linked ∧
    a = Analysis.solve p 0 {} .conservative (Classification.ofFunc p {} 0).1 ∧
    Ends foldArithmetic { program := p, rewriter := { analysis := a, names := Options.names {} } }
      fun _ t =>
        ((t.program.instructions 0).drop 2).map t.program.instText =
          ["call void @write(ptr %a, i64 -9223372036854775806)", "call void @write(ptr %b, i64 4)",
            "call void @write(ptr %a, i64 0)", "call void @write(ptr %b, i64 -4)", "ret void"] ∧
        ∀ j ∈ t.program.instructions 0, p.insts.size ≤ j → ∀ callee args l,
          (t.program.inst j).op = .call callee args → args[1]? = some (.literal l) →
          ∃ i, t.WritesExact p a i j l := by
  obtain ⟨p, hload, hp, hrun⟩ := Program.exists_load (s := chainText.toList)
    (P := fun p => Ends foldArithmetic
      { program := p
        rewriter := {
          analysis := Analysis.solve p 0 {} .conservative (Classification.ofFunc p {} 0).1
          names := Options.names {} } }
      fun _ t => ((t.program.instructions 0).drop 2).map t.program.instText =
        ["call void @write(ptr %a, i64 -9223372036854775806)", "call void @write(ptr %b, i64 4)",
          "call void @write(ptr %a, i64 0)", "call void @write(ptr %b, i64 -4)", "ret void"])
    (by decide +kernel)
  have hexact := (ends_foldArithmetic_exact hp 0 {} .conservative rfl).2
  exact ⟨p, _, hload, hp, rfl, hrun.and hexact.yields⟩

end RewriteM

end BoxFlow
