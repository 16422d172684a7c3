import CoilLang.Mir.Inst
import Mathlib.Data.List.Sort

/-!
# MIR functions and their verification

A function is a list of blocks, numbered by their positions, with the type of each value. `verify`
makes the structural checks of the compiler: every value is defined once, φs stand only at the head
of a block and have one incoming for each edge into it, edges lead to blocks, operands have the
types their instruction takes. The type checks of the operations outside the arithmetic
(`MirOp`) are left out, so `verify` accepts more functions here than in the compiler.

What a later pass uses of an accepted function is collected in `WellFormed`.
-/

namespace CoilLang.Mir

/-- How a function's result words are laid out. -/
inductive MirLayout
  | word
  | heapNiche
  | twoSlot
  deriving DecidableEq, Repr

structure MirBlock where
  id : BlockId
  insts : List MirInst
  term : Option Terminator
  deriving DecidableEq, Repr

structure MirFunc where
  params : List ValueId
  retTy : Option MirTy
  retHiTy : Option MirTy
  retLayout : MirLayout
  entry : BlockId
  blocks : List MirBlock
  /-- Type of each value. -/
  types : List MirTy
  deriving DecidableEq, Repr

namespace MirBlock

/-- The blocks a block may go on to. -/
def succs (b : MirBlock) : List BlockId := (b.term.map Terminator.succs).getD []

/-- The φs of a block. -/
def phis (b : MirBlock) : List MirInst := b.insts.filter MirInst.isPhi

/-- The instructions of a block after its φs. -/
def body (b : MirBlock) : List MirInst := b.insts.filter fun i ↦ !i.isPhi

end MirBlock

namespace MirFunc

def ty (f : MirFunc) (v : ValueId) : MirTy := f.types[v]?.getD .bottom

def block? (f : MirFunc) (b : BlockId) : Option MirBlock := f.blocks[b]?

/-- The predecessors of a block, one for each edge. -/
def preds (f : MirFunc) (b : BlockId) : List BlockId :=
  f.blocks.flatMap fun p ↦ (p.succs.filter (· = b)).map fun _ ↦ p.id

/-! ### The checks of one instruction -/

/-- `word & 1` reads the tag of a niche word as an `i64`. -/
def heapBit (op : MirBinOp) (ty lt rt : MirTy) : Bool :=
  (ty.isHeapWord || lt.isHeapWord || rt.isHeapWord) && (op = .bitAnd ∨ op = .bitOr ∨ op = .xor)

def heapOrInt (t : MirTy) : Bool := t.isHeapWord || t = .i64

/-- Fail with a message unless a condition holds. -/
def ensure (c : Bool) (msg : String) : Except String Unit :=
  if c then .ok () else .error msg

def checkBin (f : MirFunc) (dest : ValueId) (op : MirBinOp) (ty : MirTy) (lhs rhs : ValueId) :
    Except String Unit := do
  let lt := f.ty lhs
  let rt := f.ty rhs
  if heapBit op ty lt rt then
    ensure (heapOrInt lt && heapOrInt rt) s!"v{dest} heap bitwise operand type"
  else if ty = .bool then
    ensure ((op = .bitAnd ∨ op = .bitOr) && lt = .bool && rt = .bool) s!"v{dest} binop on bool"
  else
    ensure ty.isNumeric s!"v{dest} binop on {ty.asStr}"
    ensure (!op.requiresInt || ty.isInt) s!"v{dest} bitwise on {ty.asStr}"
    ensure (op.takes ty) s!"v{dest} pow on {ty.asStr}"
    ensure (lt = ty && rt = ty) s!"v{dest} binop operand type"
  ensure (f.ty dest = ty) s!"v{dest} binop dest type"

def checkCmp (f : MirFunc) (dest : ValueId) (ty : MirTy) (lhs rhs : ValueId) :
    Except String Unit := do
  let lt := f.ty lhs
  let rt := f.ty rhs
  if ty.isHeapWord then
    ensure (heapOrInt lt && heapOrInt rt) s!"v{dest} heap cmp operand type"
  else
    ensure (ty.isNumeric && ty ≠ .bool) s!"v{dest} cmp on {ty.asStr}"
    ensure (lt = ty && rt = ty) s!"v{dest} cmp operand type"
  ensure (f.ty dest = .bool) s!"v{dest} cmp dest is not bool"

def checkUnary (f : MirFunc) (dest : ValueId) (op : MirUnaryOp) (src : ValueId) :
    Except String Unit := do
  let t := f.ty src
  match op with
  | .not =>
    ensure (f.ty dest = .bool) s!"v{dest} lnot dest is not bool"
    ensure (t = .bool || t.isInt || t.isHeapWord) s!"v{dest} lnot on {t.asStr}"
  | .neg =>
    ensure t.isInt s!"v{dest} neg on {t.asStr}"
    ensure (f.ty dest = t) s!"v{dest} neg dest type"

/-- Whether a cast keeps the word: to or from a niche word, or between `i64` and a heap pointer or
a `bool`. -/
def castAllows (src dst : MirTy) : Bool :=
  let niche (t : MirTy) : Bool := t = .nicheOpt ∨ t = .nicheRes
  (niche dst && (src = .i64 ∨ src = .heapRef)) || (niche src && (dst = .heapRef ∨ dst = .i64)) ||
    (src, dst) ∈ [(MirTy.i64, MirTy.heapRef), (.heapRef, .i64), (.bool, .i64), (.i64, .bool)]

def checkPhi (f : MirFunc) (preds : List BlockId) (dest : ValueId) (ty : MirTy)
    (args : List (BlockId × ValueId)) : Except String Unit := do
  ensure (f.ty dest = ty) s!"v{dest} phi type"
  ensure ty.isSpecialized s!"v{dest} phi is not specialized"
  let seen := preds.insertionSort (· ≤ ·)
  let got := (args.map Prod.fst).insertionSort (· ≤ ·)
  ensure (got = seen) s!"v{dest} phi preds {got} != block preds {seen}"
  ensure (args.all fun a ↦ f.ty a.2 = ty) s!"v{dest} phi arg type"

def checkInst (f : MirFunc) (preds : List BlockId) : MirInst → Except String Unit
  | .const dest c => ensure (f.ty dest = c.ty) s!"v{dest} const type mismatch"
  | .bin dest op ty lhs rhs => f.checkBin dest op ty lhs rhs
  | .cmp dest _ ty lhs rhs => f.checkCmp dest ty lhs rhs
  | .unary dest op src => f.checkUnary dest op src
  | .cast dest ty src =>
    ensure (castAllows (f.ty src) ty && f.ty dest = ty)
      s!"v{dest} illegal cast {(f.ty src).asStr} -> {ty.asStr}"
  | .phi dest ty args => f.checkPhi preds dest ty args
  | .op .. => .ok ()

/-! ### The checks of blocks and functions -/

/-- Add the results of an instruction to the defined values, each for the first time. -/
def defineAll (f : MirFunc) : List ValueId → List ValueId → Except String (List ValueId)
  | [], defined => .ok defined
  | d :: ds, defined => do
    ensure (d < f.types.length) s!"dest v{d} has no type"
    ensure (d ∉ defined) s!"value v{d} defined twice"
    f.defineAll ds (d :: defined)

/-- The instructions of a block; a φ operand may come from a later block, every other is defined
before. -/
def verifyInsts (f : MirFunc) (b : BlockId) (preds : List BlockId) :
    List MirInst → Bool → List ValueId → Except String (List ValueId)
  | [], _, defined => .ok defined
  | i :: is, sawNonPhi, defined => do
    ensure (!(i.isPhi && sawNonPhi)) s!"phi after non-phi in bb{b}"
    let defined ← f.defineAll i.dests defined
    f.checkInst preds i
    ensure (i.isPhi || i.operands.all (· ∈ defined)) s!"v{i.dest} uses an undefined value"
    f.verifyInsts b preds is (sawNonPhi || !i.isPhi) defined

def verifyTerm (f : MirFunc) : Terminator → Except String Unit
  | .br cond _ _ => ensure (f.ty cond = .bool) s!"br cond v{cond} is {(f.ty cond).asStr}"
  | .ret lo hi => do
    ensure (hi.isNone || lo.isSome) "two-slot return missing payload word"
    ensure (lo.all fun v ↦ f.retTy.all fun t ↦ (f.ty v).le t || f.ty v = t) "return type"
    ensure (hi.isNone || f.retLayout = .twoSlot) "hi return word requires twoslot layout"
    ensure (hi.all fun v ↦ f.retHiTy.all fun t ↦ (f.ty v).le t || f.ty v = t) "return hi type"
  | .jump _ | .unreachable => .ok ()

def verifyBlocks (f : MirFunc) : ℕ → List MirBlock → List ValueId → Except String Unit
  | _, [], _ => .ok ()
  | bi, b :: bs, defined => do
    ensure (b.id = bi) s!"block id mismatch at {bi}"
    ensure b.term.isSome s!"bb{b.id} has no terminator"
    let defined ← f.verifyInsts b.id (f.preds bi) b.insts false defined
    b.term.forM f.verifyTerm
    ensure (b.succs.all (· < f.blocks.length)) s!"bb{b.id} jumps to a missing block"
    f.verifyBlocks (bi + 1) bs defined

/-- The parameters have types; the values `defined` at the start of the body are these. -/
def verifyParams (f : MirFunc) : List ValueId → Except String Unit
  | [] => .ok ()
  | p :: ps => do
    ensure (p < f.types.length) s!"param v{p} has no type"
    ensure (f.ty p).isSpecialized s!"param v{p} is not a specialized SSA type"
    f.verifyParams ps

/-- Structural SSA and type checks. -/
def verify (f : MirFunc) : Except String Unit := do
  ensure (!f.blocks.isEmpty) "function has no blocks"
  ensure (f.entry < f.blocks.length) "entry block out of range"
  f.verifyParams f.params
  f.verifyBlocks 0 f.blocks f.params

/-- The values the instructions of the function define. -/
def defs (f : MirFunc) : List ValueId := f.blocks.flatMap fun b ↦ b.insts.flatMap MirInst.dests

end MirFunc

/-! ### What an accepted function satisfies -/

/-- The structure of a verified function that the passes rely on. -/
structure WellFormed (f : MirFunc) : Prop where
  entry : f.entry < f.blocks.length
  id : ∀ {i : ℕ} {b : MirBlock}, f.blocks[i]? = some b → b.id = i
  term : ∀ b ∈ f.blocks, ∃ t, b.term = some t
  insts : ∀ b ∈ f.blocks, b.insts = b.phis ++ b.body
  defsNodup : f.defs.Nodup
  defsLt : ∀ d ∈ f.defs, d < f.types.length
  checked : ∀ b ∈ f.blocks, ∀ i ∈ b.insts, f.checkInst (f.preds b.id) i = .ok ()
  succs : ∀ b ∈ f.blocks, ∀ s ∈ b.succs, s < f.blocks.length

theorem ensure_eq_ok {c : Bool} {msg : String} {u : Unit} :
    MirFunc.ensure c msg = .ok u ↔ c = true := by
  cases c <;> simp [MirFunc.ensure]

theorem except_bind_eq_ok {α β : Type} {x : Except String α} {g : α → Except String β} {b : β} :
    (x >>= g) = .ok b ↔ ∃ a, x = .ok a ∧ g a = .ok b := by
  cases x with
  | error e =>
    constructor
    · intro h
      cases h
    · rintro ⟨a, h, -⟩
      cases h
  | ok a =>
    constructor
    · intro h
      exact ⟨a, rfl, h⟩
    · rintro ⟨a', h, h'⟩
      cases h
      exact h'

namespace MirFunc

variable {f : MirFunc}

theorem defineAll_ok {ds defined out : List ValueId} (h : f.defineAll ds defined = .ok out) :
    out = ds.reverse ++ defined ∧ ds.Nodup ∧ ∀ d ∈ ds, d ∉ defined ∧ d < f.types.length := by
  induction ds generalizing defined with
  | nil =>
    cases h
    exact ⟨rfl, List.nodup_nil, by simp⟩
  | cons d ds ih =>
    simp only [defineAll, except_bind_eq_ok, ensure_eq_ok, decide_eq_true_eq] at h
    obtain ⟨-, hlt, -, hnew, h⟩ := h
    obtain ⟨rfl, hnd, hds⟩ := ih h
    refine ⟨by simp, List.nodup_cons.2 ⟨fun hd ↦ (hds d hd).1 List.mem_cons_self, hnd⟩, ?_⟩
    intro e he
    rcases List.mem_cons.1 he with rfl | he
    · exact ⟨hnew, hlt⟩
    · exact ⟨fun hm ↦ (hds e he).1 (List.mem_cons_of_mem _ hm), (hds e he).2⟩

/-- After an instruction that is not a φ there are no φs. -/
theorem verifyInsts_no_phi {b : BlockId} {preds : List BlockId} {is : List MirInst}
    {defined out : List ValueId} (h : f.verifyInsts b preds is true defined = .ok out) :
    ∀ i ∈ is, i.isPhi = false := by
  induction is generalizing defined with
  | nil => simp
  | cons i is ih =>
    simp only [verifyInsts, except_bind_eq_ok, ensure_eq_ok, Bool.true_or] at h
    obtain ⟨-, hphi, _, -, -, -, -, -, h⟩ := h
    intro j hj
    rcases List.mem_cons.1 hj with rfl | hj
    · simpa using hphi
    · exact ih h j hj

theorem verifyInsts_ok {b : BlockId} {preds : List BlockId} {is : List MirInst} {saw : Bool}
    {defined out : List ValueId} (h : f.verifyInsts b preds is saw defined = .ok out) :
    out = (is.flatMap MirInst.dests).reverse ++ defined ∧ (is.flatMap MirInst.dests).Nodup ∧
      (∀ d ∈ is.flatMap MirInst.dests, d ∉ defined ∧ d < f.types.length) ∧
      (∀ i ∈ is, f.checkInst preds i = .ok ()) ∧
      is = is.filter MirInst.isPhi ++ is.filter fun i ↦ !i.isPhi := by
  induction is generalizing saw defined with
  | nil =>
    cases h
    exact ⟨rfl, List.nodup_nil, by simp, by simp, rfl⟩
  | cons i is ih =>
    simp only [verifyInsts, except_bind_eq_ok, ensure_eq_ok] at h
    obtain ⟨-, -, defined', hdef, ⟨⟩, hcheck, -, -, h⟩ := h
    obtain ⟨rfl, hnd, hds⟩ := defineAll_ok hdef
    obtain ⟨rfl, hnd', hds', hchecks, hsplit⟩ := ih h
    refine ⟨by simp, ?_, ?_, ?_, ?_⟩
    · rw [List.flatMap_cons, List.nodup_append]
      refine ⟨hnd, hnd', fun d hd e he hde ↦ ?_⟩
      subst hde
      exact (hds' d he).1 (List.mem_append_left _ (List.mem_reverse.2 hd))
    · intro d hd
      rw [List.flatMap_cons, List.mem_append] at hd
      rcases hd with hd | hd
      · exact hds d hd
      · exact ⟨fun hm ↦ (hds' d hd).1 (List.mem_append_right _ hm), (hds' d hd).2⟩
    · intro j hj
      rcases List.mem_cons.1 hj with rfl | hj
      · exact hcheck
      · exact hchecks j hj
    · cases hi : i.isPhi with
      | true => simpa [hi] using hsplit
      | false =>
        have hno : ∀ j ∈ is, j.isPhi = false := by
          simp only [hi, Bool.not_false, Bool.or_true] at h
          exact verifyInsts_no_phi h
        have hnil : is.filter MirInst.isPhi = [] := by
          simpa [List.filter_eq_nil_iff] using hno
        simpa [hi, hnil] using hsplit

theorem verifyBlocks_ok {bi : ℕ} {bs : List MirBlock} {defined : List ValueId}
    (h : f.verifyBlocks bi bs defined = .ok ()) :
    (∀ i b, bs[i]? = some b → b.id = bi + i ∧ b.term.isSome ∧ b.insts = b.phis ++ b.body ∧
      (∀ j ∈ b.insts, f.checkInst (f.preds b.id) j = .ok ()) ∧
      ∀ s ∈ b.succs, s < f.blocks.length) ∧
    (bs.flatMap fun b ↦ b.insts.flatMap MirInst.dests).Nodup ∧
    ∀ d ∈ bs.flatMap fun b ↦ b.insts.flatMap MirInst.dests, d ∉ defined ∧ d < f.types.length := by
  induction bs generalizing bi defined with
  | nil => simp
  | cons b bs ih =>
    simp only [verifyBlocks, except_bind_eq_ok, ensure_eq_ok, decide_eq_true_eq] at h
    obtain ⟨-, hid, -, hterm, out, hins, -, -, -, hsuccs, h⟩ := h
    obtain ⟨rfl, hnd, hds, hchecks, hsplit⟩ := verifyInsts_ok hins
    obtain ⟨hbs, hnd', hds'⟩ := ih h
    refine ⟨?_, ?_, ?_⟩
    · intro i c hc
      cases i with
      | zero =>
        obtain rfl : b = c := by simpa using hc
        refine ⟨hid, hterm, hsplit, ?_, by simpa using hsuccs⟩
        rwa [hid]
      | succ i =>
        obtain ⟨hc₁, hc₂⟩ := hbs i c (by simpa using hc)
        exact ⟨by omega, hc₂⟩
    · rw [List.flatMap_cons, List.nodup_append]
      refine ⟨hnd, hnd', fun d hd e he hde ↦ ?_⟩
      subst hde
      exact (hds' d he).1 (List.mem_append_left _ (List.mem_reverse.2 hd))
    · intro d hd
      rw [List.flatMap_cons, List.mem_append] at hd
      rcases hd with hd | hd
      · exact hds d hd
      · exact ⟨fun hm ↦ (hds' d hd).1 (List.mem_append_right _ hm), (hds' d hd).2⟩

/-- **A verified function is well formed.** -/
theorem wellFormed_of_verify (h : f.verify = .ok ()) : WellFormed f := by
  simp only [verify, except_bind_eq_ok, ensure_eq_ok, decide_eq_true_eq] at h
  obtain ⟨-, -, -, hentry, -, -, h⟩ := h
  obtain ⟨hbs, hnd, hds⟩ := verifyBlocks_ok h
  have hmem : ∀ b ∈ f.blocks, ∃ i, f.blocks[i]? = some b := fun b hb ↦ List.mem_iff_getElem?.1 hb
  refine ⟨hentry, fun hb ↦ by simpa using (hbs _ _ hb).1, ?_, ?_, hnd, fun d hd ↦ (hds d hd).2,
    ?_, ?_⟩
  all_goals
    intro b hb
    obtain ⟨i, hi⟩ := hmem b hb
    obtain ⟨-, hterm, hsplit, hchecks, hsuccs⟩ := hbs i b hi
  · exact Option.isSome_iff_exists.1 hterm
  · exact hsplit
  · exact hchecks
  · exact hsuccs

theorem mem_preds {p b : BlockId} : p ∈ f.preds b ↔ ∃ c ∈ f.blocks, c.id = p ∧ b ∈ c.succs := by
  simp only [preds, List.mem_flatMap, List.mem_map, List.mem_filter, decide_eq_true_eq]
  constructor
  · rintro ⟨c, hc, s, ⟨hs, rfl⟩, rfl⟩
    exact ⟨c, hc, rfl, hs⟩
  · rintro ⟨c, hc, rfl, hb⟩
    exact ⟨c, hc, b, ⟨hb, rfl⟩, rfl⟩

end MirFunc

namespace WellFormed

variable {f : MirFunc} {b : MirBlock}

theorem phi (hf : WellFormed f) (hb : b ∈ f.blocks) {d : ValueId} {ty : MirTy}
    {args : List (BlockId × ValueId)} (hi : MirInst.phi d ty args ∈ b.insts) :
    f.ty d = ty ∧ (args.map Prod.fst).Perm (f.preds b.id) ∧ ∀ a ∈ args, f.ty a.2 = ty := by
  have h := hf.checked b hb _ hi
  simp only [MirFunc.checkInst, MirFunc.checkPhi, except_bind_eq_ok, ensure_eq_ok,
    decide_eq_true_eq, List.all_eq_true] at h
  obtain ⟨-, hty, -, -, -, hperm, hargs⟩ := h
  refine ⟨hty, ?_, hargs⟩
  exact (List.perm_insertionSort (· ≤ ·) _).symm.trans
    (hperm ▸ List.perm_insertionSort (· ≤ ·) _)

/-- Arithmetic that may trap is on `i64`. -/
theorem bin_bitwise (hf : WellFormed f) (hb : b ∈ f.blocks) {d l r : ValueId} {ty : MirTy}
    {op : MirBinOp} (hi : MirInst.bin d op ty l r ∈ b.insts) (hty : ty ≠ .i64) :
    op = .bitAnd ∨ op = .bitOr ∨ op = .xor := by
  have h := hf.checked b hb _ hi
  simp only [MirFunc.checkInst, MirFunc.checkBin] at h
  by_cases hheap : MirFunc.heapBit op ty (f.ty l) (f.ty r)
  · simp only [MirFunc.heapBit, Bool.and_eq_true, decide_eq_true_eq] at hheap
    exact hheap.2
  · rw [if_neg hheap] at h
    by_cases hbool : ty = .bool
    · rw [if_pos hbool] at h
      simp only [except_bind_eq_ok, ensure_eq_ok, Bool.and_eq_true, decide_eq_true_eq] at h
      obtain ⟨-, h, -⟩ := h
      exact h.1.1.imp_right Or.inl
    · rw [if_neg hbool] at h
      simp only [except_bind_eq_ok, ensure_eq_ok] at h
      obtain ⟨-, hnum, -⟩ := h
      simp [MirTy.isNumeric, hty, hbool] at hnum

theorem neg_i64 (hf : WellFormed f) (hb : b ∈ f.blocks) {d src : ValueId}
    (hi : MirInst.unary d .neg src ∈ b.insts) : f.ty src = .i64 := by
  have h := hf.checked b hb _ hi
  simp only [MirFunc.checkInst, MirFunc.checkUnary, except_bind_eq_ok, ensure_eq_ok,
    MirTy.isInt, decide_eq_true_eq] at h
  obtain ⟨-, h, -⟩ := h
  exact h

end WellFormed

end CoilLang.Mir
