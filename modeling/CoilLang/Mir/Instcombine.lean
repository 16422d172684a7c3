import CoilLang.Mir.Run

/-!
# Folding one instruction

`foldInst` is the rewrite instruction combining makes of one instruction, given the constants its
operands are known to be: a constant, another value (an identity), or a cheaper instruction. The
float folds are left out with the floats. `constOf` is what the constant propagation asks of it: the
constant the instruction computes, identities that keep an operand not counted.

**An operation that would trap is never folded** (`constOf_sound`): when `constOf` gives a constant,
the instruction gives that word at run time, whatever the operands not known to be constant are.
-/

namespace CoilLang.Mir

/-- The constants known of some values. -/
abbrev Consts := ValueId → Option MirConst

/-- What an instruction is rewritten to. -/
inductive Fold
  | none
  /-- An existing value (identity). -/
  | subst (v : ValueId)
  | toConst (c : MirConst)
  /-- In-place rewrite (strength reduction). -/
  | rewrite (i : MirInst)

/-- The `i64` constant `k`, in an operation on `i64`. -/
def isInt (k : Word) (ty : MirTy) (c : Option MirConst) : Bool := ty = .i64 ∧ c = some (.i64 k)

/-- The operand an operation gives back. -/
def identity (op : MirBinOp) (ty : MirTy) (lhs rhs : ValueId) (lc rc : Option MirConst) :
    Option ValueId :=
  match op with
  | .add => if isInt 0 ty rc then some lhs else if isInt 0 ty lc then some rhs else none
  | .sub => if isInt 0 ty rc then some lhs else none
  | .mul => if isInt 1 ty rc then some lhs else if isInt 1 ty lc then some rhs else none
  | .div => if isInt 1 ty rc then some lhs else none
  | .bitOr | .xor | .shl | .shr => if isInt 0 ty rc then some lhs else none
  | .bitAnd => if isInt (-1) ty rc then some lhs else if isInt (-1) ty lc then some rhs else none
  | .rem | .pow => none

/-- Operations that give zero whatever the other operand is. -/
def zeroing (op : MirBinOp) (ty : MirTy) (lhs rhs : ValueId) (lc rc : Option MirConst) :
    Option MirConst :=
  if ty.isInt then
    match op with
    | .sub => if lhs = rhs then some (.i64 0) else none
    | .mul | .bitAnd => if isInt 0 ty lc || isInt 0 ty rc then some (.i64 0) else none
    | .rem => if isInt 1 ty rc then some (.i64 0) else none
    | _ => none
  else none

/-- An int operation that traps at run time is not folded, so the trap stays; nor is `**`. -/
def evalI64 (op : MirBinOp) (a b : Word) : Option Word :=
  match op with
  | .add => (IntArith.add a b).toOption
  | .sub => (IntArith.sub a b).toOption
  | .mul => (IntArith.mul a b).toOption
  | .div => (IntArith.div a b).toOption
  | .rem => (IntArith.rem a b).toOption
  | .bitAnd => some (a &&& b)
  | .bitOr => some (a ||| b)
  | .xor => some (a ^^^ b)
  | .shl => if IntArith.shiftCount b then some (a <<< b.toNat) else none
  | .shr => if IntArith.shiftCount b then some (a.sshiftRight b.toNat) else none
  | .pow => none

def evalBinConst (op : MirBinOp) : MirTy → MirConst → MirConst → Option MirConst
  | .i64, .i64 x, .i64 y => (evalI64 op x y).map .i64
  | _, _, _ => none

def evalCmpConst (op : MirCmpOp) : MirTy → MirConst → MirConst → Option Bool
  | .i64, .i64 x, .i64 y => some (evalCmp op x y)
  | _, _, _ => none

def evalNeg : MirConst → Option MirConst
  | .i64 v => (IntArith.neg v).toOption.map .i64
  | .bool _ => none

/-- `x * 2` as `x + x`. -/
def strengthMul2 (dest : ValueId) (op : MirBinOp) (ty : MirTy) (lhs rhs : ValueId)
    (lc rc : Option MirConst) : Option MirInst :=
  if op = .mul then
    if isInt 2 ty rc then some (.bin dest .add ty lhs lhs)
    else if isInt 2 ty lc then some (.bin dest .add ty rhs rhs)
    else none
  else none

def foldBin (strength : Bool) (consts : Consts) (dest : ValueId) (op : MirBinOp) (ty : MirTy)
    (lhs rhs : ValueId) : Fold :=
  let lc := consts lhs
  let rc := consts rhs
  match lc.bind fun a ↦ rc.bind fun b ↦ evalBinConst op ty a b with
  | some c => .toConst c
  | none =>
    match identity op ty lhs rhs lc rc with
    | some keep => .subst keep
    | none =>
      match zeroing op ty lhs rhs lc rc with
      | some zero => .toConst zero
      | none =>
        if strength then
          match strengthMul2 dest op ty lhs rhs lc rc with
          | some i => .rewrite i
          | none => .none
        else .none

def foldInst (strength : Bool) (consts : Consts) : MirInst → Fold
  | .bin dest op ty lhs rhs => foldBin strength consts dest op ty lhs rhs
  | .cmp _ op ty lhs rhs =>
    match (consts lhs).bind fun a ↦ (consts rhs).bind fun b ↦ evalCmpConst op ty a b with
    | some c => .toConst (.bool c)
    | none => .none
  | .unary _ .neg src =>
    match (consts src).bind evalNeg with
    | some n => .toConst n
    | none => .none
  | .unary _ .not src =>
    match consts src with
    | some (.bool b) => .toConst (.bool !b)
    | _ => .none
  -- the casts that fold are those from and to floats
  | .cast .. => .none
  | .const .. | .phi .. | .op .. => .none

/-- The constant an instruction computes from the constants known of its operands, when it folds to
one without trapping. -/
def constOf (inst : MirInst) (consts : Consts) : Option MirConst :=
  match inst with
  | .const _ c => some c
  | i =>
    match foldInst false consts i with
    | .toConst c => some c
    | _ => none

/-! ### A folded constant is the word at run time -/

theorem toOption_eq_some {r : IntResult} {w : Word} (h : r.toOption = some w) : r = .ok w := by
  cases r with
  | error e => cases h
  | ok v => cases h; rfl

theorem evalI64_sound {op : MirBinOp} {a b w : Word} (h : evalI64 op a b = some w) :
    evalBin op a b = .ok w := by
  cases op with
  | add | sub | mul | div | rem => exact toOption_eq_some h
  | bitAnd | bitOr | xor => cases h; rfl
  | shl | shr =>
    simp only [evalI64] at h
    split at h
    · rename_i hc
      cases h
      simp only [evalBin, IntArith.shl, IntArith.shr, if_pos hc]
    · cases h
  | pow => cases h

theorem isInt_iff {k : Word} {ty : MirTy} {c : Option MirConst} :
    isInt k ty c = true ↔ ty = .i64 ∧ c = some (.i64 k) := by
  simp [isInt]

theorem zeroing_sound {op : MirBinOp} {ty : MirTy} {lhs rhs : ValueId} {consts : Consts}
    {c : MirConst} (h : zeroing op ty lhs rhs (consts lhs) (consts rhs) = some c) {env : Env}
    (hl : ∀ c, consts lhs = some c → env lhs = c.word)
    (hr : ∀ c, consts rhs = some c → env rhs = c.word) :
    evalBin op (env lhs) (env rhs) = .ok c.word := by
  have hl' : ∀ k, isInt k ty (consts lhs) = true → env lhs = k :=
    fun k hk ↦ hl _ (isInt_iff.1 hk).2
  have hr' : ∀ k, isInt k ty (consts rhs) = true → env rhs = k :=
    fun k hk ↦ hr _ (isInt_iff.1 hk).2
  unfold zeroing at h
  split at h
  swap
  · cases h
  cases op with
  | sub =>
    simp only at h
    split at h
    · rename_i heq
      cases h
      rw [heq]
      exact IntArith.sub_self _
    · cases h
  | mul =>
    simp only [Bool.or_eq_true] at h
    split at h
    · rename_i hz
      cases h
      rcases hz with hz | hz
      · rw [hl' 0 hz]
        exact IntArith.zero_mul _
      · rw [hr' 0 hz]
        exact IntArith.mul_zero _
    · cases h
  | bitAnd =>
    simp only [Bool.or_eq_true] at h
    split at h
    · rename_i hz
      cases h
      rcases hz with hz | hz
      · rw [hl' 0 hz]
        exact congrArg Except.ok BitVec.zero_and
      · rw [hr' 0 hz]
        exact congrArg Except.ok BitVec.and_zero
    · cases h
  | rem =>
    simp only at h
    split at h
    · rename_i hz
      cases h
      rw [hr' 1 hz]
      exact IntArith.rem_one _
    · cases h
  | _ => cases h

theorem identity_sound {op : MirBinOp} {ty : MirTy} {lhs rhs k : ValueId} {consts : Consts}
    (h : identity op ty lhs rhs (consts lhs) (consts rhs) = some k) {env : Env}
    (hl : ∀ c, consts lhs = some c → env lhs = c.word)
    (hr : ∀ c, consts rhs = some c → env rhs = c.word) :
    evalBin op (env lhs) (env rhs) = .ok (env k) ∧ (k = lhs ∨ k = rhs) := by
  have hl' : ∀ k, isInt k ty (consts lhs) = true → env lhs = k :=
    fun k hk ↦ hl _ (isInt_iff.1 hk).2
  have hr' : ∀ k, isInt k ty (consts rhs) = true → env rhs = k :=
    fun k hk ↦ hr _ (isInt_iff.1 hk).2
  -- the operand kept is the left one where the right is the constant, and the other way round
  have hright : ∀ {n : Word}, (∀ a, evalBin op a n = .ok a) → isInt n ty (consts rhs) = true →
      evalBin op (env lhs) (env rhs) = .ok (env lhs) ∧ (lhs = lhs ∨ lhs = rhs) := by
    intro n hop hc
    exact ⟨by rw [hr' n hc, hop], .inl rfl⟩
  have hleft : ∀ {n : Word}, (∀ a, evalBin op n a = .ok a) → isInt n ty (consts lhs) = true →
      evalBin op (env lhs) (env rhs) = .ok (env rhs) ∧ (rhs = lhs ∨ rhs = rhs) := by
    intro n hop hc
    exact ⟨by rw [hl' n hc, hop], .inr rfl⟩
  cases op with
  | add =>
    simp only [identity] at h
    split at h
    · cases h
      exact hright IntArith.add_zero ‹_›
    split at h
    · cases h
      exact hleft IntArith.zero_add ‹_›
    · cases h
  | mul =>
    simp only [identity] at h
    split at h
    · cases h
      exact hright IntArith.mul_one ‹_›
    split at h
    · cases h
      exact hleft IntArith.one_mul ‹_›
    · cases h
  | bitAnd =>
    simp only [identity] at h
    split at h
    · cases h
      exact hright (fun a ↦ congrArg Except.ok BitVec.and_allOnes) ‹_›
    split at h
    · cases h
      exact hleft (fun a ↦ congrArg Except.ok BitVec.allOnes_and) ‹_›
    · cases h
  | sub =>
    simp only [identity] at h
    split at h
    · cases h
      exact hright IntArith.sub_zero ‹_›
    · cases h
  | div =>
    simp only [identity] at h
    split at h
    · cases h
      exact hright IntArith.div_one ‹_›
    · cases h
  | bitOr =>
    simp only [identity] at h
    split at h
    · cases h
      exact hright (fun a ↦ congrArg Except.ok BitVec.or_zero) ‹_›
    · cases h
  | xor =>
    simp only [identity] at h
    split at h
    · cases h
      exact hright (fun a ↦ congrArg Except.ok BitVec.xor_zero) ‹_›
    · cases h
  | shl =>
    simp only [identity] at h
    split at h
    · cases h
      exact hright IntArith.shl_zero ‹_›
    · cases h
  | shr =>
    simp only [identity] at h
    split at h
    · cases h
      exact hright IntArith.shr_zero ‹_›
    · cases h
  | rem | pow => cases h

theorem strengthMul2_sound {dest : ValueId} {op : MirBinOp} {ty : MirTy} {lhs rhs : ValueId}
    {consts : Consts} {i : MirInst}
    (h : strengthMul2 dest op ty lhs rhs (consts lhs) (consts rhs) = some i) {env : Env}
    (hl : ∀ c, consts lhs = some c → env lhs = c.word)
    (hr : ∀ c, consts rhs = some c → env rhs = c.word) :
    ∃ x, (x = lhs ∨ x = rhs) ∧ i = .bin dest .add ty x x ∧ op = .mul ∧
      evalBin .add (env x) (env x) = evalBin op (env lhs) (env rhs) := by
  unfold strengthMul2 at h
  split at h
  swap
  · cases h
  rename_i hop
  subst hop
  split at h
  · rename_i hc
    cases h
    refine ⟨lhs, .inl rfl, rfl, rfl, ?_⟩
    rw [hr _ (isInt_iff.1 hc).2]
    exact (IntArith.mul_two _).symm
  split at h
  · rename_i hc
    cases h
    refine ⟨rhs, .inr rfl, rfl, rfl, ?_⟩
    rw [hl _ (isInt_iff.1 hc).2]
    exact (IntArith.two_mul _).symm
  · cases h

/-- What a rewrite has to give: the same word or trap, for the words the constants stand for. -/
def Fold.Sound (env : Env) (i : MirInst) : Fold → Prop
  | .none => True
  | .subst k => arith env i = some (.ok (env k)) ∧ k ∈ i.operands
  | .toConst c => arith env i = some (.ok c.word)
  | .rewrite i' => arith env i' = arith env i ∧ i'.dest = i.dest ∧ i'.operands ⊆ i.operands ∧
      ∃ d op ty l r, i' = .bin d op ty l r

theorem foldBin_sound {strength : Bool} {consts : Consts} {dest lhs rhs : ValueId} {op : MirBinOp}
    {ty : MirTy} {env : Env} (hl : ∀ c, consts lhs = some c → env lhs = c.word)
    (hr : ∀ c, consts rhs = some c → env rhs = c.word) :
    (foldBin strength consts dest op ty lhs rhs).Sound env (.bin dest op ty lhs rhs) := by
  simp only [foldBin]
  split
  · rename_i c hc
    obtain ⟨a, ha, hc⟩ := Option.bind_eq_some_iff.1 hc
    obtain ⟨b, hb, hc⟩ := Option.bind_eq_some_iff.1 hc
    unfold evalBinConst at hc
    split at hc
    · obtain ⟨w, hw, rfl⟩ := Option.map_eq_some_iff.1 hc
      rw [Fold.Sound, arith, hl _ ha, hr _ hb]
      exact congrArg some (evalI64_sound hw)
    · cases hc
  split
  · rename_i k hk
    obtain ⟨heval, hmem⟩ := identity_sound hk hl hr
    exact ⟨congrArg some heval, by simpa [MirInst.operands] using hmem⟩
  split
  · rename_i zero hz
    exact congrArg some (zeroing_sound hz hl hr)
  split
  swap
  · trivial
  split
  · rename_i i hi
    obtain ⟨x, hx, rfl, rfl, heval⟩ := strengthMul2_sound hi hl hr
    refine ⟨congrArg some heval, rfl, ?_, _, _, _, _, _, rfl⟩
    rcases hx with rfl | rfl
    · simp [MirInst.operands]
    · simp [MirInst.operands]
  · trivial

/-- **Every rewrite gives the word the instruction gives, or its trap**, for every words of the operands
not known. -/
theorem foldInst_sound {strength : Bool} {i : MirInst} {consts : Consts} {env : Env}
    (henv : ∀ v ∈ i.operands, ∀ c, consts v = some c → env v = c.word) :
    (foldInst strength consts i).Sound env i := by
  cases i with
  | bin d op ty lhs rhs =>
    exact foldBin_sound (henv lhs (by simp [MirInst.operands])) (henv rhs (by simp [MirInst.operands]))
  | cmp d op ty lhs rhs =>
    simp only [foldInst]
    split
    · rename_i b hb
      obtain ⟨x, hx, hb⟩ := Option.bind_eq_some_iff.1 hb
      obtain ⟨y, hy, hb⟩ := Option.bind_eq_some_iff.1 hb
      unfold evalCmpConst at hb
      split at hb
      · cases hb
        rw [Fold.Sound, arith, henv lhs (by simp [MirInst.operands]) _ hx,
          henv rhs (by simp [MirInst.operands]) _ hy]
        rfl
      · cases hb
    · trivial
  | unary d op src =>
    have hsrc := henv src (by simp [MirInst.operands])
    cases op with
    | neg =>
      simp only [foldInst]
      split
      · rename_i n hn
        obtain ⟨x, hx, hn⟩ := Option.bind_eq_some_iff.1 hn
        cases x with
        | bool b => cases hn
        | i64 v =>
          obtain ⟨w, hw, rfl⟩ := Option.map_eq_some_iff.1 hn
          rw [Fold.Sound, arith, hsrc _ hx]
          exact congrArg some (toOption_eq_some hw)
      · trivial
    | not =>
      simp only [foldInst]
      split
      · rename_i b hb
        rw [Fold.Sound, arith, hsrc _ hb]
        cases b <;> rfl
      · trivial
  | const | cast | phi | op => trivial

/-- **The constant is the word the instruction gives**, without a trap, for every words of the
operands not known. -/
theorem constOf_sound {i : MirInst} {consts : Consts} {c : MirConst} (h : constOf i consts = some c)
    {env : Env} (henv : ∀ v ∈ i.operands, ∀ c, consts v = some c → env v = c.word) :
    arith env i = some (.ok c.word) := by
  have hfold : (foldInst false consts i).Sound env i := foldInst_sound henv
  cases i with
  | const d c' =>
    cases h
    rfl
  | _ =>
    simp only [constOf] at h
    split at h
    · rename_i c' hc
      cases h
      rw [hc] at hfold
      exact hfold
    · cases h

end CoilLang.Mir
