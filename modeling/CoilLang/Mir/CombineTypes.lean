import CoilLang.Mir.CombineSound

/-!
# Types of the values kept

An identity on `i64`s keeps an operand. Where a bit operation reads a heap word as an `i64`, the operand
kept is that heap word, so a use of the `i64` reads a value of another type. Which instructions
take it is `MirInst.takes`, and **an instruction passes its check with the values kept exactly when it takes
their types** (`outInst_check`).
-/

namespace CoilLang.Mir

/-! ### The types an instruction takes -/

/-- The instruction takes a heap word of type `t` where it takes an `i64`. -/
def MirInst.takes (t : MirTy) : MirInst → Bool
  | .bin _ o _ _ _ => o = .bitAnd ∨ o = .bitOr ∨ o = .xor
  | .cmp _ _ ty _ _ => ty.isHeapWord
  | .unary _ o _ => o = .not
  | .cast _ ty _ => MirFunc.castAllows t ty
  | .phi .. => false
  | .const .. | .op .. => true

/-- The terminator takes a word of type `t` for the value `v`. -/
def MirFunc.termTakes (f : MirFunc) (v : ValueId) (t : MirTy) : Terminator → Bool
  | .ret lo hi =>
    (lo ≠ some v ∨ f.retTy.all fun u ↦ t.le u || t = u) ∧
      (hi ≠ some v ∨ f.retHiTy.all fun u ↦ t.le u || t = u)
  | _ => true

section

variable {strength : Bool} {f : MirFunc} {pre post : List MirInst} {i : MirInst} {v : ValueId}
  {preds preds' : List BlockId} {r : ValueId → ValueId}

/-- The types a binary operation takes. -/
def binTypes (op : MirBinOp) (ty lt rt : MirTy) : Bool :=
  if MirFunc.heapBit op ty lt rt then MirFunc.heapOrInt lt && MirFunc.heapOrInt rt
  else if ty = .bool then (op = .bitAnd ∨ op = .bitOr) && lt = .bool && rt = .bool
  else ty.isNumeric && (!op.requiresInt || ty.isInt) && op.takes ty && (lt = ty && rt = ty)

theorem checkBin_eq_ok {d l r' : ValueId} {op : MirBinOp} {ty : MirTy} :
    f.checkBin d op ty l r' = .ok () ↔ binTypes op ty (f.ty l) (f.ty r') = true ∧ f.ty d = ty := by
  unfold MirFunc.checkBin binTypes
  by_cases hheap : MirFunc.heapBit op ty (f.ty l) (f.ty r') = true
  · simp only [hheap, if_true, except_bind_eq_ok, ensure_eq_ok, decide_eq_true_eq, exists_const]
  · by_cases hbool : ty = .bool
    · subst hbool
      simp only [hheap, if_true, Bool.false_eq_true, if_false, except_bind_eq_ok, ensure_eq_ok,
        decide_eq_true_eq, exists_const]
    · simp only [hheap, hbool, Bool.false_eq_true, if_false, except_bind_eq_ok, ensure_eq_ok,
        decide_eq_true_eq, exists_const, Bool.and_eq_true]
      tauto

theorem heapOrInt_of_step {t t' : MirTy} (h : MirFunc.heapOrInt t = true)
    (ht : t' = t ∨ t = .i64 ∧ t'.isHeapWord = true) : MirFunc.heapOrInt t' = true := by
  rcases ht with rfl | ⟨-, h'⟩
  · exact h
  · simp [MirFunc.heapOrInt, h']

theorem isHeapWord_of_step {t t' : MirTy} (h : t.isHeapWord = true)
    (ht : t' = t ∨ t = .i64 ∧ t'.isHeapWord = true) : t'.isHeapWord = true := by
  rcases ht with rfl | ⟨-, h'⟩
  · exact h
  · exact h'

theorem binTypes_of_bitwise {op : MirBinOp} {ty lt rt lt' rt' : MirTy}
    (hop : op = .bitAnd ∨ op = .bitOr ∨ op = .xor) (h : binTypes op ty lt rt = true)
    (hl : lt' = lt ∨ lt = .i64 ∧ lt'.isHeapWord = true)
    (hr : rt' = rt ∨ rt = .i64 ∧ rt'.isHeapWord = true) : binTypes op ty lt' rt' = true := by
  have hheap : ∀ {a b}, MirFunc.heapBit op ty a b = true ↔
      ty.isHeapWord = true ∨ a.isHeapWord = true ∨ b.isHeapWord = true := by
    intro a b
    simp [MirFunc.heapBit, hop, or_assoc]
  by_cases hb : MirFunc.heapBit op ty lt rt = true
  · have hb' : MirFunc.heapBit op ty lt' rt' = true := by
      rw [hheap] at hb ⊢
      exact hb.imp_right (Or.imp (isHeapWord_of_step · hl) (isHeapWord_of_step · hr))
    rw [binTypes, if_pos hb, Bool.and_eq_true] at h
    rw [binTypes, if_pos hb', Bool.and_eq_true]
    exact ⟨heapOrInt_of_step h.1 hl, heapOrInt_of_step h.2 hr⟩
  · have h₀ := h
    rw [binTypes, if_neg hb] at h
    by_cases hbool : ty = .bool
    · rw [if_pos hbool] at h
      simp only [Bool.and_eq_true, decide_eq_true_eq] at h
      obtain rfl : lt' = lt := hl.resolve_right fun hl ↦ by rw [h.1.2] at hl; cases hl.1
      obtain rfl : rt' = rt := hr.resolve_right fun hr ↦ by rw [h.2] at hr; cases hr.1
      exact h₀
    · rw [if_neg hbool] at h
      simp only [Bool.and_eq_true, decide_eq_true_eq] at h
      obtain ⟨⟨⟨hnum, -⟩, -⟩, rfl, rfl⟩ := h
      have hty : rt = .i64 := by simpa [MirTy.isNumeric, hbool] using hnum
      subst hty
      have hint : MirFunc.heapOrInt .i64 = true := rfl
      by_cases hb' : MirFunc.heapBit op .i64 lt' rt' = true
      · rw [binTypes, if_pos hb', Bool.and_eq_true]
        exact ⟨heapOrInt_of_step hint hl, heapOrInt_of_step hint hr⟩
      · rw [hheap] at hb'
        obtain rfl : lt' = .i64 := hl.resolve_right fun hl ↦ hb' (.inr (.inl hl.2))
        obtain rfl : rt' = .i64 := hr.resolve_right fun hr ↦ hb' (.inr (.inr hr.2))
        exact h₀

theorem binTypes_of_not_bitwise {op : MirBinOp} {ty lt rt : MirTy}
    (hop : ¬(op = .bitAnd ∨ op = .bitOr ∨ op = .xor)) : binTypes op ty lt rt =
      (ty.isNumeric && (!op.requiresInt || ty.isInt) && op.takes ty && (lt = ty && rt = ty) &&
        ty ≠ .bool) := by
  have hb : ¬MirFunc.heapBit op ty lt rt = true := by simp [MirFunc.heapBit, hop]
  rw [binTypes, if_neg hb]
  by_cases hbool : ty = .bool
  · have hop' : ¬(op = .bitAnd ∨ op = .bitOr) := fun h ↦ hop (h.imp_right .inl)
    simp [hbool, hop']
  · simp [hbool]

/-- **Which types an instruction takes in place of its operands' types**, when an `i64` may become a heap
word. -/
theorem checkInst_rewriteValues (preds' : List BlockId) (hphi : i.isPhi = false) (hi : f.checkInst preds i = .ok ())
    (hr : ∀ o ∈ i.operands, f.ty (r o) = f.ty o ∨ f.ty o = .i64 ∧ (f.ty (r o)).isHeapWord = true) :
    f.checkInst preds' (i.rewriteValues r) = .ok () ↔
      ∀ o ∈ i.operands, f.ty (r o) = f.ty o ∨ i.takes (f.ty (r o)) = true := by
  cases i with
  | const d c => simpa [MirInst.operands, MirFunc.checkInst, MirInst.rewriteValues] using hi
  | phi d ty args => cases hphi
  | op d k args => simp [MirInst.takes, MirFunc.checkInst, MirInst.rewriteValues]
  | unary d op src =>
    simp only [MirInst.operands, List.mem_singleton, forall_eq] at hr ⊢
    cases op with
    | neg =>
      simp only [MirFunc.checkInst, MirInst.rewriteValues, MirFunc.checkUnary, except_bind_eq_ok,
        ensure_eq_ok, decide_eq_true_eq, exists_const, MirInst.takes, MirTy.isInt] at hi ⊢
      rw [hi.1, hi.2, hi.1]
      simp only [reduceCtorEq, or_false, and_iff_left_iff_imp]
      exact Eq.symm
    | not =>
      simp only [MirFunc.checkInst, MirInst.rewriteValues, MirFunc.checkUnary, except_bind_eq_ok,
        ensure_eq_ok, decide_eq_true_eq, exists_const, MirInst.takes, or_true, iff_true] at hi ⊢
      refine ⟨hi.1, ?_⟩
      rcases hr with hr | ⟨-, hr⟩
      · rw [hr]
        exact hi.2
      · rw [hr, Bool.or_true]
  | cast d ty src =>
    simp only [MirInst.operands, List.mem_singleton, forall_eq] at hr ⊢
    simp only [MirFunc.checkInst, MirInst.rewriteValues, ensure_eq_ok, Bool.and_eq_true,
      decide_eq_true_eq, MirInst.takes] at hi ⊢
    constructor
    · rintro ⟨h, -⟩
      exact .inr h
    · rintro (h | h)
      · rw [h]
        exact hi
      · exact ⟨h, hi.2⟩
  | cmp d op ty l r' =>
    simp only [MirInst.operands, List.mem_cons, List.not_mem_nil, or_false, forall_eq_or_imp,
      forall_eq] at hr ⊢
    simp only [MirFunc.checkInst, MirInst.rewriteValues, MirFunc.checkCmp, MirInst.takes] at hi ⊢
    split at hi
    · rename_i hheap
      simp only [except_bind_eq_ok, ensure_eq_ok, Bool.and_eq_true, decide_eq_true_eq, exists_const]
        at hi
      simp only [hheap, if_true, except_bind_eq_ok, ensure_eq_ok, Bool.and_eq_true,
        decide_eq_true_eq, exists_const, or_true, and_self, iff_true]
      exact ⟨⟨heapOrInt_of_step hi.1.1 hr.1, heapOrInt_of_step hi.1.2 hr.2⟩, hi.2⟩
    · rename_i hheap
      simp only [except_bind_eq_ok, ensure_eq_ok, Bool.and_eq_true, decide_eq_true_eq, exists_const]
        at hi
      simp only [hheap, Bool.false_eq_true, if_false, except_bind_eq_ok, ensure_eq_ok,
        Bool.and_eq_true, decide_eq_true_eq, exists_const, or_false]
      rw [hi.2.1.1, hi.2.1.2]
      tauto
  | bin d op ty l r' =>
    simp only [MirInst.operands, List.mem_cons, List.not_mem_nil, or_false, forall_eq_or_imp,
      forall_eq] at hr ⊢
    simp only [MirFunc.checkInst, MirInst.rewriteValues, checkBin_eq_ok, MirInst.takes,
      decide_eq_true_eq] at hi ⊢
    by_cases hop : op = .bitAnd ∨ op = .bitOr ∨ op = .xor
    · simp only [hop, or_true, and_self, iff_true]
      exact ⟨binTypes_of_bitwise hop hi.1 hr.1 hr.2, hi.2⟩
    · simp only [hop, or_false]
      rw [binTypes_of_not_bitwise hop] at hi ⊢
      simp only [Bool.and_eq_true, decide_eq_true_eq] at hi ⊢
      rw [hi.1.1.2.1, hi.1.1.2.2]
      tauto

/-! ### Types along the scan -/

theorem identity_ty {op : MirBinOp} {ty : MirTy} {l r' k : ValueId} {lc rc : Option MirConst}
    (h : identity op ty l r' lc rc = some k) : ty = .i64 := by
  have hint : ∀ {n : Word} {c : Option MirConst}, isInt n ty c = true → ty = .i64 :=
    fun hc ↦ (isInt_iff.1 hc).1
  cases op with
  | rem | pow => cases h
  | sub | div | bitOr | xor | shl | shr =>
    simp only [identity] at h
    split at h
    · exact hint ‹_›
    · cases h
  | add | mul | bitAnd =>
    simp only [identity] at h
    split at h
    · exact hint ‹_›
    · split at h
      · exact hint ‹_›
      · cases h

theorem foldBin_subst_ty {consts : Consts} {d l r' k : ValueId} {op : MirBinOp} {ty : MirTy}
    (h : foldBin strength consts d op ty l r' = .subst k) : ty = .i64 := by
  simp only [foldBin] at h
  split at h
  · cases h
  · split at h
    · exact identity_ty ‹_›
    · split at h
      · cases h
      · split at h
        · split at h <;> cases h
        · cases h

/-- A folded constant has the type of its instruction. -/
theorem foldInst_toConst_ty {consts : Consts} {c : MirConst} (hi : f.checkInst preds i = .ok ())
    (h : foldInst strength consts (i.rewriteValues r) = .toConst c) : f.ty i.dest = c.ty := by
  cases i with
  | const | phi | op | cast => cases h
  | bin d op ty l r' =>
    simp only [MirFunc.checkInst, checkBin_eq_ok] at hi
    rw [MirInst.dest, hi.2]
    simp only [MirInst.rewriteValues, foldInst, foldBin] at h
    split at h
    · rename_i c' hc
      cases h
      obtain ⟨a, -, hc⟩ := Option.bind_eq_some_iff.1 hc
      obtain ⟨b, -, hc⟩ := Option.bind_eq_some_iff.1 hc
      unfold evalBinConst at hc
      split at hc
      · obtain ⟨w, -, rfl⟩ := Option.map_eq_some_iff.1 hc
        rfl
      · cases hc
    split at h
    · cases h
    split at h
    · rename_i zero hz
      cases h
      unfold zeroing at hz
      split at hz
      · rename_i hint
        have hty : ty = .i64 := by simpa [MirTy.isInt] using hint
        rw [hty]
        cases op <;> simp only at hz <;> first | cases hz | (split at hz <;> cases hz; rfl)
      · cases hz
    split at h
    · split at h <;> cases h
    · cases h
  | cmp d op ty l r' =>
    simp only [MirFunc.checkInst, MirFunc.checkCmp] at hi
    have hd : f.ty d = .bool := by
      split at hi
      · simp only [except_bind_eq_ok, ensure_eq_ok, decide_eq_true_eq, exists_const] at hi
        exact hi.2
      · simp only [except_bind_eq_ok, ensure_eq_ok, decide_eq_true_eq, exists_const] at hi
        exact hi.2.2
    simp only [MirInst.rewriteValues, foldInst] at h
    split at h
    · cases h
      exact hd
    · cases h
  | unary d op src =>
    cases op with
    | neg =>
      simp only [MirFunc.checkInst, MirFunc.checkUnary, except_bind_eq_ok, ensure_eq_ok,
        decide_eq_true_eq, exists_const, MirTy.isInt] at hi
      simp only [MirInst.rewriteValues, foldInst] at h
      split at h
      · rename_i n hn
        cases h
        obtain ⟨x, -, hn⟩ := Option.bind_eq_some_iff.1 hn
        cases x with
        | bool b => cases hn
        | i64 v =>
          obtain ⟨w, -, rfl⟩ := Option.map_eq_some_iff.1 hn
          exact hi.2.trans hi.1
      · cases h
    | not =>
      simp only [MirFunc.checkInst, MirFunc.checkUnary, except_bind_eq_ok, ensure_eq_ok,
        decide_eq_true_eq, exists_const] at hi
      simp only [MirInst.rewriteValues, foldInst] at h
      split at h
      · cases h
        exact hi.1
      · cases h

/-- The constants have the types of their values; what is replaced is an `i64`, by an `i64` or a heap
word. -/
structure Scan.Typed (f : MirFunc) (s : Scan) : Prop where
  const : ∀ {v c}, s.consts v = some c → f.ty v = c.ty
  subst : ∀ {v k}, s.subst v = some k → f.ty v = .i64 ∧ MirFunc.heapOrInt (f.ty k) = true

theorem WellFormed.checkInst_of_mem (hf : WellFormed f) (hi : i ∈ f.insts) :
    ∃ preds, f.checkInst preds i = .ok () := by
  obtain ⟨b, hb, hi⟩ := List.mem_flatMap.1 hi
  exact ⟨_, hf.checked b hb i hi⟩

/-- The operands of an `i64` operation are `i64`s or heap words. -/
theorem heapOrInt_of_binTypes {op : MirBinOp} {lt rt : MirTy} (h : binTypes op .i64 lt rt = true) :
    MirFunc.heapOrInt lt = true ∧ MirFunc.heapOrInt rt = true := by
  unfold binTypes at h
  split at h
  · exact Bool.and_eq_true_iff.1 h
  · rw [if_neg (by decide)] at h
    simp only [Bool.and_eq_true, decide_eq_true_eq] at h
    obtain ⟨-, rfl, rfl⟩ := h
    exact ⟨rfl, rfl⟩

theorem MirFunc.Ordered.typed (ho : f.Ordered) (hf : WellFormed f) (hpre : pre <+: f.insts) :
    (f.scan strength pre).Typed f := by
  refine MirFunc.scan_induction (P := fun _ s ↦ s.Typed f) ?_ ?_ hpre
  · refine ⟨fun hc ↦ ?_, fun h ↦ (by cases h)⟩
    obtain ⟨preds, hchk⟩ := hf.checkInst_of_mem (constsOf_eq_some hc)
    simpa [MirFunc.checkInst, ensure_eq_ok] using hchk
  · intro pre i post s' out hsplit h hstep
    have hs : (f.scan strength pre).Settled f pre := ho.settled ⟨_, hsplit.symm⟩
    obtain ⟨preds, hchk⟩ := hf.checkInst_of_mem (i := i) (by simp [hsplit])
    rcases combineInst_cases hstep with ⟨heq, heq', -⟩ | ⟨keep, hfold, heq, heq', -⟩ |
      ⟨c, hfold, heq, heq', -⟩ | ⟨i', -, heq, heq', -⟩
    · exact ⟨fun hc ↦ h.const (heq' ▸ hc), fun hk ↦ h.subst (heq ▸ hk)⟩
    · refine ⟨fun hc ↦ h.const (heq' ▸ hc), fun {v k} hk ↦ ?_⟩
      rw [heq] at hk
      by_cases hvi : v = i.dest
      · subst hvi
        rw [Function.update_self] at hk
        obtain rfl := Option.some.inj hk
        obtain ⟨hmem, d, op, ty, x, y, hbin⟩ := foldInst_eq_subst hfold
        obtain ⟨l, r, rfl, rfl, rfl⟩ := rewriteValues_eq_bin hbin
        obtain rfl : ty = .i64 := foldBin_subst_ty hfold
        simp only [MirFunc.checkInst, checkBin_eq_ok] at hchk
        obtain ⟨hl, hr⟩ := heapOrInt_of_binTypes hchk.1
        rw [MirInst.operands_rewriteValues] at hmem
        obtain ⟨o, hoi, rfl⟩ := List.mem_map.1 hmem
        refine ⟨hchk.2, ?_⟩
        rw [hs.resolve]
        cases hso : (f.scan strength pre).subst o with
        | some k => exact (h.subst hso).2
        | none =>
          simp only [MirInst.operands, List.mem_cons, List.not_mem_nil, or_false] at hoi
          rcases hoi with rfl | rfl
          · exact hl
          · exact hr
      · rw [Function.update_of_ne hvi] at hk
        exact h.subst hk
    · refine ⟨fun {v c'} hc ↦ ?_, fun hk ↦ h.subst (heq ▸ hk)⟩
      rw [heq'] at hc
      by_cases hvi : v = i.dest
      · subst hvi
        rw [Function.update_self] at hc
        obtain rfl := Option.some.inj hc
        rcases hfold with hfold | hconst
        · exact foldInst_toConst_ty hchk hfold
        · cases i with
          | const d c' =>
            cases hconst
            have hd : f.ty d = c.ty := by simpa [MirFunc.checkInst, ensure_eq_ok] using hchk
            exact hd
          | _ => cases hconst
      · rw [Function.update_of_ne hvi] at hc
        exact h.const hc
    · exact ⟨fun hc ↦ h.const (heq' ▸ hc), fun hk ↦ h.subst (heq ▸ hk)⟩

/-- Only an `i64` changes its type, to that of a heap word. -/
theorem MirFunc.Ordered.kept_ty (strength : Bool) (ho : f.Ordered) (hf : WellFormed f) (v : ValueId) :
    f.ty (f.kept strength v) = f.ty v ∨
      f.ty v = .i64 ∧ (f.ty (f.kept strength v)).isHeapWord = true := by
  have hs : (f.scan strength f.insts).Settled f f.insts := ho.settled (List.prefix_refl _)
  have ht : (f.scan strength f.insts).Typed f := ho.typed hf (List.prefix_refl _)
  rw [MirFunc.kept, hs.resolve]
  cases hv : (f.scan strength f.insts).subst v with
  | none => exact .inl rfl
  | some k =>
    obtain ⟨hint, hk⟩ := ht.subst hv
    simp only [MirFunc.heapOrInt, Bool.or_eq_true, decide_eq_true_eq] at hk
    rw [hint, Option.getD_some]
    exact hk.elim (fun h ↦ .inr ⟨rfl, h⟩) .inl

theorem foldInst_eq_rewrite {consts : Consts} {i' : MirInst}
    (h : foldInst strength consts i = .rewrite i') :
    ∃ d x y, i = .bin d .mul .i64 x y ∧ ((i' = .bin d .add .i64 x x ∧ consts y = some (.i64 2)) ∨
      (i' = .bin d .add .i64 y y ∧ consts x = some (.i64 2))) := by
  cases i with
  | const | phi | op | cast => cases h
  | cmp d op ty l r =>
    simp only [foldInst] at h
    split at h <;> cases h
  | unary d op src =>
    cases op <;> simp only [foldInst] at h <;> split at h <;> cases h
  | bin d op ty l r =>
    simp only [foldInst, foldBin] at h
    split at h
    · cases h
    split at h
    · cases h
    split at h
    · cases h
    split at h
    swap
    · cases h
    split at h
    swap
    · cases h
    rename_i hmul
    cases h
    unfold strengthMul2 at hmul
    split at hmul
    swap
    · cases hmul
    rename_i hop
    subst hop
    split at hmul
    · obtain ⟨rfl, hc⟩ := isInt_iff.1 ‹_›
      cases hmul
      exact ⟨d, l, r, rfl, .inl ⟨rfl, hc⟩⟩
    split at hmul
    · obtain ⟨rfl, hc⟩ := isInt_iff.1 ‹_›
      cases hmul
      exact ⟨d, l, r, rfl, .inr ⟨rfl, hc⟩⟩
    · cases hmul

theorem binTypes_mul {lt rt : MirTy} :
    binTypes .mul .i64 lt rt = true ↔ lt = .i64 ∧ rt = .i64 := by
  cases lt <;> cases rt <;> decide

theorem binTypes_add {lt rt : MirTy} :
    binTypes .add .i64 lt rt = true ↔ lt = .i64 ∧ rt = .i64 := by
  cases lt <;> cases rt <;> decide

theorem MirFunc.Ordered.resolve_eq_kept (ho : f.Ordered) (hpre : pre <+: f.insts)
    (hv : v ∈ f.seen pre) : (f.scan strength pre).resolve f v = f.kept strength v := by
  have hs : (f.scan strength pre).Settled f pre := ho.settled hpre
  have hn : (f.scan strength f.insts).Settled f f.insts := ho.settled (List.prefix_refl _)
  rw [MirFunc.kept, hs.resolve, hn.resolve, ho.subst_of_seen hpre (List.prefix_refl _) hv]

/-- **When what is left of an instruction has the right types**: it is a constant, or takes the types of
the values kept. -/
theorem MirFunc.Ordered.outInst_check (ho : f.Ordered) (hf : WellFormed f)
    (hsplit : f.insts = pre ++ i :: post) (hphi : i.isPhi = false)
    (hkept : f.replaced strength i.dest = false) :
    f.checkInst preds' (f.outInst strength pre i) = .ok () ↔
      (∃ c, f.outInst strength pre i = .const i.dest c) ∨ ∀ o ∈ i.operands,
        f.ty (f.kept strength o) = f.ty o ∨ i.takes (f.ty (f.kept strength o)) = true := by
  obtain ⟨preds, hchk⟩ := hf.checkInst_of_mem (i := i) (by simp [hsplit])
  have hpre : pre <+: f.insts := ⟨_, hsplit.symm⟩
  have htyped : (f.scan strength pre).Typed f := ho.typed hf hpre
  have hiff := checkInst_rewriteValues preds' hphi hchk fun o _ ↦
    ho.kept_ty strength hf o
  rcases ho.outInst_cases _ hsplit with ⟨-, hout⟩ | ⟨keep, -, hrep⟩ | ⟨c, hfold, -, hout⟩ |
    ⟨i', hfold, -, hout⟩
  · rw [hout, hiff]
    constructor
    · exact .inr
    · rintro (⟨c, hc⟩ | h)
      · cases i with
        | const d c' =>
          intro o hoi
          cases hoi
        | _ => cases hc
      · exact h
  · rw [hrep] at hkept
    cases hkept
  · refine iff_of_true ?_ (.inl ⟨c, hout⟩)
    have hty : f.ty i.dest = c.ty := by
      rcases hfold with hfold | hconst
      · exact foldInst_toConst_ty hchk hfold
      · cases i with
        | const d c' =>
          cases hconst
          have hd : f.ty d = c.ty := by simpa [MirFunc.checkInst, ensure_eq_ok] using hchk
          exact hd
        | _ => cases hconst
    rw [hout]
    simp only [MirFunc.checkInst, ensure_eq_ok, hty, decide_true]
  · -- a doubling: the operand that is not added is the constant two, an `i64`
    obtain ⟨d, x, y, hmul, hcase⟩ := foldInst_eq_rewrite hfold
    obtain ⟨l, r, rfl, rfl, rfl⟩ := rewriteValues_eq_bin hmul
    simp only [MirFunc.checkInst, checkBin_eq_ok, binTypes_mul] at hchk
    obtain ⟨⟨hl, hr⟩, hd⟩ := hchk
    have hres : ∀ o, f.kept strength ((f.scan strength pre).resolve f o) = f.kept strength o :=
      ho.resolve_resolve _ hpre
    have htwo : ∀ o ∈ (MirInst.bin d .mul .i64 l r).operands,
        (f.scan strength pre).consts ((f.scan strength pre).resolve f o) = some (.i64 2) →
          f.ty (f.kept strength o) = .i64 := by
      intro o hoi hc
      rw [← ho.resolve_eq_kept hpre (ho.operands hsplit rfl o hoi)]
      exact htyped.const hc
    simp only [MirInst.operands, List.mem_cons, List.not_mem_nil, or_false, forall_eq_or_imp,
      forall_eq] at htwo ⊢
    rw [hout, hl, hr]
    rcases hcase with ⟨rfl, hc⟩ | ⟨rfl, hc⟩
    · simp only [MirInst.rewriteValues, hres, MirFunc.checkInst, checkBin_eq_ok, binTypes_add, hd,
        MirInst.takes, htwo.2 hc]
      simp
    · simp only [MirInst.rewriteValues, hres, MirFunc.checkInst, checkBin_eq_ok, binTypes_add, hd,
        MirInst.takes, htwo.1 hc]
      simp

end

end CoilLang.Mir
