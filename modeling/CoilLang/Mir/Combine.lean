import CoilLang.Mir.Instcombine
import CoilLang.Mir.TidySound
import CoilLang.Mir.Verify

/-!
# Instruction combining over a function

`instcombineOnce` scans the instructions in the order of the blocks. It keeps the constants it knows
and, for an instruction that gives one of its operands back, the value that stands for the result;
operands are resolved through these before an instruction is folded. Then the values replaced are gone
everywhere, a branch on a constant becomes a jump, and the block it no longer reaches drops the φ
incomings of the edge.

This module has the scan and what it knows: **every constant and every replacement the scan holds is true
of the current words of the available values** (`Scan.Facts`), at any point of a run, because
available values satisfy their definitions (`MirFunc.Solved`). A replacement never leads to another one,
since an operand is defined before its use in the order of the blocks (`Ordered`), so the loop of `resolve`
ends after one step.
-/

namespace CoilLang.Mir

/-! ### The pass -/

/-- The constants that instructions define. -/
def constsOf (is : List MirInst) : Consts :=
  is.foldl (fun m i ↦ match i with
    | .const d c => Function.update m d (some c)
    | _ => m) fun _ ↦ none

/-- What the scan over the instructions knows, and how many instructions it rewrote. The values that are
replaced are those whose instructions are dropped. -/
structure Scan where
  consts : Consts
  subst : ValueId → Option ValueId
  hits : ℕ

namespace Scan

/-- Follow the replacements of a value. -/
def resolveLoop (subst : ValueId → Option ValueId) : ℕ → ValueId → ValueId
  | 0, v => v
  | n + 1, v =>
    match subst v with
    | some k => if k = v then v else resolveLoop subst n k
    | none => v

def resolve (f : MirFunc) (s : Scan) (v : ValueId) : ValueId :=
  resolveLoop s.subst (f.types.length + 1) v

end Scan

/-- Fold one instruction, its operands resolved. -/
def combineInst (strength : Bool) (f : MirFunc) (s : Scan) (inst : MirInst) : Scan × MirInst :=
  let i := inst.rewriteValues (s.resolve f)
  match i with
  | .phi .. => (s, i)
  | .const d c => ({ s with consts := Function.update s.consts d (some c) }, i)
  | i =>
    match foldInst strength s.consts i with
    | .subst keep =>
      ({ s with subst := Function.update s.subst i.dest (some keep), hits := s.hits + 1 }, i)
    | .toConst c =>
      ({ s with consts := Function.update s.consts i.dest (some c), hits := s.hits + 1 },
        .const i.dest c)
    | .rewrite i' => ({ s with hits := s.hits + 1 }, i')
    | .none => (s, i)

def combineInsts (strength : Bool) (f : MirFunc) : Scan → List MirInst → Scan × List MirInst
  | s, [] => (s, [])
  | s, i :: is =>
    let (s', i') := combineInst strength f s i
    let (s'', is') := combineInsts strength f s' is
    (s'', i' :: is')

def combineBlocks (strength : Bool) (f : MirFunc) : Scan → List MirBlock → Scan × List MirBlock
  | s, [] => (s, [])
  | s, b :: bs =>
    let (s', is') := combineInsts strength f s b.insts
    let b' := { b with insts := is', term := b.term.map (Terminator.rewriteValues (s'.resolve f)) }
    let (s'', bs') := combineBlocks strength f s' bs
    (s'', b' :: bs')

/-- Replace the values everywhere and drop their instructions. -/
def Scan.settle (f : MirFunc) (s : Scan) (b : MirBlock) : MirBlock :=
  { b with
    insts := (b.insts.map (MirInst.rewriteValues (s.resolve f))).filter fun i ↦
      (s.subst i.dest).isNone
    term := b.term.map (Terminator.rewriteValues (s.resolve f)) }

/-- A branch on a known constant: where it goes, and the successor it no longer reaches. -/
def knownBranch (known : Consts) (b : MirBlock) : Option (BlockId × BlockId) :=
  match b.term with
  | some (.br cond taken notTaken) =>
    match known cond with
    | some (.bool c) => some (if c then (taken, notTaken) else (notTaken, taken))
    | _ => none
  | _ => none

def foldBranch (known : Consts) (b : MirBlock) : MirBlock :=
  match knownBranch known b with
  | some (dest, _) => b.setTerm (.jump dest)
  | none => b

/-- The edges that go with the folded branches. -/
def deadEdges (known : Consts) (blocks : List MirBlock) : List (BlockId × BlockId) :=
  blocks.filterMap fun b ↦
    match knownBranch known b with
    | some (dest, dead) => if dead ≠ dest then some (b.id, dead) else none
    | none => none

/-- The join that an edge no longer reaches drops the φ inputs of that edge. -/
def dropEdge (blocks : List MirBlock) (e : BlockId × BlockId) : List MirBlock :=
  blocks.modify (blocks.findIdx (·.id = e.2)) (MirBlock.mapInsts (dropArg e.1))

/-- One round of instruction combining, with the number of rewrites. -/
def instcombineOnce (strength : Bool) (f : MirFunc) : MirFunc × ℕ :=
  let (s, blocks) := combineBlocks strength f ⟨constsOf f.insts, fun _ ↦ none, 0⟩ f.blocks
  let blocks := blocks.map (s.settle f)
  let known := constsOf (blocks.flatMap MirBlock.insts)
  let folded := blocks.filterMap (knownBranch known)
  ({ f with blocks := (deadEdges known blocks).foldl dropEdge (blocks.map (foldBranch known)) },
    s.hits + folded.length)

/-! ### One step of the scan -/

section

variable {strength : Bool} {f : MirFunc} {s : Scan} {inst : MirInst}

/-- **What one step can do**: nothing, replace the result by an operand, make it a constant, or
rewrite the instruction. -/
theorem combineInst_cases {s' : Scan} {out : MirInst} (h : combineInst strength f s inst = (s', out)) :
    let i := inst.rewriteValues (s.resolve f)
    (s'.subst = s.subst ∧ s'.consts = s.consts ∧ out = i) ∨
    (∃ keep, foldInst strength s.consts i = .subst keep ∧
      s'.subst = Function.update s.subst inst.dest (some keep) ∧ s'.consts = s.consts ∧ out = i) ∨
    (∃ c, (foldInst strength s.consts i = .toConst c ∨ i = .const inst.dest c) ∧
      s'.subst = s.subst ∧ s'.consts = Function.update s.consts inst.dest (some c) ∧
      out = .const inst.dest c) ∨
    (∃ i', foldInst strength s.consts i = .rewrite i' ∧ s'.subst = s.subst ∧
      s'.consts = s.consts ∧ out = i') := by
  intro i
  have hdest : i.dest = inst.dest := MirInst.rewriteValues_dest _ _
  have hi : inst.rewriteValues (s.resolve f) = i := rfl
  clear_value i
  simp only [combineInst, hi] at h
  split at h
  · cases h
    exact .inl ⟨rfl, rfl, rfl⟩
  · rename_i d c
    obtain rfl : d = inst.dest := hdest
    cases h
    exact .inr (.inr (.inl ⟨c, .inr rfl, rfl, rfl, rfl⟩))
  · split at h
    · rename_i keep hfold
      cases h
      exact .inr (.inl ⟨keep, hfold, by rw [hdest], rfl, rfl⟩)
    · rename_i c hfold
      cases h
      exact .inr (.inr (.inl ⟨c, .inl hfold, rfl, by rw [hdest], by rw [hdest]⟩))
    · rename_i hfold
      cases h
      exact .inr (.inr (.inr ⟨_, hfold, rfl, rfl, rfl⟩))
    · cases h
      exact .inl ⟨rfl, rfl, rfl⟩

/-- Only an operation on two values gives an operand back. -/
theorem foldInst_eq_subst {consts : Consts} {i : MirInst} {k : ValueId}
    (h : foldInst strength consts i = .subst k) :
    k ∈ i.operands ∧ ∃ d op ty l r, i = .bin d op ty l r := by
  have hsound : (foldInst strength consts i).Sound (fun v ↦ (consts v).elim 0 MirConst.word) i :=
    foldInst_sound fun v _ c hc ↦ by rw [hc, Option.elim_some]
  rw [h] at hsound
  refine ⟨hsound.2, ?_⟩
  cases i with
  | bin d op ty l r => exact ⟨d, op, ty, l, r, rfl⟩
  | cmp d op ty l r =>
    simp only [foldInst] at h
    split at h <;> cases h
  | unary d op src =>
    cases op <;> simp only [foldInst] at h <;> split at h <;> cases h
  | const | cast | phi | op => cases h

theorem rewriteValues_eq_bin {r : ValueId → ValueId} {d x y : ValueId} {op : MirBinOp} {ty : MirTy}
    (h : inst.rewriteValues r = .bin d op ty x y) :
    ∃ l r', inst = .bin d op ty l r' ∧ x = r l ∧ y = r r' := by
  cases inst with
  | bin d' op' ty' l r' =>
    cases h
    exact ⟨l, r', rfl, rfl, rfl⟩
  | _ => cases h

/-- A replaced value is the result of an operation seen before, the value kept was there as well, and it
is not replaced itself. -/
structure Scan.Settled (f : MirFunc) (pre : List MirInst) (s : Scan) : Prop where
  dom : ∀ {v k}, s.subst v = some k → ∃ op ty l r, MirInst.bin v op ty l r ∈ pre
  ran : ∀ {v k}, s.subst v = some k → k ∈ f.seen pre
  idem : ∀ {v k}, s.subst v = some k → s.subst k = none

/-- **The loop of `resolve` ends after one step.** -/
theorem Scan.Settled.resolve {pre : List MirInst} (h : s.Settled f pre) (v : ValueId) :
    s.resolve f v = (s.subst v).getD v := by
  unfold Scan.resolve Scan.resolveLoop
  cases hv : s.subst v with
  | none => rfl
  | some k =>
    have hk := h.idem hv
    simp only [Option.getD_some]
    split
    · rename_i heq
      exact heq.symm
    · cases f.types.length with
      | zero => rfl
      | succ n => rw [Scan.resolveLoop, hk]

theorem Scan.Settled.subst_resolve {pre : List MirInst} (h : s.Settled f pre) (v : ValueId) :
    s.subst (s.resolve f v) = none := by
  rw [h.resolve]
  cases hv : s.subst v with
  | none => exact hv
  | some k => exact h.idem hv

theorem Scan.Settled.resolve_mem_seen {pre : List MirInst} (h : s.Settled f pre) {v : ValueId}
    (hv : v ∈ f.seen pre) : s.resolve f v ∈ f.seen pre := by
  rw [h.resolve]
  cases hk : s.subst v with
  | none => exact hv
  | some k => exact h.ran hk

theorem MirFunc.seen_subset {pre pre' : List MirInst} (h : pre <+: pre') :
    f.seen pre ⊆ f.seen pre' := by
  obtain ⟨t, rfl⟩ := h
  intro v hv
  simp only [MirFunc.seen, List.flatMap_append, List.mem_append] at hv ⊢
  tauto

theorem Scan.Settled.mem_seen {pre : List MirInst} (h : s.Settled f pre) {v k : ValueId}
    (hv : s.subst v = some k) : v ∈ f.seen pre := by
  obtain ⟨op, ty, l, r, hmem⟩ := h.dom hv
  exact List.mem_append_right _ (List.mem_flatMap.2 ⟨_, hmem, MirInst.dest_mem_dests _⟩)

theorem Scan.Settled.combineInst {pre post : List MirInst} (hf : f.Ordered)
    (hsplit : f.insts = pre ++ inst :: post) (h : s.Settled f pre) {s' : Scan} {out : MirInst}
    (hstep : combineInst strength f s inst = (s', out)) : s'.Settled f (pre ++ [inst]) := by
  have hsub : f.seen pre ⊆ f.seen (pre ++ [inst]) := MirFunc.seen_subset (List.prefix_append _ _)
  -- a step that replaces nothing
  have hsame : s'.subst = s.subst → s'.Settled f (pre ++ [inst]) := by
    intro heq
    refine ⟨fun hv ↦ ?_, fun hv ↦ hsub (h.ran (heq ▸ hv)), fun hv ↦ heq ▸ h.idem (heq ▸ hv)⟩
    obtain ⟨op, ty, l, r, hmem⟩ := h.dom (heq ▸ hv)
    exact ⟨op, ty, l, r, List.mem_append_left _ hmem⟩
  rcases combineInst_cases hstep with ⟨heq, -⟩ | ⟨keep, hfold, heq, -⟩ | ⟨c, -, heq, -⟩ |
    ⟨i', -, heq, -⟩
  · exact hsame heq
  · obtain ⟨hkeep, d, op, ty, x, y, hbin⟩ := foldInst_eq_subst hfold
    obtain ⟨l, r, rfl, rfl, rfl⟩ := rewriteValues_eq_bin hbin
    have hnew := hf.fresh hsplit d List.mem_cons_self
    -- the value kept is an operand, resolved
    rw [MirInst.operands_rewriteValues] at hkeep
    obtain ⟨o, ho, rfl⟩ := List.mem_map.1 hkeep
    have hk := h.resolve_mem_seen (hf.operands hsplit rfl o ho)
    have hkd : s.resolve f o ≠ d := fun heq ↦ hnew (heq ▸ hk)
    have hval : ∀ {v k}, s'.subst v = some k →
        (v = d ∧ k = s.resolve f o) ∨ (v ≠ d ∧ s.subst v = some k) := by
      intro v k hv
      rw [heq] at hv
      by_cases hvd : v = d
      · subst hvd
        rw [show (MirInst.bin v op ty l r).dest = v from rfl, Function.update_self] at hv
        exact .inl ⟨rfl, (Option.some.inj hv).symm⟩
      · rw [show (MirInst.bin d op ty l r).dest = d from rfl, Function.update_of_ne hvd] at hv
        exact .inr ⟨hvd, hv⟩
    refine ⟨fun hv ↦ ?_, fun hv ↦ ?_, fun hv ↦ ?_⟩
    · rcases hval hv with ⟨rfl, rfl⟩ | ⟨-, hv⟩
      · exact ⟨op, ty, l, r, by simp⟩
      · obtain ⟨op', ty', l', r', hmem⟩ := h.dom hv
        exact ⟨op', ty', l', r', List.mem_append_left _ hmem⟩
    · rcases hval hv with ⟨rfl, rfl⟩ | ⟨-, hv⟩
      · exact hsub hk
      · exact hsub (h.ran hv)
    · rw [heq, show (MirInst.bin d op ty l r).dest = d from rfl]
      rcases hval hv with ⟨rfl, rfl⟩ | ⟨-, hv⟩
      · rw [Function.update_of_ne hkd]
        exact h.subst_resolve o
      · rw [Function.update_of_ne]
        · exact h.idem hv
        · rintro rfl
          exact hnew (h.ran hv)
  · exact hsame heq
  · exact hsame heq

end

/-! ### The scan over the function -/

/-- The scan after the instructions `pre`. -/
def MirFunc.scan (strength : Bool) (f : MirFunc) (pre : List MirInst) : Scan :=
  pre.foldl (fun s i ↦ (combineInst strength f s i).1) ⟨constsOf f.insts, fun _ ↦ none, 0⟩

/-- What the scan knows is true of the words of the values in `D`. -/
structure Scan.Facts (s : Scan) (D : ValueId → Prop) (env : Env) : Prop where
  const : ∀ {v c}, D v → s.consts v = some c → env v = c.word
  subst : ∀ {v k}, D v → s.subst v = some k → D k ∧ env k = env v

section

variable {strength : Bool} {f : MirFunc} {pre pre' post : List MirInst} {i : MirInst} {v : ValueId}

theorem MirFunc.scan_append :
    f.scan strength (pre ++ [i]) = (combineInst strength f (f.scan strength pre) i).1 := by
  rw [MirFunc.scan, List.foldl_append]
  rfl

/-- An invariant of the scan holds after every prefix of the instructions. -/
theorem MirFunc.scan_induction {P : List MirInst → Scan → Prop}
    (hnil : P [] (f.scan strength []))
    (hstep : ∀ {pre i post s' out}, f.insts = pre ++ i :: post → P pre (f.scan strength pre) →
      combineInst strength f (f.scan strength pre) i = (s', out) → P (pre ++ [i]) s')
    (hpre : pre <+: f.insts) : P pre (f.scan strength pre) := by
  induction pre using List.reverseRecOn with
  | nil => exact hnil
  | append_singleton pre i ih =>
    obtain ⟨post, hpost⟩ := hpre
    rw [MirFunc.scan_append]
    rw [List.append_assoc] at hpost
    exact hstep hpost.symm (ih ⟨_, hpost⟩) rfl

theorem MirFunc.Ordered.settled (hf : f.Ordered) (hpre : pre <+: f.insts) :
    (f.scan strength pre).Settled f pre := by
  refine MirFunc.scan_induction (P := fun pre s ↦ s.Settled f pre) ?_ ?_ hpre
  · exact ⟨fun h ↦ (by cases h), fun h ↦ (by cases h), fun h ↦ (by cases h)⟩
  · intro pre i post s' out hsplit h hstep
    exact h.combineInst hf hsplit hstep

/-- What is replaced is decided at the definition. -/
theorem MirFunc.Ordered.subst_of_seen (hf : f.Ordered) (hpre : pre <+: pre') (hpre' : pre' <+: f.insts)
    (hv : v ∈ f.seen pre) : (f.scan strength pre').subst v = (f.scan strength pre).subst v := by
  obtain ⟨t, rfl⟩ := hpre
  induction t using List.reverseRecOn with
  | nil => rw [List.append_nil]
  | append_singleton t i ih =>
    obtain ⟨post, hpost⟩ := hpre'
    have hpost' : f.insts = (pre ++ t) ++ i :: post := by
      rw [← hpost]
      simp
    rw [← ih ⟨_, hpost'.symm⟩, ← List.append_assoc, MirFunc.scan_append]
    have hvi : v ≠ i.dest := by
      rintro rfl
      exact hf.fresh hpost' _ i.dest_mem_dests (MirFunc.seen_subset (List.prefix_append _ _) hv)
    cases hstep : combineInst strength f (f.scan strength (pre ++ t)) i with
    | mk s' out =>
      rcases combineInst_cases hstep with ⟨heq, -⟩ | ⟨keep, -, heq, -⟩ | ⟨c, -, heq, -⟩ |
        ⟨i', -, heq, -⟩
      · rw [heq]
      · rw [heq, Function.update_of_ne hvi]
      · rw [heq]
      · rw [heq]

theorem MirFunc.Ordered.resolve_resolve (strength : Bool) (hf : f.Ordered) (hpre : pre <+: f.insts) (v : ValueId) :
    (f.scan strength f.insts).resolve f ((f.scan strength pre).resolve f v) =
      (f.scan strength f.insts).resolve f v := by
  have hs : (f.scan strength pre).Settled f pre := hf.settled hpre
  have hn : (f.scan strength f.insts).Settled f f.insts := hf.settled (List.prefix_refl _)
  by_cases hv : v ∈ f.seen pre
  · have heq : (f.scan strength pre).resolve f v = (f.scan strength f.insts).resolve f v := by
      rw [hs.resolve, hn.resolve, hf.subst_of_seen hpre (List.prefix_refl _) hv]
    rw [heq, hn.resolve (Scan.resolve _ _ _), hn.subst_resolve]
    rfl
  · have hnone : (f.scan strength pre).subst v = none := by
      cases h : (f.scan strength pre).subst v with
      | none => rfl
      | some k => exact absurd (hs.mem_seen h) hv
    rw [hs.resolve, hnone]
    rfl

theorem constsOf_eq_some {is : List MirInst} {c : MirConst} (h : constsOf is v = some c) :
    MirInst.const v c ∈ is := by
  induction is using List.reverseRecOn with
  | nil => cases h
  | append_singleton is i ih =>
    rw [constsOf, List.foldl_append] at h
    simp only [List.foldl_cons, List.foldl_nil] at h
    split at h
    · rename_i d c'
      by_cases hv : v = d
      · subst hv
        rw [Function.update_self] at h
        cases h
        simp
      · rw [Function.update_of_ne hv] at h
        exact List.mem_append_left _ (ih h)
    · exact List.mem_append_left _ (ih h)

theorem Scan.Facts.resolve {s : Scan} {D : ValueId → Prop} {env : Env} (h : s.Facts D env)
    (hs : s.Settled f pre) (hv : D v) : D (s.resolve f v) ∧ env (s.resolve f v) = env v := by
  rw [hs.resolve]
  cases hk : s.subst v with
  | none => exact ⟨hv, rfl⟩
  | some k => exact h.subst hv hk

/-- With operands in `D`, an instruction with its operands resolved gives the same. -/
theorem Scan.Facts.arith {s : Scan} {D : ValueId → Prop} {env : Env} (h : s.Facts D env)
    (hs : s.Settled f pre) (hops : ∀ o ∈ i.operands, D o) :
    arith env (i.rewriteValues (s.resolve f)) = arith env i := by
  cases i with
  | const | phi | op => rfl
  | bin | cmp | unary | cast =>
    simp only [MirInst.operands, List.mem_cons, List.not_mem_nil, or_false, forall_eq_or_imp,
      forall_eq] at hops
    simp only [MirInst.rewriteValues, Mir.arith, (h.resolve hs _).2, hops]

/-- The rewrite the scan makes of an instruction is sound where its operands are in `D`. -/
theorem Scan.Facts.fold (strength : Bool) {s : Scan} {D : ValueId → Prop} {env : Env} (h : s.Facts D env)
    (hs : s.Settled f pre) (hops : ∀ o ∈ i.operands, D o) :
    (foldInst strength s.consts (i.rewriteValues (s.resolve f))).Sound env
      (i.rewriteValues (s.resolve f)) := by
  refine foldInst_sound fun v hv c hc ↦ ?_
  rw [MirInst.operands_rewriteValues] at hv
  obtain ⟨o, ho, rfl⟩ := List.mem_map.1 hv
  exact h.const (h.resolve hs (hops o ho)).1 hc

/-- **What the scan knows is true** at any point of a run. -/
theorem MirFunc.Ordered.facts (strength : Bool) (hf : f.Ordered) {D : ValueId → Prop} {env : Env} (hg : f.Grounded D)
    (hsol : f.Solved D env) (hpre : pre <+: f.insts) : (f.scan strength pre).Facts D env := by
  have hdef : ∀ {i}, i ∈ f.insts → D i.dest → ∀ r, Mir.arith env i = some r → r = .ok (env i.dest) := by
    intro i hi
    obtain ⟨b, hb, hi⟩ := List.mem_flatMap.1 hi
    exact hsol b hb i hi
  refine MirFunc.scan_induction (P := fun _ s ↦ s.Facts D env) ?_ ?_ hpre
  · refine ⟨fun hv hc ↦ ?_, fun _ h ↦ (by cases h)⟩
    have hval := hdef (constsOf_eq_some hc) hv _ rfl
    exact (Except.ok.inj hval).symm
  · intro pre i post s' out hsplit h hstep
    have hs : (f.scan strength pre).Settled f pre := hf.settled ⟨_, hsplit.symm⟩
    have hi : i ∈ f.insts := by simp [hsplit]
    have hops : i.isPhi = false → D i.dest → ∀ o ∈ i.operands, D o := by
      intro hphi hdest
      obtain ⟨b, hb, hi⟩ := List.mem_flatMap.1 hi
      exact hg b hb i hi hphi hdest
    rcases combineInst_cases hstep with ⟨heq, heq', -⟩ | ⟨keep, hfold, heq, heq', -⟩ | ⟨c, hfold, heq, heq', -⟩ |
      ⟨i', -, heq, heq', -⟩
    · exact ⟨fun hv hc ↦ h.const hv (heq' ▸ hc), fun hv hk ↦ h.subst hv (heq ▸ hk)⟩
    · refine ⟨fun hv hc ↦ h.const hv (heq' ▸ hc), fun {v k} hv hk ↦ ?_⟩
      rw [heq] at hk
      by_cases hvi : v = i.dest
      · subst hvi
        rw [Function.update_self] at hk
        obtain rfl := Option.some.inj hk
        obtain ⟨hmem, d, op, ty, x, y, hbin⟩ := foldInst_eq_subst hfold
        have hphi : i.isPhi = false := by
          rw [← MirInst.rewriteValues_isPhi (Scan.resolve f _) i, hbin]
          rfl
        have hsound := h.fold strength hs (hops hphi hv)
        rw [hfold] at hsound
        rw [MirInst.operands_rewriteValues] at hmem
        obtain ⟨o, ho, rfl⟩ := List.mem_map.1 hmem
        have harith := hsound.1
        rw [h.arith hs (hops hphi hv)] at harith
        exact ⟨(h.resolve hs (hops hphi hv o ho)).1, Except.ok.inj (hdef hi hv _ harith)⟩
      · rw [Function.update_of_ne hvi] at hk
        exact h.subst hv hk
    · refine ⟨fun {v c'} hv hc ↦ ?_, fun hv hk ↦ h.subst hv (heq ▸ hk)⟩
      rw [heq'] at hc
      by_cases hvi : v = i.dest
      · subst hvi
        rw [Function.update_self] at hc
        obtain rfl := Option.some.inj hc
        have hphi : i.isPhi = false := by
          rw [← MirInst.rewriteValues_isPhi (Scan.resolve f _) i]
          rcases hfold with hfold | hconst
          · cases hi' : i.rewriteValues (Scan.resolve f _) with
            | phi d ty args => rw [hi'] at hfold; cases hfold
            | _ => rfl
          · rw [hconst]
            rfl
        have harith : Mir.arith env i = some (.ok c.word) := by
          rw [← h.arith hs (hops hphi hv)]
          rcases hfold with hfold | hconst
          · have hsound := h.fold strength hs (hops hphi hv)
            rwa [hfold] at hsound
          · rw [hconst]
            rfl
        exact (Except.ok.inj (hdef hi hv _ harith)).symm
      · rw [Function.update_of_ne hvi] at hc
        exact h.const hv hc
    · exact ⟨fun hv hc ↦ h.const hv (heq' ▸ hc), fun hv hk ↦ h.subst hv (heq ▸ hk)⟩

end

end CoilLang.Mir
