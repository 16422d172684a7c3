import CoilLang.Mir.Combine

/-!
# Instruction combining preserves the runs

An instruction in the end has gone, with an operand in its place, or it stays with its operands replaced, is a
constant, or an addition (`outInst_cases`). The two functions run block by block together, with **the
same words outside the values replaced**: an instruction that stays gives the same words, effects and trap
where its operands are available (`outInst_eval`), one that goes neither traps nor has an effect, and a
folded branch goes where the condition's word sends it. No φ reads a dropped incoming, since the edge
it came by is never taken.
-/

namespace CoilLang.Mir

variable {strength : Bool} {f : MirFunc} {pre post : List MirInst} {i : MirInst} {v : ValueId}

/-! ### What is left of an instruction -/

namespace MirFunc

/-- The value that stands for a value in the end. -/
def kept (strength : Bool) (f : MirFunc) (v : ValueId) : ValueId :=
  (f.scan strength f.insts).resolve f v

/-- The value goes: another one stands for it. -/
def replaced (strength : Bool) (f : MirFunc) (v : ValueId) : Bool :=
  ((f.scan strength f.insts).subst v).isSome

/-- What becomes of the instruction after `pre` in the order of the blocks. -/
def outInst (strength : Bool) (f : MirFunc) (pre : List MirInst) (i : MirInst) : MirInst :=
  (combineInst strength f (f.scan strength pre) i).2.rewriteValues (f.kept strength)

/-- What becomes of the instructions after `pre`. -/
def outInsts (strength : Bool) (f : MirFunc) : List MirInst → List MirInst → List MirInst
  | _, [] => []
  | pre, i :: is =>
    if f.replaced strength i.dest then f.outInsts strength (pre ++ [i]) is
    else f.outInst strength pre i :: f.outInsts strength (pre ++ [i]) is

end MirFunc

theorem rewriteValues_rewriteValues {r r' : ValueId → ValueId} :
    (i.rewriteValues r').rewriteValues r = i.rewriteValues fun v ↦ r (r' v) := by
  cases i <;> simp [MirInst.rewriteValues, Function.comp_def]

theorem combineInst_dest {s : Scan} : (combineInst strength f s i).2.dest = i.dest := by
  cases hstep : combineInst strength f s i with
  | mk s' out =>
    rcases combineInst_cases hstep with ⟨-, -, rfl⟩ | ⟨keep, -, -, -, rfl⟩ | ⟨c, -, -, -, rfl⟩ |
      ⟨i', hfold, -, -, rfl⟩
    · exact MirInst.rewriteValues_dest _ _
    · exact MirInst.rewriteValues_dest _ _
    · rfl
    · have hsound : (foldInst strength s.consts (i.rewriteValues (s.resolve f))).Sound
          (fun v ↦ (s.consts v).elim 0 MirConst.word) (i.rewriteValues (s.resolve f)) :=
        foldInst_sound fun v _ c hc ↦ by rw [hc, Option.elim_some]
      rw [hfold] at hsound
      rw [hsound.2.1, MirInst.rewriteValues_dest]

/-- **The cases of an instruction in the end**: it goes, with an operand in its place, or it stays, is a
constant, or an addition. -/
theorem MirFunc.Ordered.outInst_cases (strength : Bool) (ho : f.Ordered) (hsplit : f.insts = pre ++ i :: post) :
    let s := f.scan strength pre
    let i₀ := i.rewriteValues (s.resolve f)
    (f.replaced strength i.dest = false ∧
      f.outInst strength pre i = i.rewriteValues (f.kept strength)) ∨
    (∃ keep, foldInst strength s.consts i₀ = .subst keep ∧ f.replaced strength i.dest = true) ∨
    (∃ c, (foldInst strength s.consts i₀ = .toConst c ∨ i₀ = .const i.dest c) ∧
      f.replaced strength i.dest = false ∧ f.outInst strength pre i = .const i.dest c) ∨
    (∃ i', foldInst strength s.consts i₀ = .rewrite i' ∧ f.replaced strength i.dest = false ∧
      f.outInst strength pre i = i'.rewriteValues (f.kept strength)) := by
  intro s i₀
  have hpre : pre ++ [i] <+: f.insts := ⟨post, by simp [hsplit]⟩
  have hnew : s.subst i.dest = none := by
    have hs : s.Settled f pre := ho.settled ⟨_, hsplit.symm⟩
    cases h : s.subst i.dest with
    | none => rfl
    | some k => exact absurd (hs.mem_seen h) (ho.fresh hsplit _ i.dest_mem_dests)
  cases hstep : combineInst strength f s i with
  | mk s' out =>
    have hs' : f.scan strength (pre ++ [i]) = s' := by rw [MirFunc.scan_append, hstep]
    have hrep : f.replaced strength i.dest = (s'.subst i.dest).isSome := by
      rw [MirFunc.replaced, ho.subst_of_seen hpre (List.prefix_refl _), hs']
      simp [MirFunc.seen, MirInst.dests]
    have hout : f.outInst strength pre i = out.rewriteValues (f.kept strength) := by
      rw [MirFunc.outInst, hstep]
    have hgone : s'.subst = s.subst → f.replaced strength i.dest = false := fun heq ↦ by
      rw [hrep, heq, hnew, Option.isSome_none]
    rcases combineInst_cases hstep with ⟨heq, -, rfl⟩ | ⟨keep, hfold, heq, -, rfl⟩ |
      ⟨c, hfold, heq, -, rfl⟩ | ⟨i', hfold, heq, -, rfl⟩
    · refine .inl ⟨hgone heq, ?_⟩
      rw [hout, rewriteValues_rewriteValues]
      congr 1
      funext v
      exact ho.resolve_resolve _ ⟨_, hsplit.symm⟩ v
    · refine .inr (.inl ⟨keep, hfold, ?_⟩)
      rw [hrep, heq, Function.update_self, Option.isSome_some]
    · exact .inr (.inr (.inl ⟨c, hfold, hgone heq, hout⟩))
    · exact .inr (.inr (.inr ⟨_, hfold, hgone heq, hout⟩))

/-! ### The rewritten instructions run alike -/

/-- The two environments hold the same words outside the values replaced. -/
def AgreeKept (strength : Bool) (f : MirFunc) (env env' : Env) : Prop :=
  ∀ v, f.replaced strength v = false → env' v = env v

section

variable {D : ValueId → Prop} {env env' : Env}

theorem MirFunc.Ordered.kept_word (ho : f.Ordered) (hg : f.Grounded D) (hsol : f.Solved D env)
    (hagree : AgreeKept strength f env env') (hv : D v) : env' (f.kept strength v) = env v := by
  have hs : (f.scan strength f.insts).Settled f f.insts := ho.settled (List.prefix_refl _)
  have hfacts := ho.facts strength hg hsol (List.prefix_refl _)
  rw [hagree _ (by rw [MirFunc.replaced, MirFunc.kept, hs.subst_resolve, Option.isSome_none])]
  exact (hfacts.resolve hs hv).2

/-- An instruction that is a constant in the end gave that word. -/
theorem MirFunc.Ordered.outInst_const (ho : f.Ordered) (hsplit : f.insts = pre ++ i :: post)
    (hg : f.Grounded D) (hsol : f.Solved D env) (hops : ∀ o ∈ i.operands, D o)
    (hkept : f.replaced strength i.dest = false) {d : ValueId} {c : MirConst}
    (hout : f.outInst strength pre i = .const d c) : arith env i = some (.ok c.word) := by
  have hpre : pre <+: f.insts := ⟨_, hsplit.symm⟩
  have hs : (f.scan strength pre).Settled f pre := ho.settled hpre
  have hfacts := ho.facts strength hg hsol hpre
  have hsound := hfacts.fold strength hs hops
  rcases ho.outInst_cases _ hsplit with ⟨-, h⟩ | ⟨keep, -, hrep⟩ | ⟨c', hfold, -, h⟩ | ⟨i', hfold, -, h⟩
  · rw [hout] at h
    cases i with
    | const d' c' =>
      cases h
      rfl
    | _ => cases h
  · rw [hrep] at hkept
    cases hkept
  · rw [hout] at h
    cases h
    rw [← hfacts.arith hs hops]
    rcases hfold with hfold | hconst
    · rwa [hfold] at hsound
    · rw [hconst]
      rfl
  · rw [hfold] at hsound
    obtain ⟨-, -, -, d', op, ty, x, y, rfl⟩ := hsound
    rw [hout] at h
    cases h

/-- **An instruction that stays gives the same words, effects and trap**, where its operands are
available. -/
theorem MirFunc.Ordered.outInst_eval (ho : f.Ordered) (hsplit : f.insts = pre ++ i :: post)
    (hg : f.Grounded D) (hsol : f.Solved D env) (hagree : AgreeKept strength f env env')
    (hops : ∀ o ∈ i.operands, D o) (hkept : f.replaced strength i.dest = false) :
    (f.outInst strength pre i).hi = i.hi ∧ ∀ {σ π : Type} (W : World σ π) (w : σ) (t : List Event),
      evalInst W (f.outInst strength pre i) env' w t = evalInst W i env w t := by
  have hpre : pre <+: f.insts := ⟨_, hsplit.symm⟩
  have hs : (f.scan strength pre).Settled f pre := ho.settled hpre
  have hfacts := ho.facts strength hg hsol hpre
  have hword : ∀ o ∈ i.operands, env' (f.kept strength o) = env o := fun o hoi ↦
    ho.kept_word hg hsol hagree (hops o hoi)
  have hsound := hfacts.fold strength hs hops
  have harith := hfacts.arith hs hops
  rcases ho.outInst_cases _ hsplit with ⟨-, hout⟩ | ⟨keep, -, hrep⟩ | ⟨c, hfold, -, hout⟩ |
    ⟨i', hfold, -, hout⟩
  · rw [hout]
    exact ⟨MirInst.rewriteValues_hi _ _, fun W w t ↦ evalInst_rewriteValues hword⟩
  · rw [hrep] at hkept
    cases hkept
  · have hc : arith env i = some (.ok c.word) :=
      ho.outInst_const hsplit hg hsol hops hkept hout
    rw [hout]
    cases i with
    | op | phi => cases hc
    | _ =>
      refine ⟨rfl, fun W w t ↦ ?_⟩
      simp only [evalInst, hc]
      rfl
  · rw [hfold] at hsound
    obtain ⟨heq, -, hsub, d, op, ty, x, y, rfl⟩ := hsound
    have hxy : ∀ z ∈ (MirInst.bin d op ty x y).operands, env' (f.kept strength z) = env z := by
      intro z hz
      have hz := hsub hz
      rw [MirInst.operands_rewriteValues] at hz
      obtain ⟨o, hoi, rfl⟩ := List.mem_map.1 hz
      rw [(hfacts.resolve hs (hops o hoi)).2, ← hword o hoi]
      exact congrArg env' (ho.resolve_resolve _ hpre o)
    rw [harith] at heq
    rw [hout]
    cases i with
    | op | phi => cases heq
    | _ =>
      refine ⟨rfl, fun W w t ↦ ?_⟩
      rw [evalInst_rewriteValues hxy]
      simp only [evalInst, heq]

/-- An instruction that goes neither traps nor has an effect. -/
theorem MirFunc.Ordered.evalInst_of_replaced (ho : f.Ordered) (hsplit : f.insts = pre ++ i :: post)
    (hg : f.Grounded D) (hsol : f.Solved D env) (hops : ∀ o ∈ i.operands, D o)
    (hrep : f.replaced strength i.dest = true) :
    i.dests = [i.dest] ∧ ∃ r, ∀ {σ π : Type} (W : World σ π) (w : σ) (t : List Event),
      evalInst W i env w t = .ok (r, w, t) := by
  have hpre : pre <+: f.insts := ⟨_, hsplit.symm⟩
  have hs : (f.scan strength pre).Settled f pre := ho.settled hpre
  have hfacts := ho.facts strength hg hsol hpre
  have hsound := hfacts.fold strength hs hops
  rcases ho.outInst_cases strength hsplit with ⟨hkept, -⟩ | ⟨keep, hfold, -⟩ |
    ⟨c, -, hkept, -⟩ | ⟨i', -, hkept, -⟩
  · rw [hrep] at hkept
    cases hkept
  · obtain ⟨-, d, op, ty, x, y, hbin⟩ := foldInst_eq_subst hfold
    rw [hfold] at hsound
    have hval := hsound.1
    rw [hfacts.arith hs hops] at hval
    obtain ⟨l, r, rfl, rfl, rfl⟩ := rewriteValues_eq_bin hbin
    refine ⟨rfl, (env keep, 0), fun W w t ↦ ?_⟩
    simp only [evalInst, hval]
  · rw [hrep] at hkept
    cases hkept
  · rw [hrep] at hkept
    cases hkept

end

/-! ### The rewritten blocks -/

theorem combineInsts_eq {is : List MirInst} :
    combineInsts strength f (f.scan strength pre) is =
      (f.scan strength (pre ++ is), (combineInsts strength f (f.scan strength pre) is).2) ∧
    ((combineInsts strength f (f.scan strength pre) is).2.map
      (MirInst.rewriteValues (f.kept strength))).filter
        (fun i ↦ ((f.scan strength f.insts).subst i.dest).isNone) = f.outInsts strength pre is := by
  induction is generalizing pre with
  | nil => simp [combineInsts, MirFunc.outInsts]
  | cons i is ih =>
    have hstep : combineInst strength f (f.scan strength pre) i =
        (f.scan strength (pre ++ [i]), (combineInst strength f (f.scan strength pre) i).2) := by
      rw [MirFunc.scan_append]
    have hcons : combineInsts strength f (f.scan strength pre) (i :: is) =
        (f.scan strength (pre ++ i :: is), (combineInst strength f (f.scan strength pre) i).2 ::
          (combineInsts strength f (f.scan strength (pre ++ [i])) is).2) := by
      rw [combineInsts, hstep]
      simp only
      rw [ih.1]
      simp
    refine ⟨by rw [hcons], ?_⟩
    rw [hcons, List.map_cons, List.filter_cons, ih.2, MirFunc.outInsts, MirFunc.replaced]
    simp only [MirInst.rewriteValues_dest, combineInst_dest]
    cases (f.scan strength f.insts).subst i.dest with
    | none => rfl
    | some k => rfl

/-- A block when the values replaced are gone, before branches are folded. -/
def MirFunc.outBlock (strength : Bool) (f : MirFunc) (pre : List MirInst) (b : MirBlock) : MirBlock :=
  { b with
    insts := f.outInsts strength pre b.insts
    term := b.term.map (Terminator.rewriteValues (f.kept strength)) }

theorem combineBlocks_eq (strength : Bool) (ho : f.Ordered) {bs : List MirBlock}
    (hpre : pre ++ bs.flatMap MirBlock.insts <+: f.insts) :
    (combineBlocks strength f (f.scan strength pre) bs).1 =
        f.scan strength (pre ++ bs.flatMap MirBlock.insts) ∧
      ∀ j : ℕ, ((combineBlocks strength f (f.scan strength pre) bs).2.map
        ((f.scan strength f.insts).settle f))[j]? =
          bs[j]?.map (f.outBlock strength (pre ++ (bs.take j).flatMap MirBlock.insts)) := by
  induction bs generalizing pre with
  | nil => simp [combineBlocks]
  | cons b bs ih =>
    rw [List.flatMap_cons, ← List.append_assoc] at hpre
    obtain ⟨hscan, hblocks⟩ := ih hpre
    have hb : combineInsts strength f (f.scan strength pre) b.insts = _ := combineInsts_eq.1
    simp only [combineBlocks]
    rw [hb]
    simp only
    refine ⟨by rw [hscan, List.flatMap_cons, List.append_assoc], fun j ↦ ?_⟩
    cases j with
    | zero =>
      simp only [List.map_cons, List.getElem?_cons_zero, List.take_zero, List.flatMap_nil,
        List.append_nil, Option.map_some, Option.some.injEq]
      have hterm : (b.term.map (Terminator.rewriteValues
          ((f.scan strength (pre ++ b.insts)).resolve f))).map
            (Terminator.rewriteValues ((f.scan strength f.insts).resolve f)) =
              b.term.map (Terminator.rewriteValues (f.kept strength)) := by
        rw [Option.map_map]
        congr 1
        funext t
        have hr := ho.resolve_resolve strength (List.IsPrefix.trans ⟨_, rfl⟩ hpre)
        cases t with
        | br c t n => simp [Terminator.rewriteValues, hr, MirFunc.kept]
        | ret lo hi =>
          simp only [Function.comp_apply, Terminator.rewriteValues, Option.map_map,
            Function.comp_def, hr]
          rfl
        | jump | unreachable => rfl
      simp only [Scan.settle, MirFunc.outBlock, hterm]
      rw [← combineInsts_eq.2]
      rfl
    | succ j =>
      rw [List.map_cons, List.getElem?_cons_succ, hblocks j]
      simp [List.append_assoc]

/-- The φs of block `b` lose the incomings of the edges `es`. -/
def dropArgs (es : List (BlockId × BlockId)) (b : BlockId) : MirInst → MirInst
  | .phi d ty args => .phi d ty (args.filter fun a ↦ (a.1, b) ∉ es)
  | i => i

theorem dropEdge_getElem? {blocks : List MirBlock} {e : BlockId × BlockId} {b : ℕ}
    (hid : ∀ {j : ℕ} {c : MirBlock}, blocks[j]? = some c → c.id = j) :
    (dropEdge blocks e)[b]? = if b = e.2 then blocks[b]?.map (MirBlock.mapInsts (dropArg e.1))
      else blocks[b]? := by
  rw [dropEdge, List.getElem?_modify]
  by_cases hlt : e.2 < blocks.length
  · have hidx : blocks.findIdx (·.id = e.2) = e.2 := by
      refine (List.findIdx_eq hlt).2 ⟨by simpa using hid (List.getElem?_eq_getElem hlt), fun j hj ↦ ?_⟩
      have hj' := hid (List.getElem?_eq_getElem (hj.trans hlt))
      simpa [hj'] using hj.ne
    rw [hidx]
    split
    · rename_i heq
      rw [if_pos heq.symm]
      rfl
    · rename_i hne
      rw [if_neg (Ne.symm hne)]
      simp
  · have hnone : blocks[e.2]? = none := List.getElem?_eq_none_iff.2 (not_lt.1 hlt)
    have hidx : blocks.findIdx (·.id = e.2) = blocks.length := by
      refine List.findIdx_eq_length.2 fun c hc ↦ ?_
      obtain ⟨j, hj⟩ := List.mem_iff_getElem?.1 hc
      have hjlt : j < blocks.length := (List.getElem?_eq_some_iff.1 hj).1
      simp only [hid hj, decide_eq_false_iff_not]
      exact (hjlt.trans_le (not_lt.1 hlt)).ne
    rw [hidx]
    by_cases hb : b = e.2
    · subst hb
      rw [hnone]
      simp
    · rw [if_neg hb]
      split
      · rename_i heq
        have : blocks[b]? = none := List.getElem?_eq_none_iff.2 (by omega)
        rw [this]
        rfl
      · simp

theorem foldl_dropEdge_getElem? {es : List (BlockId × BlockId)} {blocks : List MirBlock} {b : ℕ}
    (hid : ∀ {j : ℕ} {c : MirBlock}, blocks[j]? = some c → c.id = j) :
    (es.foldl dropEdge blocks)[b]? = blocks[b]?.map (MirBlock.mapInsts (dropArgs es b)) := by
  induction es generalizing blocks with
  | nil =>
    have hnil : MirBlock.mapInsts (dropArgs [] b) = id := by
      funext c
      have : dropArgs [] b = id := by
        funext i
        cases i <;> simp [dropArgs]
      simp [MirBlock.mapInsts, this]
    rw [hnil]
    simp
  | cons e es ih =>
    rw [List.foldl_cons, ih, dropEdge_getElem? hid]
    · by_cases hb : b = e.2
      · subst hb
        rw [if_pos rfl, Option.map_map]
        congr 1
        funext c
        simp only [Function.comp_apply, MirBlock.mapInsts, List.map_map]
        congr 2
        funext i
        cases i with
        | phi d ty args =>
          simp only [Function.comp_apply, dropArg, dropArgs, List.filter_filter]
          congr 2
          funext a
          simp [List.mem_cons, Prod.ext_iff, Bool.and_comm]
        | _ => rfl
      · rw [if_neg hb]
        congr 1
        funext c
        simp only [MirBlock.mapInsts]
        congr 2
        funext i
        cases i with
        | phi d ty args =>
          simp only [dropArgs]
          congr 2
          funext a
          simp [List.mem_cons, Prod.ext_iff, hb]
        | _ => rfl
    · intro j c hc
      rw [dropEdge_getElem? hid] at hc
      split at hc
      · obtain ⟨c', hc', rfl⟩ := Option.map_eq_some_iff.1 hc
        exact (hid hc' : c'.id = j)
      · exact hid hc

namespace MirFunc

/-- The instructions of the blocks before `b`. -/
def before (f : MirFunc) (b : BlockId) : List MirInst := (f.blocks.take b).flatMap MirBlock.insts

/-- The blocks when the values replaced are gone. -/
def outBlocks (strength : Bool) (f : MirFunc) : List MirBlock :=
  f.blocks.mapIdx fun b blk ↦ f.outBlock strength (f.before b) blk

/-- The constants of the blocks then. -/
def known (strength : Bool) (f : MirFunc) : Consts :=
  constsOf ((f.outBlocks strength).flatMap MirBlock.insts)

/-- The edges that go with the folded branches. -/
def dead (strength : Bool) (f : MirFunc) : List (BlockId × BlockId) :=
  deadEdges (f.known strength) (f.outBlocks strength)

/-- Block `b` of the result. -/
def combined (strength : Bool) (f : MirFunc) (b : BlockId) (blk : MirBlock) : MirBlock :=
  (foldBranch (f.known strength) (f.outBlock strength (f.before b) blk)).mapInsts
    (dropArgs (f.dead strength) b)

end MirFunc

theorem foldBranch_id (known : Consts) (b : MirBlock) : (foldBranch known b).id = b.id := by
  unfold foldBranch
  split <;> rfl

theorem foldBranch_insts (known : Consts) (b : MirBlock) :
    (foldBranch known b).insts = b.insts := by
  unfold foldBranch
  split <;> rfl

theorem instcombineOnce_eq (strength : Bool) (ho : f.Ordered) : (instcombineOnce strength f).1 =
    { f with
      blocks := (f.dead strength).foldl dropEdge
        ((f.outBlocks strength).map (foldBranch (f.known strength))) } := by
  have hinit : [] ++ f.blocks.flatMap MirBlock.insts <+: f.insts := List.prefix_refl _
  obtain ⟨hscan, hblocks⟩ := combineBlocks_eq strength ho hinit
  cases hc : combineBlocks strength f (f.scan strength []) f.blocks with
  | mk s bs =>
    have hc' : combineBlocks strength f ⟨constsOf f.insts, fun _ ↦ none, 0⟩ f.blocks = (s, bs) := hc
    rw [hc] at hscan hblocks
    obtain rfl : s = f.scan strength f.insts := hscan
    have hout : bs.map ((f.scan strength f.insts).settle f) = f.outBlocks strength := by
      refine List.ext_getElem? fun j ↦ ?_
      rw [hblocks j, MirFunc.outBlocks, List.getElem?_mapIdx]
      rfl
    simp only [instcombineOnce, hc', hout]
    rfl

/-- **The blocks of the result.** -/
theorem instcombineOnce_block? (strength : Bool) (hf : WellFormed f) (ho : f.Ordered) (b : BlockId) :
    (instcombineOnce strength f).1.block? b = (f.block? b).map (f.combined strength b) := by
  rw [instcombineOnce_eq _ ho, MirFunc.block?, foldl_dropEdge_getElem?]
  · rw [List.getElem?_map, MirFunc.outBlocks, List.getElem?_mapIdx, Option.map_map, Option.map_map]
    rfl
  · intro j c hc
    rw [List.getElem?_map, MirFunc.outBlocks, List.getElem?_mapIdx, Option.map_map] at hc
    obtain ⟨blk, hblk, rfl⟩ := Option.map_eq_some_iff.1 hc
    rw [Function.comp_apply, foldBranch_id]
    exact (hf.id hblk : blk.id = j)

theorem MirFunc.insts_split {b : BlockId} {blk : MirBlock} (hb : f.block? b = some blk)
    (hblk : blk.insts = pre ++ post) : ∃ t, f.insts = f.before b ++ pre ++ (post ++ t) := by
  obtain ⟨hlt, hb⟩ := List.getElem?_eq_some_iff.1 hb
  refine ⟨(f.blocks.drop (b + 1)).flatMap MirBlock.insts, ?_⟩
  have hsplit : f.blocks = f.blocks.take b ++ blk :: f.blocks.drop (b + 1) := by
    rw [← hb, ← List.drop_eq_getElem_cons hlt, List.take_append_drop]
  rw [MirFunc.insts, hsplit, List.flatMap_append, List.flatMap_cons, hblk, MirFunc.before]
  simp only [List.append_assoc]
  rw [← hsplit]

/-! ### φs and the other instructions -/

theorem MirFunc.outInsts_append {is js : List MirInst} :
    f.outInsts strength pre (is ++ js) =
      f.outInsts strength pre is ++ f.outInsts strength (pre ++ is) js := by
  induction is generalizing pre with
  | nil => simp [MirFunc.outInsts]
  | cons i is ih =>
    rw [List.cons_append, MirFunc.outInsts, MirFunc.outInsts, ih, List.append_assoc]
    split
    · rfl
    · rfl

theorem foldInst_phi {consts : Consts} (hphi : i.isPhi = true) :
    foldInst strength consts i = .none := by
  cases i with
  | phi => rfl
  | _ => cases hphi

theorem MirFunc.Ordered.outInst_phi (strength : Bool) (ho : f.Ordered) (hsplit : f.insts = pre ++ i :: post)
    (hphi : i.isPhi = true) : f.replaced strength i.dest = false ∧
      f.outInst strength pre i = i.rewriteValues (f.kept strength) := by
  have hfold : foldInst strength (f.scan strength pre).consts
      (i.rewriteValues ((f.scan strength pre).resolve f)) = .none :=
    foldInst_phi (by rw [MirInst.rewriteValues_isPhi, hphi])
  rcases ho.outInst_cases strength hsplit with h | ⟨keep, h, -⟩ | ⟨c, h | h, -⟩ |
    ⟨i', h, -⟩
  · exact h
  · rw [hfold] at h
    cases h
  · rw [hfold] at h
    cases h
  · have hphi' := MirInst.rewriteValues_isPhi ((f.scan strength pre).resolve f) i
    rw [h, hphi] at hphi'
    cases hphi'
  · rw [hfold] at h
    cases h

theorem MirFunc.Ordered.outInst_isPhi (ho : f.Ordered) (hsplit : f.insts = pre ++ i :: post)
    (hkept : f.replaced strength i.dest = false) :
    (f.outInst strength pre i).isPhi = i.isPhi := by
  cases hphi : i.isPhi with
  | true =>
    rw [(ho.outInst_phi _ hsplit hphi).2, MirInst.rewriteValues_isPhi, hphi]
  | false =>
    rcases ho.outInst_cases _ hsplit with ⟨-, h⟩ | ⟨keep, -, h⟩ | ⟨c, -, -, h⟩ | ⟨i', hfold, -, h⟩
    · rw [h, MirInst.rewriteValues_isPhi, hphi]
    · rw [hkept] at h
      cases h
    · rw [h]
      rfl
    · have hsound : (foldInst strength (f.scan strength pre).consts
          (i.rewriteValues ((f.scan strength pre).resolve f))).Sound
            (fun v ↦ ((f.scan strength pre).consts v).elim 0 MirConst.word) _ :=
        foldInst_sound fun v _ c hc ↦ by rw [hc, Option.elim_some]
      rw [hfold] at hsound
      obtain ⟨-, -, -, d, op, ty, x, y, rfl⟩ := hsound
      rw [h]
      rfl

theorem MirFunc.Ordered.outInsts_phis (ho : f.Ordered) {is : List MirInst}
    (hsplit : f.insts = pre ++ (is ++ post)) (hphi : ∀ i ∈ is, i.isPhi = true) :
    f.outInsts strength pre is = is.map (MirInst.rewriteValues (f.kept strength)) := by
  induction is generalizing pre with
  | nil => rfl
  | cons i is ih =>
    obtain ⟨hrep, hout⟩ := ho.outInst_phi strength hsplit (hphi i List.mem_cons_self)
    have hsplit' : f.insts = (pre ++ [i]) ++ (is ++ post) := by simp [hsplit]
    have hih := ih hsplit' fun j hj ↦ hphi j (List.mem_cons_of_mem _ hj)
    rw [MirFunc.outInsts, if_neg (by rw [hrep]; exact Bool.false_ne_true), hout, hih, List.map_cons]

theorem MirFunc.Ordered.outInsts_body (ho : f.Ordered) {is : List MirInst}
    (hsplit : f.insts = pre ++ (is ++ post)) (hphi : ∀ i ∈ is, i.isPhi = false) :
    ∀ j ∈ f.outInsts strength pre is, j.isPhi = false := by
  induction is generalizing pre with
  | nil =>
    intro j hj
    cases hj
  | cons i is ih =>
    have hsplit' : f.insts = (pre ++ [i]) ++ (is ++ post) := by simp [hsplit]
    have hih := ih hsplit' fun j hj ↦ hphi j (List.mem_cons_of_mem _ hj)
    rw [MirFunc.outInsts]
    split
    · exact hih
    · rename_i hrep
      intro j hj
      rcases List.mem_cons.1 hj with rfl | hj
      · rw [ho.outInst_isPhi hsplit (Bool.not_eq_true _ ▸ hrep), hphi i List.mem_cons_self]
      · exact hih j hj

theorem phiMap_dropArgs (es : List (BlockId × BlockId)) (b : BlockId) : PhiMap (dropArgs es b) := by
  refine ⟨fun i ↦ ?_, fun i ↦ ?_, fun i hi ↦ ?_⟩
  · cases i <;> rfl
  · cases i <;> rfl
  · cases i <;> first | rfl | cases hi

section

variable {b : BlockId} {blk : MirBlock}

/-- The φs of a block of the result. -/
theorem phis_combined (hf : WellFormed f) (ho : f.Ordered) (hb : f.block? b = some blk) :
    ((f.combined strength b blk).phis =
      blk.phis.map fun i ↦ dropArgs (f.dead strength) b (i.rewriteValues (f.kept strength))) ∧
    (f.combined strength b blk).body =
      f.outInsts strength (f.before b ++ blk.phis) blk.body ∧
    (f.combined strength b blk).insts =
      (f.combined strength b blk).phis ++ (f.combined strength b blk).body := by
  have hinsts := hf.insts blk (List.mem_of_getElem? hb)
  obtain ⟨t, ht⟩ := MirFunc.insts_split hb hinsts
  have ht' : f.insts = f.before b ++ (blk.phis ++ (blk.body ++ t)) := by rw [ht]; simp
  have hphis : f.outInsts strength (f.before b) blk.phis =
      blk.phis.map (MirInst.rewriteValues (f.kept strength)) :=
    ho.outInsts_phis ht' fun i hi ↦ (List.mem_filter.1 hi).2
  have hbody : ∀ j ∈ f.outInsts strength (f.before b ++ blk.phis) blk.body, j.isPhi = false :=
    ho.outInsts_body ht fun i hi ↦ by simpa using (List.mem_filter.1 hi).2
  have hout : (f.outBlock strength (f.before b) blk).insts =
      blk.phis.map (MirInst.rewriteValues (f.kept strength)) ++
        f.outInsts strength (f.before b ++ blk.phis) blk.body := by
    rw [MirFunc.outBlock]
    simp only
    rw [hinsts, MirFunc.outInsts_append, hphis]
  have hall : ∀ j ∈ blk.phis.map (MirInst.rewriteValues (f.kept strength)), j.isPhi = true := by
    intro j hj
    obtain ⟨i, hi, rfl⟩ := List.mem_map.1 hj
    rw [MirInst.rewriteValues_isPhi]
    exact (List.mem_filter.1 hi).2
  have hmap := phiMap_dropArgs (f.dead strength) b
  have hphis' : (f.combined strength b blk).phis =
      blk.phis.map fun i ↦ dropArgs (f.dead strength) b (i.rewriteValues (f.kept strength)) := by
    rw [MirBlock.phis, MirFunc.combined, MirBlock.mapInsts]
    simp only
    rw [hmap.filter_phi, foldBranch_insts, hout, List.filter_append, List.filter_eq_self.2 hall,
      List.filter_eq_nil_iff.2 fun j hj ↦ by simp [hbody j hj], List.append_nil, List.map_map]
    rfl
  have hbody' : (f.combined strength b blk).body =
      f.outInsts strength (f.before b ++ blk.phis) blk.body := by
    rw [MirBlock.body, MirFunc.combined, MirBlock.mapInsts]
    simp only
    rw [hmap.filter_not_phi, foldBranch_insts, hout, List.filter_append,
      List.filter_eq_nil_iff.2 fun j hj ↦ by simp [hall j hj],
      List.filter_eq_self.2 fun j hj ↦ by simp [hbody j hj], List.nil_append]
  refine ⟨hphis', hbody', ?_⟩
  rw [hphis', hbody', MirFunc.combined, MirBlock.mapInsts]
  simp only
  rw [foldBranch_insts, hout, List.map_append, List.map_map]
  congr 1
  exact (List.map_congr_left fun j hj ↦ hmap.other j (hbody j hj)).trans (List.map_id _)

/-! ### What the constants and the dead edges say -/

theorem MirFunc.outInsts_split {is us ts : List MirInst} {j : MirInst}
    (h : f.outInsts strength pre is = us ++ j :: ts) : ∃ u i t, is = u ++ i :: t ∧
      f.replaced strength i.dest = false ∧ j = f.outInst strength (pre ++ u) i ∧
      us = f.outInsts strength pre u := by
  induction is generalizing pre us with
  | nil => simp [MirFunc.outInsts] at h
  | cons i is ih =>
    rw [MirFunc.outInsts] at h
    split at h
    · rename_i hrep
      obtain ⟨u, i', t, rfl, hkept, rfl, rfl⟩ := ih h
      refine ⟨i :: u, i', t, rfl, hkept, by simp, ?_⟩
      rw [MirFunc.outInsts, if_pos hrep]
    · rename_i hrep
      cases us with
      | nil =>
        obtain ⟨rfl, -⟩ := List.cons.inj h
        exact ⟨[], i, is, rfl, by simpa using hrep, by simp, rfl⟩
      | cons x us =>
        obtain ⟨rfl, htail⟩ := List.cons.inj h
        obtain ⟨u, i', t, rfl, hkept, rfl, rfl⟩ := ih htail
        refine ⟨i :: u, i', t, rfl, hkept, by simp, ?_⟩
        rw [MirFunc.outInsts, if_neg hrep]

theorem MirFunc.mem_outInsts {is : List MirInst} {j : MirInst}
    (hj : j ∈ f.outInsts strength pre is) : ∃ u i t, is = u ++ i :: t ∧
      f.replaced strength i.dest = false ∧ j = f.outInst strength (pre ++ u) i := by
  obtain ⟨us, ts, h⟩ := List.append_of_mem hj
  obtain ⟨u, i, t, his, hkept, hout, -⟩ := MirFunc.outInsts_split h
  exact ⟨u, i, t, his, hkept, hout⟩

/-- A known constant is the word of its value wherever that is available. -/
theorem MirFunc.Ordered.known_word (ho : f.Ordered) {D : ValueId → Prop} {env : Env}
    (hg : f.Grounded D) (hsol : f.Solved D env) {c : MirConst} (hc : f.known strength v = some c)
    (hv : D v) : env v = c.word := by
  obtain ⟨b', hb', hj⟩ := List.mem_flatMap.1 (constsOf_eq_some hc)
  obtain ⟨b, hb⟩ := List.mem_iff_getElem?.1 hb'
  rw [MirFunc.outBlocks, List.getElem?_mapIdx] at hb
  obtain ⟨blk, hblk, rfl⟩ := Option.map_eq_some_iff.1 hb
  obtain ⟨u, i, t, hinsts, hrep, hout⟩ := MirFunc.mem_outInsts hj
  obtain ⟨t', hsplit⟩ := MirFunc.insts_split hblk hinsts
  have hdest : v = i.dest := by
    have := congrArg MirInst.dest hout
    rw [MirFunc.outInst, MirInst.rewriteValues_dest, combineInst_dest] at this
    exact this
  subst hdest
  have hblk' : blk ∈ f.blocks := List.mem_of_getElem? hblk
  have hi : i ∈ blk.insts := by simp [hinsts]
  have hphi : i.isPhi = false := by
    rw [← ho.outInst_isPhi hsplit hrep, ← hout]
    rfl
  have hval := ho.outInst_const hsplit hg hsol (hg blk hblk' i hi hphi hv) hrep hout.symm
  exact (Except.ok.inj (hsol blk hblk' i hi hv _ hval)).symm

/-- The branch of block `b` that folds: where it goes, and where it does not. -/
def MirFunc.branch (strength : Bool) (f : MirFunc) (b : BlockId) : Option (BlockId × BlockId) :=
  (f.block? b).bind fun blk ↦
    knownBranch (f.known strength) (f.outBlock strength (f.before b) blk)

theorem mem_dead (hf : WellFormed f) {p d : BlockId} :
    (p, d) ∈ f.dead strength ↔ ∃ dest, f.branch strength p = some (dest, d) ∧ d ≠ dest := by
  simp only [MirFunc.dead, deadEdges, List.mem_filterMap]
  constructor
  · rintro ⟨c, hc, h⟩
    obtain ⟨j, hj⟩ := List.mem_iff_getElem?.1 hc
    rw [MirFunc.outBlocks, List.getElem?_mapIdx] at hj
    obtain ⟨blk, hblk, rfl⟩ := Option.map_eq_some_iff.1 hj
    split at h
    · rename_i dest dead hk
      split at h
      · rename_i hne
        obtain ⟨hid, rfl⟩ := Prod.mk.inj (Option.some.inj h)
        obtain rfl : j = p := (hf.id hblk).symm.trans hid
        exact ⟨dest, by rw [MirFunc.branch, MirFunc.block?, hblk]; exact hk, hne⟩
      · cases h
    · cases h
  · rintro ⟨dest, hbr, hne⟩
    obtain ⟨blk, hblk, hk⟩ := Option.bind_eq_some_iff.1 hbr
    refine ⟨f.outBlock strength (f.before p) blk, ?_, ?_⟩
    · refine List.mem_of_getElem? (i := p) ?_
      rw [MirFunc.outBlocks, List.getElem?_mapIdx, show f.blocks[p]? = some blk from hblk]
      rfl
    · rw [hk]
      simp only [if_pos hne]
      have hid : blk.id = p := hf.id hblk
      rw [show (f.outBlock strength (f.before p) blk).id = p from hid]

/-! ### Lockstep -/

/-- The two memories agree but for the values replaced. -/
def MemRel {σ : Type} (strength : Bool) (f : MirFunc) (m m' : Mem σ) : Prop :=
  AgreeKept strength f m.env m'.env ∧ m'.world = m.world ∧ m'.trace = m.trace

variable {σ π : Type} {W : World σ π}

theorem execInst_outInst (ho : f.Ordered) (hsplit : f.insts = pre ++ i :: post)
    {D : ValueId → Prop} {m m' : Mem σ} (hg : f.Grounded D) (hsol : f.Solved D m.env)
    (hm : MemRel strength f m m') (hops : ∀ o ∈ i.operands, D o)
    (hkept : f.replaced strength i.dest = false) :
    ResRel (MemRel strength f) (execInst W i m) (execInst W (f.outInst strength pre i) m') := by
  obtain ⟨henv, hw, ht⟩ := hm
  obtain ⟨hhi, heval⟩ := ho.outInst_eval hsplit hg hsol henv hops hkept
  have hdest : (f.outInst strength pre i).dest = i.dest := by
    rw [MirFunc.outInst, MirInst.rewriteValues_dest, combineInst_dest]
  simp only [execInst, hw, ht, heval, hdest, hhi]
  cases evalInst W i m.env m.world m.trace with
  | error r => rfl
  | ok r =>
    refine ⟨fun v hv ↦ ?_, rfl, rfl⟩
    by_cases hvi : v ∈ i.dests
    · exact Env.write_of_mem hvi
    · simp only [Env.write_of_notMem hvi, henv v hv]

theorem execInst_of_replaced (ho : f.Ordered) (hsplit : f.insts = pre ++ i :: post)
    {D : ValueId → Prop} {m m' : Mem σ} (hg : f.Grounded D) (hsol : f.Solved D m.env)
    (hm : MemRel strength f m m') (hops : ∀ o ∈ i.operands, D o)
    (hrep : f.replaced strength i.dest = true) :
    ∃ m₁, execInst W i m = .ok m₁ ∧ MemRel strength f m₁ m' := by
  obtain ⟨henv, hw, ht⟩ := hm
  obtain ⟨hdests, r, heval⟩ := ho.evalInst_of_replaced hsplit hg hsol hops hrep
  refine ⟨⟨m.env.write i.dest i.hi r, m.world, m.trace⟩, by rw [execInst, heval], ?_, hw, ht⟩
  intro v hv
  have hvi : v ∉ i.dests := by
    rw [hdests, List.mem_singleton]
    rintro rfl
    rw [hrep] at hv
    cases hv
  simp only [Env.write_of_notMem hvi, henv v hv]

/-- **The bodies run alike**, and keep the available values solved. -/
theorem execBody_outInsts (hf : WellFormed f) (hd : f.Dominated) (ho : f.Ordered)
    (hb : f.block? b = some blk) (hr : f.Reached b) {is : List MirInst} (hblk : blk.insts = pre ++ is)
    (hphi : ∀ i ∈ is, i.isPhi = false) {m m' : Mem σ} (hsol : f.Solved (f.Avail b pre) m.env)
    (hm : MemRel strength f m m') :
    ResRel (fun m m' ↦ f.Solved (f.Avail b blk.insts) m.env ∧ MemRel strength f m m')
      (execBody W is m) (execBody W (f.outInsts strength (f.before b ++ pre) is) m') := by
  induction is generalizing pre m m' with
  | nil =>
    rw [List.append_nil] at hblk
    subst hblk
    exact ⟨hsol, hm⟩
  | cons i is ih =>
    obtain ⟨t, hsplit⟩ := MirFunc.insts_split hb hblk
    have hphi' : ∀ j ∈ is, j.isPhi = false := fun j hj ↦ hphi j (List.mem_cons_of_mem _ hj)
    have hops := hd.inst hb hblk (hphi i List.mem_cons_self)
    have hg := grounded_avail hf hd hb hr ⟨_, hblk.symm⟩
    have hblk' : blk.insts = (pre ++ [i]) ++ is := by rw [hblk]; simp
    have hsol' : ∀ {m₁ : Mem σ}, execInst W i m = .ok m₁ →
        f.Solved (f.Avail b (pre ++ [i])) m₁.env := fun hrun ↦
      hsol.execInst hf hd hb hr hblk (hphi i List.mem_cons_self) hrun
    cases hrep : f.replaced strength i.dest with
    | true =>
      obtain ⟨m₁, hrun, hm₁⟩ := execInst_of_replaced (W := W) ho hsplit hg hsol hm hops hrep
      have h := ih hblk' hphi' (hsol' hrun) hm₁
      rw [MirFunc.outInsts, if_pos hrep, execBody, hrun, List.append_assoc]
      exact h
    | false =>
      have hstep := execInst_outInst (W := W) ho hsplit hg hsol hm hops hrep
      rw [MirFunc.outInsts, if_neg (by rw [hrep]; exact Bool.false_ne_true), execBody, execBody]
      cases hrun : execInst W i m with
      | error r =>
        cases hrun' : execInst W (f.outInst strength (f.before b ++ pre) i) m' with
        | error r' =>
          rw [hrun, hrun'] at hstep
          exact hstep
        | ok m₁' =>
          rw [hrun, hrun'] at hstep
          exact hstep.elim
      | ok m₁ =>
        cases hrun' : execInst W (f.outInst strength (f.before b ++ pre) i) m' with
        | error r' =>
          rw [hrun, hrun'] at hstep
          exact hstep.elim
        | ok m₁' =>
          rw [hrun, hrun'] at hstep
          rw [List.append_assoc]
          exact ih hblk' hphi' (hsol' hrun) hstep

/-- A φ reads the value that stands for its incoming, unless the edge is dead. -/
theorem phiArg_dropArgs {es : List (BlockId × BlockId)} {r : ValueId → ValueId} {p : Option BlockId}
    (hp : ∀ q, p = some q → (q, b) ∉ es) :
    phiArg p (dropArgs es b (i.rewriteValues r)) = (phiArg p i).map r := by
  cases i with
  | phi d ty args =>
    cases p with
    | none => rfl
    | some q =>
      have hq := hp q rfl
      have hpred : (fun a : BlockId × ValueId ↦
          decide (decide ((a.1, b) ∉ es) = true ∧ decide (a.1 = q) = true)) =
            fun a ↦ decide (a.1 = q) := by
        funext a
        by_cases ha : a.1 = q
        · simp [ha, hq]
        · simp [ha]
      simp only [phiArg, MirInst.rewriteValues, dropArgs, Option.bind_some, List.find?_filter,
        List.find?_map, Option.map_map, Function.comp_def, hpred]
  | _ => rfl

/-- The runs are in the same block, entered by the same edge, which is not dead, and the values available
at the end of the block left are solved. -/
structure RunRel (strength : Bool) (f : MirFunc) (s t : State σ) : Prop where
  block : t.block = s.block
  pred : t.pred = s.pred
  mem : MemRel strength f s.mem t.mem
  start : s.pred = none → s.block = f.entry
  edge : ∀ {p}, s.pred = some p → f.Edge p s.block ∧ f.Reached p ∧
    f.Solved (f.AvailEnd p) s.mem.env ∧ (p, s.block) ∉ f.dead strength

theorem RunRel.reached {s t : State σ} (h : RunRel strength f s t) : f.Reached s.block := by
  cases hp : s.pred with
  | none =>
    rw [h.start hp]
    exact ⟨_, .start rfl⟩
  | some p =>
    obtain ⟨he, hr, -⟩ := h.edge hp
    exact Reached.of_edge hr he

/-- The φs write the same words. -/
theorem RunRel.enter (hf : WellFormed f) (hd : f.Dominated) (ho : f.Ordered) {s t : State σ}
    (h : RunRel strength f s t) (hb : f.block? s.block = some blk) :
    ready t.pred (f.combined strength s.block blk).phis = ready s.pred blk.phis ∧
      AgreeKept strength f (enter s.pred blk.phis s.mem.env)
        (enter t.pred (f.combined strength s.block blk).phis t.mem.env) := by
  have harg : ∀ i, phiArg t.pred (dropArgs (f.dead strength) s.block
      (i.rewriteValues (f.kept strength))) = (phiArg s.pred i).map (f.kept strength) := by
    intro i
    rw [h.pred]
    exact phiArg_dropArgs fun q hq ↦ (h.edge hq).2.2.2
  rw [(phis_combined hf ho hb).1]
  constructor
  · simp only [ready, List.all_map]
    refine Bool.eq_iff_iff.2 ?_
    simp only [List.all_eq_true, Function.comp_apply, harg, Option.isSome_map]
  · intro v hv
    have hfind : (blk.phis.map fun i ↦ dropArgs (f.dead strength) s.block
        (i.rewriteValues (f.kept strength))).find? (·.dest = v) =
          (blk.phis.find? (·.dest = v)).map fun i ↦ dropArgs (f.dead strength) s.block
            (i.rewriteValues (f.kept strength)) := by
      rw [List.find?_map]
      congr 2
      funext i
      simp [(phiMap_dropArgs (f.dead strength) s.block).dest]
    unfold Mir.enter
    rw [hfind]
    cases hi : blk.phis.find? (·.dest = v) with
    | none => exact h.mem.1 v hv
    | some i =>
      simp only [Option.map_some, Option.bind_some, harg]
      cases ha : phiArg s.pred i with
      | none => exact h.mem.1 v hv
      | some a =>
        -- the incoming is available at the end of the block left
        obtain ⟨d, ty, args, p, rfl, hp, hfa⟩ := phiArg_eq_some ha
        obtain ⟨⟨pblk, hpb, -⟩, hr, hsol, -⟩ := h.edge hp
        have hmem := (List.mem_filter.1 (List.mem_of_find?_eq_some hi)).1
        have hav := hd.phi hb hmem _ (List.mem_of_find?_eq_some hfa)
        have hg : f.Grounded (f.AvailEnd p) := by
          have hg' := grounded_avail hf hd hpb hr (List.prefix_refl _)
          intro c hc j hj hphi hdest o ho'
          exact (availEnd_iff hpb).2 (hg' c hc j hj hphi ((availEnd_iff hpb).1 hdest) o ho')
        exact ho.kept_word hg hsol h.mem.1 hav

/-- Where a block goes on to, with its branch folded. -/
theorem RunRel.execTerm (hf : WellFormed f) (hd : f.Dominated) (ho : f.Ordered)
    (hb : f.block? b = some blk) (hr : f.Reached b) {m m' : Mem σ}
    (hsol : f.Solved (f.Avail b blk.insts) m.env) (hm : MemRel strength f m m') :
    StepRel (RunRel strength f) (execTerm (π := π) b m blk.term)
      (Mir.execTerm b m' (f.combined strength b blk).term) := by
  have hg := grounded_avail hf hd hb hr (List.prefix_refl _)
  have hsol' : f.Solved (f.AvailEnd b) m.env := by
    intro c hc j hj hdest r hr'
    exact hsol c hc j hj ((availEnd_iff hb).1 hdest) r hr'
  have hword : ∀ {o t}, blk.term = some t → o ∈ t.operands → m'.env (f.kept strength o) = m.env o :=
    fun ht hmem ↦ ho.kept_word hg hsol hm.1 ((availEnd_iff hb).1 (hd.term hb ht _ hmem))
  have hterm : (f.combined strength b blk).term =
      (foldBranch (f.known strength) (f.outBlock strength (f.before b) blk)).term := rfl
  have hbranch : f.branch strength b =
      knownBranch (f.known strength) (f.outBlock strength (f.before b) blk) := by
    rw [MirFunc.branch, hb]
    rfl
  -- the run goes on along an edge that is not dead
  have hgo : ∀ d, d ∈ blk.succs → (b, d) ∉ f.dead strength →
      RunRel strength f ⟨d, some b, m⟩ ⟨d, some b, m'⟩ := by
    intro d hmem hdead
    refine ⟨rfl, rfl, hm, fun h ↦ (by cases h), fun hp ↦ ?_⟩
    cases hp
    exact ⟨⟨blk, hb, hmem⟩, hr, hsol', hdead⟩
  obtain ⟨t, ht⟩ := hf.term blk (List.mem_of_getElem? hb)
  have hout : (f.outBlock strength (f.before b) blk).term =
      some (t.rewriteValues (f.kept strength)) := by
    rw [MirFunc.outBlock, ht]
    rfl
  have hsuccs : blk.succs = t.succs := by
    rw [MirBlock.succs, ht]
    rfl
  rw [hterm, ht]
  cases hk : knownBranch (f.known strength) (f.outBlock strength (f.before b) blk) with
  | none =>
    have hnodead : ∀ d, (b, d) ∉ f.dead strength := by
      intro d hdead
      obtain ⟨dest, hbr, -⟩ := (mem_dead hf).1 hdead
      rw [hbranch, hk] at hbr
      cases hbr
    rw [foldBranch, hk]
    simp only
    rw [hout]
    cases t with
    | jump d => exact hgo d (by rw [hsuccs]; exact List.mem_singleton_self d) (hnodead d)
    | br c t n =>
      simp only [Mir.execTerm, Terminator.rewriteValues, hword ht (List.mem_singleton_self c)]
      refine hgo _ ?_ (hnodead _)
      rw [hsuccs, Terminator.succs]
      split <;> simp
    | ret lo hi =>
      have hlo : ∀ x ∈ lo, m'.env (f.kept strength x) = m.env x := fun x hx ↦
        hword ht (List.mem_append_left _ (Option.mem_toList.2 hx))
      have hhi : ∀ x ∈ hi, m'.env (f.kept strength x) = m.env x := fun x hx ↦
        hword ht (List.mem_append_right _ (Option.mem_toList.2 hx))
      simp only [Mir.execTerm, Terminator.rewriteValues, StepRel, Mem.finish, Option.map_map, hm.2.1,
        hm.2.2, Result.mk.injEq, Outcome.ret.injEq, and_true]
      exact ⟨Option.map_congr fun x hx ↦ (hlo x hx).symm, Option.map_congr fun x hx ↦ (hhi x hx).symm⟩
    | unreachable =>
      simp only [Mir.execTerm, Terminator.rewriteValues, StepRel, Mem.finish, hm.2.1, hm.2.2]
  | some e =>
    obtain ⟨dest, dead⟩ := e
    rw [foldBranch, hk]
    simp only [MirBlock.setTerm]
    have hk' := hk
    rw [knownBranch, hout] at hk'
    cases t with
    | br c t n =>
      simp only [Terminator.rewriteValues] at hk'
      split at hk'
      · rename_i x hx
        have hc := List.mem_singleton_self c
        have hDc := (availEnd_iff hb).1 (hd.term hb ht c hc)
        have hs : (f.scan strength f.insts).Settled f f.insts := ho.settled (List.prefix_refl _)
        obtain ⟨hDk, hkw⟩ := (ho.facts strength hg hsol (List.prefix_refl _)).resolve hs hDc
        have hcw : m.env c = (MirConst.bool x).word := hkw.symm.trans (ho.known_word hg hsol hx hDk)
        have hdest : (if m.env c = 0 then n else t) = dest := by
          rw [hcw]
          cases x with
          | true => exact (Prod.mk.inj (Option.some.inj hk')).1
          | false => exact (Prod.mk.inj (Option.some.inj hk')).1
        simp only [Mir.execTerm, hdest]
        refine hgo dest ?_ ?_
        · rw [hsuccs, Terminator.succs, ← hdest]
          split <;> simp
        · intro hdead
          obtain ⟨dest', hbr, hne⟩ := (mem_dead hf).1 hdead
          rw [hbranch, hk] at hbr
          obtain ⟨rfl, rfl⟩ := Prod.mk.inj (Option.some.inj hbr)
          exact hne rfl
      · cases hk'
    | _ => cases hk'

/-- **Instruction combining preserves the runs** of every verified function whose uses are dominated by
their definitions. -/
theorem instcombineOnce_runs (hv : f.verify = .ok ()) (hd : f.Dominated) :
    Preserves f (instcombineOnce strength f).1 := by
  have hf := MirFunc.wellFormed_of_verify hv
  have ho := MirFunc.ordered_of_verify hv hd
  refine Preserves.of_lockstep fun σ π W env w ↦ ⟨RunRel strength f, ?_, ?_⟩
  · refine ⟨?_, rfl, ⟨fun _ _ ↦ rfl, rfl, rfl⟩, fun _ ↦ rfl, fun h ↦ (by cases h)⟩
    rw [instcombineOnce_eq _ ho]
    rfl
  · intro s t h
    refine ⟨h.mem.2.2.symm, fun hns ↦ ?_⟩
    obtain ⟨blk, hb, hready⟩ := exists_ready hns
    obtain ⟨hready', henter⟩ := h.enter hf hd ho hb
    have hb' : (instcombineOnce strength f).1.block? t.block =
        some (f.combined strength s.block blk) := by
      rw [instcombineOnce_block? _ hf ho, h.block, hb]
      rfl
    rw [step_eq_leave hb hready, step_eq_leave hb' (hready'.trans hready), h.block]
    have hr := h.reached
    -- the values available before the block are solved after its φs
    have hsol : f.Solved (f.Avail s.block blk.phis) (enter s.pred blk.phis s.mem.env) := by
      cases hp : s.pred with
      | none =>
        refine MirFunc.Solved.enter hf hd hb hr (D := fun _ ↦ False) ?_ fun _ _ _ _ h ↦ h.elim
        intro q blk' v hne hdom
        rw [h.start hp] at hne hdom
        exact absurd hdom (not_dom_entry hne)
      | some p =>
        obtain ⟨he, -, hsolp, -⟩ := h.edge hp
        refine MirFunc.Solved.enter hf hd hb hr ?_ hsolp
        intro q blk' v hne hdom hq hv
        exact .inr ⟨q, blk', dom_pred he hdom hne, hq, hv⟩
    refine ResRel.leave (P := fun m m' ↦ f.Solved (f.Avail s.block blk.insts) m.env ∧
      MemRel strength f m m') ?_ fun m m' hm ↦ RunRel.execTerm hf hd ho hb hr hm.1 hm.2
    rw [bodyOf, bodyOf, (phis_combined hf ho hb).2.1]
    refine execBody_outInsts hf hd ho hb hr (hf.insts blk (List.mem_of_getElem? hb)) ?_ hsol
      ⟨henter, h.mem.2.1, h.mem.2.2⟩
    intro i hi
    simpa using (List.mem_filter.1 hi).2

end

end CoilLang.Mir
