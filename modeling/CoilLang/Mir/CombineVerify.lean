import CoilLang.Mir.CombineTypes

/-!
# Instruction combining and verification

The result of instruction combining has the blocks, parameters and types of the function, uses come after
definitions as before, and the φ incomings of a dead edge go with the edge. What verification can still refuse
is told exactly (`instcombineOnce_verify_iff`): a branch folded onto its one target leaves that block
with one φ incoming too many, and a heap word kept for an `i64` may stand where only an `i64` is
taken. The runs are the same in any case (`instcombineOnce_runs`).
-/

namespace CoilLang.Mir

variable {strength : Bool} {f : MirFunc} {b p : BlockId} {blk : MirBlock}

/-! ### The edges of the result -/

theorem knownBranch_eq_some {known : Consts} {dest dead : BlockId}
    (h : knownBranch known blk = some (dest, dead)) :
    (∀ b, blk.succs.count b = [dest, dead].count b) ∧ (foldBranch known blk).succs = [dest] := by
  have hfold : (foldBranch known blk).succs = [dest] := by
    rw [foldBranch, h]
    rfl
  refine ⟨fun b ↦ ?_, hfold⟩
  unfold knownBranch at h
  split at h
  · rename_i c t n hterm
    split at h
    · rename_i x hx
      have hsuccs : blk.succs = [t, n] := by
        rw [MirBlock.succs, hterm]
        rfl
      rw [hsuccs]
      cases x with
      | true =>
        cases h
        rfl
      | false =>
        cases h
        exact (List.Perm.swap _ _ _).count_eq b
    · cases h
  · cases h

theorem outBlock_succs {pre : List MirInst} : (f.outBlock strength pre blk).succs = blk.succs := by
  rw [MirBlock.succs, MirBlock.succs, MirFunc.outBlock]
  cases blk.term with
  | none => rfl
  | some t => exact Terminator.rewriteValues_succs _ t

/-- **The φ incomings that stay are the edges that stay**, unless a branch with one target is folded. -/
theorem count_combined (hf : WellFormed f) (hp : f.block? p = some blk) :
    (if (p, b) ∈ f.dead strength then 0 else blk.succs.count b) =
      (f.combined strength p blk).succs.count b ↔ f.branch strength p ≠ some (b, b) := by
  have hbranch : f.branch strength p =
      knownBranch (f.known strength) (f.outBlock strength (f.before p) blk) := by
    rw [MirFunc.branch, hp]
    rfl
  have hsuccs : (f.combined strength p blk).succs =
      (foldBranch (f.known strength) (f.outBlock strength (f.before p) blk)).succs := rfl
  rw [hsuccs, hbranch]
  cases hk : knownBranch (f.known strength) (f.outBlock strength (f.before p) blk) with
  | none =>
    have hdead : (p, b) ∉ f.dead strength := fun h ↦ by
      obtain ⟨dest, hbr, -⟩ := (mem_dead hf).1 h
      rw [hbranch, hk] at hbr
      cases hbr
    rw [if_neg hdead, foldBranch, hk]
    simp [outBlock_succs]
  | some e =>
    obtain ⟨dest, dd⟩ := e
    obtain ⟨hcount, hone⟩ := knownBranch_eq_some hk
    rw [outBlock_succs] at hcount
    have hdead : (p, b) ∈ f.dead strength ↔ b = dd ∧ dd ≠ dest := by
      rw [mem_dead hf, hbranch, hk]
      constructor
      · rintro ⟨dest', hbr, hne⟩
        obtain ⟨rfl, rfl⟩ := Prod.mk.inj (Option.some.inj hbr)
        exact ⟨rfl, hne⟩
      · rintro ⟨rfl, hne⟩
        exact ⟨dest, rfl, hne⟩
    rw [hone, hcount b]
    simp only [hdead, ne_eq, Option.some.injEq, Prod.mk.injEq]
    by_cases hdd : dd = dest
    · subst hdd
      by_cases hb : dd = b
      · subst hb
        simp
      · simp [hb]
    · by_cases hb : b = dd
      · subst hb
        have hne : ¬dest = b := fun h ↦ hdd h.symm
        simp [hdd, hne]
      · have hne : ¬dd = b := fun h ↦ hb h.symm
        simp [hb, hne, List.count_cons]

/-! ### The result is well formed -/

theorem instcombineOnce_blocks (hf : WellFormed f) (ho : f.Ordered) :
    (instcombineOnce strength f).1.blocks = f.blocks.mapIdx (f.combined strength) := by
  refine List.ext_getElem? fun j ↦ ?_
  rw [List.getElem?_mapIdx]
  exact instcombineOnce_block? _ hf ho j

theorem dropArgs_dests {es : List (BlockId × BlockId)} {i : MirInst} :
    (dropArgs es b i).dests = i.dests := by
  cases i <;> rfl

variable {pre post : List MirInst} {i : MirInst}

theorem MirFunc.Ordered.outInst_dests (ho : f.Ordered) (hsplit : f.insts = pre ++ i :: post)
    (hkept : f.replaced strength i.dest = false) :
    (f.outInst strength pre i).dests = i.dests := by
  rcases ho.outInst_cases _ hsplit with ⟨-, hout⟩ | ⟨keep, -, hrep⟩ | ⟨c, hfold, -, hout⟩ |
    ⟨i', hfold, -, hout⟩
  · rw [hout, MirInst.rewriteValues_dests]
  · rw [hrep] at hkept
    cases hkept
  · rw [hout]
    cases i with
    | op | phi => rcases hfold with h | h <;> cases h
    | _ => rfl
  · obtain ⟨d, x, y, hmul, hcase⟩ := foldInst_eq_rewrite hfold
    obtain ⟨l, r, rfl, rfl, rfl⟩ := rewriteValues_eq_bin hmul
    rw [hout]
    rcases hcase with ⟨rfl, -⟩ | ⟨rfl, -⟩
    · rfl
    · rfl

/-- The values left are those defined before that are not replaced. -/
theorem MirFunc.Ordered.outInsts_dests (strength : Bool) (ho : f.Ordered) {is : List MirInst}
    (hsplit : f.insts = pre ++ (is ++ post)) :
    ((f.outInsts strength pre is).flatMap MirInst.dests).Sublist (is.flatMap MirInst.dests) ∧
      ∀ v ∈ is.flatMap MirInst.dests, f.replaced strength v = false →
        v ∈ (f.outInsts strength pre is).flatMap MirInst.dests := by
  induction is generalizing pre with
  | nil => simp [MirFunc.outInsts]
  | cons i is ih =>
    have hsplit' : f.insts = (pre ++ [i]) ++ (is ++ post) := by simp [hsplit]
    obtain ⟨hsub, hmem⟩ := ih hsplit'
    rw [MirFunc.outInsts, List.flatMap_cons]
    split
    · rename_i hrep
      refine ⟨hsub.trans (List.sublist_append_right _ _), fun v hv hkept ↦ ?_⟩
      rcases List.mem_append.1 hv with hv | hv
      · -- what goes defines one value, which is replaced
        have hdests : i.dests = [i.dest] := by
          rcases ho.outInst_cases strength hsplit with ⟨h, -⟩ | ⟨keep, hfold, -⟩ |
            ⟨c, -, h, -⟩ | ⟨i', -, h, -⟩
          · rw [hrep] at h
            cases h
          · obtain ⟨-, d, op, ty, x, y, hbin⟩ := foldInst_eq_subst hfold
            obtain ⟨l, r, rfl, -⟩ := rewriteValues_eq_bin hbin
            rfl
          · rw [hrep] at h
            cases h
          · rw [hrep] at h
            cases h
        rw [hdests, List.mem_singleton] at hv
        rw [hv, hrep] at hkept
        cases hkept
      · exact hmem v hv hkept
    · rename_i hrep
      rw [List.flatMap_cons, ho.outInst_dests hsplit (by simpa using hrep)]
      refine ⟨hsub.append_left _, fun v hv hkept ↦ ?_⟩
      rcases List.mem_append.1 hv with hv | hv
      · exact List.mem_append_left _ hv
      · exact List.mem_append_right _ (hmem v hv hkept)

/-- What is left of an instruction reads the values kept for its operands. -/
theorem MirFunc.Ordered.outInst_operands (ho : f.Ordered) (hsplit : f.insts = pre ++ i :: post)
    (hkept : f.replaced strength i.dest = false) {x : ValueId}
    (hx : x ∈ (f.outInst strength pre i).operands) : ∃ o ∈ i.operands, x = f.kept strength o := by
  rcases ho.outInst_cases _ hsplit with ⟨-, hout⟩ | ⟨keep, -, hrep⟩ | ⟨c, -, -, hout⟩ |
    ⟨i', hfold, -, hout⟩
  · rw [hout, MirInst.operands_rewriteValues] at hx
    obtain ⟨o, hoi, rfl⟩ := List.mem_map.1 hx
    exact ⟨o, hoi, rfl⟩
  · rw [hrep] at hkept
    cases hkept
  · rw [hout] at hx
    cases hx
  · obtain ⟨d, x', y, hmul, hcase⟩ := foldInst_eq_rewrite hfold
    obtain ⟨l, r, rfl, rfl, rfl⟩ := rewriteValues_eq_bin hmul
    have hres : ∀ o, f.kept strength ((f.scan strength pre).resolve f o) = f.kept strength o :=
      ho.resolve_resolve _ ⟨_, hsplit.symm⟩
    rw [hout] at hx
    rcases hcase with ⟨rfl, -⟩ | ⟨rfl, -⟩
    · refine ⟨l, by simp [MirInst.operands], ?_⟩
      simpa [MirInst.rewriteValues, MirInst.operands, hres] using hx
    · refine ⟨r, by simp [MirInst.operands], ?_⟩
      simpa [MirInst.rewriteValues, MirInst.operands, hres] using hx

theorem combined_dests : (f.combined strength b blk).insts.flatMap MirInst.dests =
    (f.outInsts strength (f.before b) blk.insts).flatMap MirInst.dests := by
  rw [MirFunc.combined, MirBlock.mapInsts]
  simp only
  rw [foldBranch_insts, MirFunc.outBlock, List.flatMap_map]
  simp only [dropArgs_dests]

theorem before_dests (strength : Bool) (hf : WellFormed f) (ho : f.Ordered) {k : ℕ} (hk : k ≤ f.blocks.length) :
    (((instcombineOnce strength f).1.blocks.take k).flatMap MirBlock.insts).flatMap MirInst.dests =
      (f.outInsts strength [] (f.before k)).flatMap MirInst.dests := by
  induction k with
  | zero => rfl
  | succ k ih =>
    have hlt : k < f.blocks.length := hk
    obtain ⟨blk, hblk⟩ : ∃ blk, f.block? k = some blk := ⟨_, List.getElem?_eq_getElem hlt⟩
    have hblk' : (instcombineOnce strength f).1.blocks[k]? = some (f.combined strength k blk) := by
      have := instcombineOnce_block? strength hf ho k
      rw [hblk] at this
      exact this
    have hbefore : f.before (k + 1) = f.before k ++ blk.insts := by
      rw [MirFunc.before, List.take_add_one, show f.blocks[k]? = some blk from hblk]
      simp [MirFunc.before]
    rw [List.take_add_one, hblk', hbefore, MirFunc.outInsts_append, List.flatMap_append,
      List.flatMap_append, List.flatMap_append, ih (Nat.le_of_lt hlt)]
    simp [combined_dests]

/-- **Uses are defined before, in the order of the blocks**, in the result as well. -/
theorem instcombineOnce_ordered (hf : WellFormed f) (ho : f.Ordered) :
    (instcombineOnce strength f).1.Ordered := by
  have hparams : (instcombineOnce strength f).1.params = f.params := by rw [instcombineOnce_eq _ ho]
  -- an instruction of the result is what is left of one of the function
  have key : ∀ {preg j postg}, (instcombineOnce strength f).1.insts = preg ++ j :: postg →
      ∃ b pre i post, f.insts = pre ++ i :: post ∧ f.replaced strength i.dest = false ∧
        j = dropArgs (f.dead strength) b (f.outInst strength pre i) ∧
        preg.flatMap MirInst.dests = (f.outInsts strength [] pre).flatMap MirInst.dests := by
    intro preg j postg h
    obtain ⟨l₁, a, l₂, u, t, hblocks, ha, rfl⟩ := exists_of_flatMap_eq h
    have hget : (instcombineOnce strength f).1.block? l₁.length = some a := by
      rw [MirFunc.block?, hblocks, List.getElem?_append_right le_rfl, Nat.sub_self]
      rfl
    rw [instcombineOnce_block? _ hf ho] at hget
    obtain ⟨blk, hblk, rfl⟩ := Option.map_eq_some_iff.1 hget
    have hlt : l₁.length < f.blocks.length := (List.getElem?_eq_some_iff.1 hblk).1
    have htake : l₁ = (instcombineOnce strength f).1.blocks.take l₁.length := by
      rw [hblocks, List.take_left]
    rw [MirFunc.combined, MirBlock.mapInsts] at ha
    simp only at ha
    rw [foldBranch_insts, MirFunc.outBlock] at ha
    simp only at ha
    obtain ⟨u', t', hut, rfl, ht'⟩ := List.map_eq_append_iff.1 ha
    obtain ⟨j', t'', rfl, rfl, -⟩ := List.map_eq_cons_iff.1 ht'
    obtain ⟨u₀, i, t₀, hinsts, hkept, rfl, rfl⟩ := MirFunc.outInsts_split hut
    obtain ⟨t₁, hsplit⟩ := MirFunc.insts_split hblk hinsts
    refine ⟨l₁.length, _, i, _, hsplit, hkept, rfl, ?_⟩
    rw [MirFunc.outInsts_append, List.flatMap_append, List.flatMap_append, List.nil_append,
      ← before_dests _ hf ho (Nat.le_of_lt hlt), ← htake, List.flatMap_map]
    simp only [dropArgs_dests]
  refine ⟨fun h ↦ ?_, fun h hphi ↦ ?_⟩
  · obtain ⟨b, pre, i, post, hsplit, hkept, rfl, hdests⟩ := key h
    intro d hd hseen
    rw [dropArgs_dests, ho.outInst_dests hsplit hkept] at hd
    refine ho.fresh hsplit d hd ?_
    rw [MirFunc.seen, hdests, hparams] at hseen
    rcases List.mem_append.1 hseen with hseen | hseen
    · exact List.mem_append_left _ hseen
    · refine List.mem_append_right _ ?_
      have hsplit' : f.insts = [] ++ (pre ++ i :: post) := hsplit
      exact (ho.outInsts_dests _ hsplit').1.subset hseen
  · obtain ⟨b, pre, i, post, hsplit, hkept, rfl, hdests⟩ := key h
    rw [(phiMap_dropArgs _ b).isPhi] at hphi
    rw [(phiMap_dropArgs _ b).other _ hphi]
    rw [ho.outInst_isPhi hsplit hkept] at hphi
    intro x hx
    obtain ⟨o, hoi, rfl⟩ := ho.outInst_operands hsplit hkept hx
    have hpre : pre <+: f.insts := ⟨_, hsplit.symm⟩
    have hs : (f.scan strength pre).Settled f pre := ho.settled hpre
    have hn : (f.scan strength f.insts).Settled f f.insts := ho.settled (List.prefix_refl _)
    have hseen := ho.operands hsplit hphi o hoi
    have hkseen : f.kept strength o ∈ f.seen pre := by
      rw [← ho.resolve_eq_kept hpre hseen]
      exact hs.resolve_mem_seen hseen
    have hknot : f.replaced strength (f.kept strength o) = false := by
      rw [MirFunc.replaced, MirFunc.kept, hn.subst_resolve, Option.isSome_none]
    rw [MirFunc.seen, hdests, hparams]
    rcases List.mem_append.1 hkseen with hk | hk
    · exact List.mem_append_left _ hk
    · refine List.mem_append_right _ ?_
      have hsplit' : f.insts = [] ++ (pre ++ i :: post) := hsplit
      exact (ho.outInsts_dests _ hsplit').2 _ hk hknot

/-! ### When the result verifies -/

/-- Every use that stays takes the type of the value kept for it. -/
structure MirFunc.TakesKept (strength : Bool) (f : MirFunc) : Prop where
  inst : ∀ b ∈ f.blocks, ∀ i ∈ b.insts, f.replaced strength i.dest = false →
    f.known strength i.dest = none → ∀ o ∈ (dropArgs (f.dead strength) b.id i).operands,
      f.ty (f.kept strength o) = f.ty o ∨ i.takes (f.ty (f.kept strength o)) = true
  term : ∀ b ∈ f.blocks, ∀ t, b.term = some t → ∀ o ∈ t.operands,
    f.ty (f.kept strength o) = f.ty o ∨ f.termTakes o (f.ty (f.kept strength o)) t = true

/-- No branch that folds has one block with φs as both its targets. -/
def MirFunc.NoJoinedBranch (strength : Bool) (f : MirFunc) : Prop :=
  ∀ b d, f.branch strength b = some (d, d) → f.phisOf d = []

theorem count_fst_filter {es : List (BlockId × BlockId)} {args : List (BlockId × ValueId)} :
    ((args.filter fun a ↦ (a.1, b) ∉ es).map Prod.fst).count p =
      if (p, b) ∈ es then 0 else (args.map Prod.fst).count p := by
  have hfilter : (args.filter fun a ↦ (a.1, b) ∉ es).map Prod.fst =
      (args.map Prod.fst).filter fun q ↦ (q, b) ∉ es := by
    rw [List.filter_map]
    rfl
  rw [hfilter]
  split
  · rename_i hp
    refine List.count_eq_zero.2 fun hmem ↦ ?_
    simpa [hp] using (List.mem_filter.1 hmem).2
  · rename_i hp
    exact List.count_filter (by simpa using hp)

/-- The φ incomings agree with the predecessors of the result when no branch into the block was folded
that had it as both targets. -/
theorem perm_preds_iff (hf : WellFormed f) (ho : f.Ordered) {args : List (BlockId × ValueId)}
    (hargs : (args.map Prod.fst).Perm (f.preds b)) :
    ((args.filter fun a ↦ (a.1, b) ∉ f.dead strength).map Prod.fst).Perm
      ((instcombineOnce strength f).1.preds b) ↔ ∀ p, f.branch strength p ≠ some (b, b) := by
  have hid : ∀ {j : ℕ} {c : MirBlock}, (instcombineOnce strength f).1.blocks[j]? = some c →
      c.id = j := by
    intro j c hc
    have hc : (instcombineOnce strength f).1.block? j = some c := hc
    rw [instcombineOnce_block? _ hf ho] at hc
    obtain ⟨blk, hblk, rfl⟩ := Option.map_eq_some_iff.1 hc
    have hid : blk.id = j := hf.id hblk
    rw [MirFunc.combined, MirBlock.mapInsts]
    exact (foldBranch_id _ _).trans hid
  rw [List.perm_iff_count]
  refine forall_congr' fun p ↦ ?_
  rw [count_fst_filter, hargs.count_eq, count_preds hf.id, count_preds hid, MirFunc.succsOf,
    MirFunc.succsOf, instcombineOnce_block? _ hf ho]
  cases hp : f.block? p with
  | none => simp [MirFunc.branch, hp]
  | some blk => exact count_combined hf hp

/-- **When what is left of an instruction passes its check.** -/
theorem check_combined (hf : WellFormed f) (ho : f.Ordered) (hb : f.block? b = some blk)
    (hblk : blk.insts = pre ++ i :: post) (hkept : f.replaced strength i.dest = false) :
    f.checkInst ((instcombineOnce strength f).1.preds b)
        (dropArgs (f.dead strength) b (f.outInst strength (f.before b ++ pre) i)) = .ok () ↔
      (∃ c, f.outInst strength (f.before b ++ pre) i = .const i.dest c) ∨
      ((i.isPhi = true → ∀ p, f.branch strength p ≠ some (b, b)) ∧
        ∀ o ∈ (dropArgs (f.dead strength) b i).operands,
          f.ty (f.kept strength o) = f.ty o ∨ i.takes (f.ty (f.kept strength o)) = true) := by
  obtain ⟨t, hsplit⟩ := MirFunc.insts_split hb hblk
  cases hphi : i.isPhi with
  | false =>
    have hout : (f.outInst strength (f.before b ++ pre) i).isPhi = false := by
      rw [ho.outInst_isPhi hsplit hkept, hphi]
    rw [(phiMap_dropArgs _ b).other _ hout, (phiMap_dropArgs _ b).other _ hphi,
      ho.outInst_check hf hsplit hphi hkept]
    simp
  | true =>
    cases i with
    | phi d ty args =>
      have hblk' : blk ∈ f.blocks := List.mem_of_getElem? hb
      have hid : blk.id = b := hf.id hb
      have hi : MirInst.phi d ty args ∈ blk.insts := by simp [hblk]
      have hchk := hf.checked blk hblk' _ hi
      rw [MirFunc.checkInst, checkPhi_eq_ok, hid] at hchk
      obtain ⟨hd, hspec, hperm, hargs⟩ := hchk
      rw [(ho.outInst_phi _ hsplit hphi).2]
      simp only [MirInst.rewriteValues, dropArgs, MirFunc.checkInst, checkPhi_eq_ok, hd, hspec,
        true_and, reduceCtorEq, exists_false, false_or, forall_const, MirInst.takes, or_false,
        MirInst.operands, Bool.false_eq_true]
      have hmap : (args.map fun a ↦ (a.1, f.kept strength a.2)).filter
          (fun a ↦ (a.1, b) ∉ f.dead strength) =
            (args.filter fun a ↦ (a.1, b) ∉ f.dead strength).map fun a ↦
              (a.1, f.kept strength a.2) := by
        rw [List.filter_map]
        rfl
      rw [hmap, List.map_map, show (Prod.fst ∘ fun a : BlockId × ValueId ↦
        (a.1, f.kept strength a.2)) = Prod.fst from rfl, perm_preds_iff hf ho hperm]
      refine and_congr_right fun _ ↦ ?_
      simp only [List.mem_map, forall_exists_index, and_imp, forall_apply_eq_imp_iff₂]
      refine forall₂_congr fun a ha ↦ ?_
      rw [hargs a (List.mem_filter.1 ha).1]
    | _ => cases hphi

theorem constsOf_ne_none {is : List MirInst} {v : ValueId} {c : MirConst}
    (h : MirInst.const v c ∈ is) : constsOf is v ≠ none := by
  induction is using List.reverseRecOn with
  | nil => cases h
  | append_singleton is i ih =>
    rw [constsOf, List.foldl_append]
    simp only [List.foldl_cons, List.foldl_nil]
    rcases List.mem_append.1 h with h | h
    · have hrest := ih h
      split
      · rename_i d c'
        by_cases hv : v = d
        · rw [hv, Function.update_self]
          exact Option.some_ne_none _
        · rw [Function.update_of_ne hv]
          exact hrest
      · exact hrest
    · obtain rfl := List.mem_singleton.1 h
      simp

/-- A value is known in the end when its instruction is a constant then. -/
theorem known_eq_none_iff (hf : WellFormed f) (hb : f.block? b = some blk)
    (hblk : blk.insts = pre ++ i :: post) (hkept : f.replaced strength i.dest = false) :
    f.known strength i.dest = none ↔
      ¬∃ c, f.outInst strength (f.before b ++ pre) i = .const i.dest c := by
  have hget : ∀ {j : BlockId} {c : MirBlock}, f.block? j = some c →
      (f.outBlocks strength)[j]? = some (f.outBlock strength (f.before j) c) := by
    intro j c hc
    rw [MirFunc.outBlocks, List.getElem?_mapIdx, show f.blocks[j]? = some c from hc]
    rfl
  constructor
  · rintro hnone ⟨c, hc⟩
    refine constsOf_ne_none (c := c) ?_ hnone
    refine List.mem_flatMap.2 ⟨_, List.mem_of_getElem? (hget hb), ?_⟩
    rw [MirFunc.outBlock]
    simp only
    rw [hblk, MirFunc.outInsts_append, MirFunc.outInsts, if_neg (by rw [hkept]; exact Bool.false_ne_true), hc]
    simp
  · intro hno
    cases hk : f.known strength i.dest with
    | none => rfl
    | some c =>
      refine absurd ⟨c, ?_⟩ hno
      obtain ⟨b', hb', hj⟩ := List.mem_flatMap.1 (constsOf_eq_some hk)
      obtain ⟨j, hj'⟩ := List.mem_iff_getElem?.1 hb'
      rw [MirFunc.outBlocks, List.getElem?_mapIdx] at hj'
      obtain ⟨blk', hblk', rfl⟩ := Option.map_eq_some_iff.1 hj'
      obtain ⟨u, i', t, hinsts, hrep, hout⟩ := MirFunc.mem_outInsts hj
      have hdest : i.dest = i'.dest := by
        have h := congrArg MirInst.dest hout
        rw [MirFunc.outInst, MirInst.rewriteValues_dest, combineInst_dest] at h
        exact h
      have hi : i ∈ blk.insts := by simp [hblk]
      have hi' : i' ∈ blk'.insts := by simp [hinsts]
      obtain ⟨rfl, rfl⟩ := hf.eq_of_dest hb hblk' hi hi' (by rw [← hdest]; exact i.dest_mem_dests)
      obtain rfl : blk = blk' := Option.some.inj (hb.symm.trans hblk')
      -- the instruction is at one place of its block
      have hu : i' ∉ u := fun hmem ↦ hf.notMem_pre hb hinsts i'.dest_mem_dests
        (List.mem_flatMap.2 ⟨i', hmem, i'.dest_mem_dests⟩)
      have ht : i' ∉ t := fun hmem ↦ by
        obtain ⟨t₁, t₂, rfl⟩ := List.append_of_mem hmem
        have hinsts' : blk.insts = (u ++ i' :: t₁) ++ i' :: t₂ := by rw [hinsts]; simp
        exact hf.notMem_pre hb hinsts' i'.dest_mem_dests
          (List.mem_flatMap.2 ⟨i', by simp, i'.dest_mem_dests⟩)
      obtain rfl : u = pre :=
        ((List.append_cons_inj_of_notMem hu ht).1 (hinsts.symm.trans hblk)).1
      exact hout.symm

/-- When what is left of a terminator passes its check. -/
theorem verifyTerm_combined (ho : f.Ordered) (hf : WellFormed f) {t : Terminator}
    (ht : blk.term = some t) (hchk : f.verifyTerm t = .ok ()) :
    (f.combined strength b blk).term.forM f.verifyTerm = .ok () ↔ ∀ o ∈ t.operands,
      f.ty (f.kept strength o) = f.ty o ∨ f.termTakes o (f.ty (f.kept strength o)) t = true := by
  have hout : (f.outBlock strength (f.before b) blk).term =
      some (t.rewriteValues (f.kept strength)) := by
    rw [MirFunc.outBlock, ht]
    rfl
  have hbr : ∀ c x y, t = .br c x y → f.ty (f.kept strength c) = f.ty c := by
    rintro c x y rfl
    simp only [MirFunc.verifyTerm, ensure_eq_ok, decide_eq_true_eq] at hchk
    refine (ho.kept_ty _ hf c).resolve_right fun h ↦ ?_
    rw [hchk] at h
    cases h.1
  have hterm : (f.combined strength b blk).term =
      (foldBranch (f.known strength) (f.outBlock strength (f.before b) blk)).term := rfl
  rw [hterm, foldBranch]
  cases hk : knownBranch (f.known strength) (f.outBlock strength (f.before b) blk) with
  | some e =>
    -- only a branch folds
    obtain ⟨dest, dead⟩ := e
    refine iff_of_true rfl fun o hoi ↦ .inl ?_
    rw [knownBranch, hout] at hk
    cases t with
    | br c x y =>
      obtain rfl := List.mem_singleton.1 hoi
      exact hbr o x y rfl
    | _ => cases hk
  | none =>
    simp only
    rw [hout]
    change f.verifyTerm (t.rewriteValues (f.kept strength)) = .ok () ↔ _
    cases t with
    | jump d => exact iff_of_true rfl fun o hoi ↦ (by cases hoi)
    | unreachable => exact iff_of_true rfl fun o hoi ↦ (by cases hoi)
    | br c x y =>
      refine iff_of_true ?_ fun o hoi ↦ .inl ?_
      · simpa [MirFunc.verifyTerm, Terminator.rewriteValues, ensure_eq_ok, hbr c x y rfl] using hchk
      · obtain rfl := List.mem_singleton.1 hoi
        exact hbr o x y rfl
    | ret lo hi =>
      simp only [MirFunc.verifyTerm, Terminator.rewriteValues, except_bind_eq_ok, ensure_eq_ok,
        exists_const, Option.isNone_map, Option.isSome_map, Option.all_map] at hchk ⊢
      obtain ⟨hlo₀, hlo, hhi₀, hhi⟩ := hchk
      simp only [hlo₀, hhi₀, true_and, Terminator.operands, List.mem_append, Option.mem_toList,
        MirFunc.termTakes, decide_eq_true_eq]
      rw [Option.all_eq_true] at hlo hhi
      rw [Option.all_eq_true, Option.all_eq_true]
      constructor
      · rintro ⟨hlo', hhi'⟩ o -
        refine .inr ⟨?_, ?_⟩
        · by_cases h : lo = some o
          · exact .inr (hlo' o h)
          · exact .inl h
        · by_cases h : hi = some o
          · exact .inr (hhi' o h)
          · exact .inl h
      · intro hops
        refine ⟨fun v hv ↦ ?_, fun v hv ↦ ?_⟩
        · rcases hops v (.inl hv) with h | h
          · simp only [h]
            exact hlo v hv
          · exact h.1.resolve_left (not_not_intro hv)
        · rcases hops v (.inr hv) with h | h
          · simp only [h]
            exact hhi v hv
          · exact h.2.resolve_left (not_not_intro hv)

/-- What the checks of the result say, one by one. -/
theorem checked_combined_iff (strength : Bool) (hf : WellFormed f) (ho : f.Ordered) :
    (∀ b blk, f.block? b = some blk → ∀ j ∈ (f.combined strength b blk).insts,
      f.checkInst ((instcombineOnce strength f).1.preds b) j = .ok ()) ↔
    f.NoJoinedBranch strength ∧ ∀ b ∈ f.blocks, ∀ i ∈ b.insts, f.replaced strength i.dest = false →
      f.known strength i.dest = none → ∀ o ∈ (dropArgs (f.dead strength) b.id i).operands,
        f.ty (f.kept strength o) = f.ty o ∨ i.takes (f.ty (f.kept strength o)) = true := by
  have hmem : ∀ {b blk} j, j ∈ (f.combined strength b blk).insts ↔ ∃ pre i post,
      blk.insts = pre ++ i :: post ∧ f.replaced strength i.dest = false ∧
        j = dropArgs (f.dead strength) b (f.outInst strength (f.before b ++ pre) i) := by
    intro b blk j
    rw [MirFunc.combined, MirBlock.mapInsts]
    simp only
    rw [foldBranch_insts, MirFunc.outBlock, List.mem_map]
    constructor
    · rintro ⟨j', hj', rfl⟩
      obtain ⟨u, i, t, hinsts, hkept, rfl⟩ := MirFunc.mem_outInsts hj'
      exact ⟨u, i, t, hinsts, hkept, rfl⟩
    · rintro ⟨u, i, t, hinsts, hkept, rfl⟩
      refine ⟨_, ?_, rfl⟩
      simp only
      rw [hinsts, MirFunc.outInsts_append, MirFunc.outInsts,
        if_neg (by rw [hkept]; exact Bool.false_ne_true)]
      simp
  constructor
  · intro hchk
    have hcheck : ∀ {b blk pre i post}, f.block? b = some blk → blk.insts = pre ++ i :: post →
        f.replaced strength i.dest = false → f.known strength i.dest = none →
          (i.isPhi = true → ∀ p, f.branch strength p ≠ some (b, b)) ∧
            ∀ o ∈ (dropArgs (f.dead strength) b i).operands,
              f.ty (f.kept strength o) = f.ty o ∨ i.takes (f.ty (f.kept strength o)) = true := by
      intro b blk pre i post hb hblk hkept hknown
      have h := hchk _ _ hb _ ((hmem _).2 ⟨pre, i, post, hblk, hkept, rfl⟩)
      rw [check_combined hf ho hb hblk hkept] at h
      exact h.resolve_left ((known_eq_none_iff hf hb hblk hkept).1 hknown)
    refine ⟨fun p d hbr ↦ ?_, fun blk hblk i hi hkept hknown ↦ ?_⟩
    · by_contra hne
      obtain ⟨i, hi⟩ := List.exists_mem_of_ne_nil _ hne
      rw [MirFunc.phisOf] at hi
      cases hd : f.block? d with
      | none =>
        rw [hd] at hi
        cases hi
      | some blk =>
        rw [hd] at hi
        obtain ⟨hi, hphi⟩ := List.mem_filter.1 hi
        obtain ⟨u, t, hinsts⟩ := List.append_of_mem hi
        obtain ⟨t', hsplit⟩ := MirFunc.insts_split hd hinsts
        obtain ⟨hkept, hout⟩ := ho.outInst_phi strength hsplit hphi
        have hknown : f.known strength i.dest = none := by
          rw [known_eq_none_iff hf hd hinsts hkept]
          rintro ⟨c, hc⟩
          have hphi' := congrArg MirInst.isPhi (hout.symm.trans hc)
          rw [MirInst.rewriteValues_isPhi, hphi] at hphi'
          cases hphi'
        exact (hcheck hd hinsts hkept hknown).1 hphi p hbr
    · obtain ⟨b, hb⟩ := List.mem_iff_getElem?.1 hblk
      obtain ⟨u, t, hinsts⟩ := List.append_of_mem hi
      have hid : blk.id = b := hf.id hb
      rw [hid]
      exact (hcheck hb hinsts hkept hknown).2
  · rintro ⟨hjoin, hops⟩ b blk hb j hj
    obtain ⟨u, i, t, hinsts, hkept, rfl⟩ := (hmem _).1 hj
    rw [check_combined hf ho hb hinsts hkept]
    by_cases hknown : f.known strength i.dest = none
    · have hid : blk.id = b := hf.id hb
      refine .inr ⟨fun hphi p hbr ↦ ?_, ?_⟩
      · have hnil := hjoin p b hbr
        rw [MirFunc.phisOf, hb] at hnil
        have hi : i ∈ blk.phis := List.mem_filter.2 ⟨by simp [hinsts], hphi⟩
        rw [show blk.phis = [] from hnil] at hi
        cases hi
      · rw [← hid]
        exact hops blk (List.mem_of_getElem? hb) i (by simp [hinsts]) hkept hknown
    · rw [known_eq_none_iff hf hb hinsts hkept, not_not] at hknown
      exact .inl hknown

/-- What the checks of the terminators of the result say. -/
theorem terms_combined_iff (hv : f.verify = .ok ()) (ho : f.Ordered) :
    (∀ b blk, f.block? b = some blk →
      (f.combined strength b blk).term.forM f.verifyTerm = .ok ()) ↔
    ∀ b ∈ f.blocks, ∀ t, b.term = some t → ∀ o ∈ t.operands,
      f.ty (f.kept strength o) = f.ty o ∨ f.termTakes o (f.ty (f.kept strength o)) t = true := by
  have hf := MirFunc.wellFormed_of_verify hv
  have hold : ∀ {blk t}, blk ∈ f.blocks → blk.term = some t → f.verifyTerm t = .ok () := by
    intro blk t hblk ht
    have h := MirFunc.verifyTerm_of_verify hv blk hblk
    rw [ht] at h
    exact h
  constructor
  · intro h blk hblk t ht
    obtain ⟨b, hb⟩ := List.mem_iff_getElem?.1 hblk
    exact (verifyTerm_combined ho hf ht (hold hblk ht)).1 (h b blk hb)
  · intro h b blk hb
    have hblk : blk ∈ f.blocks := List.mem_of_getElem? hb
    obtain ⟨t, ht⟩ := hf.term blk hblk
    exact (verifyTerm_combined ho hf ht (hold hblk ht)).2 (h blk hblk t ht)

theorem instcombineOnce_getElem? (hf : WellFormed f) (ho : f.Ordered) {j : ℕ} {c : MirBlock}
    (hc : (instcombineOnce strength f).1.blocks[j]? = some c) :
    ∃ blk, f.block? j = some blk ∧ c = f.combined strength j blk := by
  have hc : (instcombineOnce strength f).1.block? j = some c := hc
  rw [instcombineOnce_block? _ hf ho] at hc
  obtain ⟨blk, hblk, rfl⟩ := Option.map_eq_some_iff.1 hc
  exact ⟨blk, hblk, rfl⟩

theorem combined_id (hf : WellFormed f) (hb : f.block? b = some blk) :
    (f.combined strength b blk).id = b :=
  (foldBranch_id _ _).trans (hf.id hb : blk.id = b)

/-- A block of the result has a terminator, with edges the block had. -/
theorem combined_term (hf : WellFormed f) (hb : f.block? b = some blk) :
    (∃ t, (f.combined strength b blk).term = some t) ∧
      ∀ d ∈ (f.combined strength b blk).succs, d ∈ blk.succs := by
  have hfold : (f.combined strength b blk).term =
      (foldBranch (f.known strength) (f.outBlock strength (f.before b) blk)).term := rfl
  have hsuccs : (f.combined strength b blk).succs =
      (foldBranch (f.known strength) (f.outBlock strength (f.before b) blk)).succs := rfl
  cases hk : knownBranch (f.known strength) (f.outBlock strength (f.before b) blk) with
  | none =>
    obtain ⟨t, ht⟩ := hf.term blk (List.mem_of_getElem? hb)
    refine ⟨⟨t.rewriteValues (f.kept strength), ?_⟩, fun d hd ↦ ?_⟩
    · rw [hfold, foldBranch, hk, MirFunc.outBlock, ht]
      rfl
    · rwa [hsuccs, foldBranch, hk, outBlock_succs] at hd
  | some e =>
    obtain ⟨hcount, hone⟩ := knownBranch_eq_some hk
    rw [outBlock_succs] at hcount
    refine ⟨⟨.jump e.1, by rw [hfold, foldBranch, hk]; rfl⟩, fun d hd ↦ ?_⟩
    rw [hsuccs, hone, List.mem_singleton] at hd
    refine List.count_pos_iff.1 ?_
    rw [hcount, hd]
    simp

theorem instcombineOnce_defs (strength : Bool) (hf : WellFormed f) (ho : f.Ordered) :
    (instcombineOnce strength f).1.defs.Sublist f.defs := by
  have hlen : (instcombineOnce strength f).1.blocks.length = f.blocks.length := by
    rw [instcombineOnce_blocks hf ho, List.length_mapIdx]
  have h := before_dests strength hf ho le_rfl
  have hbefore : f.before f.blocks.length = f.insts := by
    rw [MirFunc.before, List.take_length]
    rfl
  rw [List.take_of_length_le hlen.le, List.flatMap_assoc, hbefore] at h
  have hsplit : f.insts = [] ++ (f.insts ++ []) := by simp
  have hsub := (ho.outInsts_dests strength hsplit).1
  rw [← h, MirFunc.insts, List.flatMap_assoc] at hsub
  exact hsub

theorem instcombineOnce_wellFormed (hf : WellFormed f) (ho : f.Ordered)
    (hchecks : ∀ b blk, f.block? b = some blk → ∀ j ∈ (f.combined strength b blk).insts,
      f.checkInst ((instcombineOnce strength f).1.preds b) j = .ok ()) :
    WellFormed (instcombineOnce strength f).1 := by
  have hg := instcombineOnce_eq strength ho
  have hlen : (instcombineOnce strength f).1.blocks.length = f.blocks.length := by
    rw [instcombineOnce_blocks hf ho, List.length_mapIdx]
  have hdefs := instcombineOnce_defs strength hf ho
  refine ⟨?_, fun hc ↦ ?_, fun c hc ↦ ?_, fun c hc ↦ ?_, hf.defsNodup.sublist hdefs, fun d hd ↦ ?_,
    fun c hc j hj ↦ ?_, fun c hc d hd ↦ ?_⟩
  · rw [hlen, hg]
    exact hf.entry
  · obtain ⟨blk, hblk, rfl⟩ := instcombineOnce_getElem? hf ho hc
    exact combined_id hf hblk
  · obtain ⟨b, hb⟩ := List.mem_iff_getElem?.1 hc
    obtain ⟨blk, hblk, rfl⟩ := instcombineOnce_getElem? hf ho hb
    exact (combined_term hf hblk).1
  · obtain ⟨b, hb⟩ := List.mem_iff_getElem?.1 hc
    obtain ⟨blk, hblk, rfl⟩ := instcombineOnce_getElem? hf ho hb
    exact (phis_combined hf ho hblk).2.2
  · have htypes : (instcombineOnce strength f).1.types = f.types := by rw [hg]
    rw [htypes]
    exact hf.defsLt d (hdefs.subset hd)
  · obtain ⟨b, hb⟩ := List.mem_iff_getElem?.1 hc
    obtain ⟨blk, hblk, rfl⟩ := instcombineOnce_getElem? hf ho hb
    have h := hchecks b blk hblk j hj
    rw [combined_id hf hblk]
    rw [hg] at h ⊢
    exact checkInst_withBlocks.trans h
  · obtain ⟨b, hb⟩ := List.mem_iff_getElem?.1 hc
    obtain ⟨blk, hblk, rfl⟩ := instcombineOnce_getElem? hf ho hb
    rw [hlen]
    exact hf.succs blk (List.mem_of_getElem? hblk) d ((combined_term hf hblk).2 d hd)

/-- **When instruction combining keeps a function verified.** -/
theorem instcombineOnce_verify_iff (hv : f.verify = .ok ()) (hd : f.Dominated) :
    (instcombineOnce strength f).1.verify = .ok () ↔
      f.NoJoinedBranch strength ∧ f.TakesKept strength := by
  have hf := MirFunc.wellFormed_of_verify hv
  have ho := MirFunc.ordered_of_verify hv hd
  have hg := instcombineOnce_eq strength ho
  have hterm : (instcombineOnce strength f).1.verifyTerm = f.verifyTerm := by
    funext t
    rw [hg]
    exact verifyTerm_withBlocks
  constructor
  · intro hgv
    have hgf := MirFunc.wellFormed_of_verify hgv
    have hmem : ∀ {b blk}, f.block? b = some blk →
        f.combined strength b blk ∈ (instcombineOnce strength f).1.blocks := by
      intro b blk hb
      have h := instcombineOnce_block? strength hf ho b
      rw [hb] at h
      exact List.mem_of_getElem? h
    have hins := (checked_combined_iff strength hf ho).1 fun b blk hb j hj ↦ by
      have h := hgf.checked _ (hmem hb) j hj
      rw [combined_id hf hb] at h
      rw [hg] at h ⊢
      exact checkInst_withBlocks.symm.trans h
    refine ⟨hins.1, hins.2, (terms_combined_iff hv ho).1 fun b blk hb ↦ ?_⟩
    have h := MirFunc.verifyTerm_of_verify hgv _ (hmem hb)
    rwa [hterm] at h
  · rintro ⟨hjoin, htakes⟩
    have hins := (checked_combined_iff _ hf ho).2 ⟨hjoin, htakes.inst⟩
    refine MirFunc.verify_of (instcombineOnce_wellFormed hf ho hins) (instcombineOnce_ordered hf ho)
      ?_ fun c hc ↦ ?_
    · rw [hg]
      exact (verifyParams_withBlocks _).trans (MirFunc.verifyParams_of_verify hv)
    · obtain ⟨b, hb⟩ := List.mem_iff_getElem?.1 hc
      obtain ⟨blk, hblk, rfl⟩ := instcombineOnce_getElem? hf ho hb
      rw [hterm]
      exact (terms_combined_iff hv ho).2 htakes.term b blk hblk

/-- A branch on a constant whose two targets are one block. -/
def joinedBranch : MirFunc where
  params := []
  retTy := some .i64
  retHiTy := none
  retLayout := .word
  entry := 0
  blocks := [
    ⟨0, [.const 0 (.bool true), .const 1 (.i64 1), .const 2 (.i64 2)], some (.br 0 1 1)⟩,
    ⟨1, [.phi 3 .i64 [(0, 1), (0, 2)]], some (.ret (some 3) none)⟩]
  types := [.bool, .i64, .i64, .i64]

/-- A heap word `v0 | 0` read as an `i64` and doubled. -/
def heapOr : MirFunc where
  params := [0]
  retTy := some .i64
  retHiTy := none
  retLayout := .word
  entry := 0
  blocks := [⟨0, [.const 1 (.i64 0), .bin 2 .bitOr .i64 0 1, .bin 3 .add .i64 2 2],
    some (.ret (some 3) none)⟩]
  types := [.heapRef, .i64, .i64, .i64]

/-- A constant branch with two targets, and a sum with zero. -/
def constBranch : MirFunc where
  params := [0]
  retTy := some .i64
  retHiTy := none
  retLayout := .word
  entry := 0
  blocks := [
    ⟨0, [.const 1 (.bool true), .const 2 (.i64 0), .bin 3 .add .i64 0 2], some (.br 1 1 2)⟩,
    ⟨1, [], some (.jump 3)⟩,
    ⟨2, [], some (.jump 3)⟩,
    ⟨3, [.phi 4 .i64 [(1, 3), (2, 2)]], some (.ret (some 4) none)⟩]
  types := [.i64, .bool, .i64, .i64, .i64]

end CoilLang.Mir
