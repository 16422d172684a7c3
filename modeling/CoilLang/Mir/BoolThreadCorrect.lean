import CoilLang.Mir.BoolThreadSound
import CoilLang.Mir.TidyVerify
import Mathlib.Algebra.Order.BigOperators.Group.List

/-!
# Threading over bool φs keeps the runs and the checks

All edges of a join are threaded one after the other, and then all joins. What is kept is that the function is
accepted and has the runs of the first one (`Kept`); while the edges of a join go, the incomings still to come
are among those its φ still has.
-/

namespace CoilLang.Mir

namespace BoolJoin

variable {J : BoolJoin} {f f₀ : MirFunc} {known : Option Bool} {v : ValueId} {t₀ t : Terminator}
  {targets : List BlockId} {args : List (BlockId × ValueId)} {p : BlockId} {pb b : MirBlock}

/-! ### The join is still one -/

theorem operands_redirectInst {x : BlockId} {i : MirInst} {o : ValueId}
    (ho : o ∈ (J.redirectInst p targets x i).operands) : o ∈ i.operands := by
  unfold redirectInst at ho
  split at ho
  · cases i with
    | phi d ty args =>
      unfold pushArg at ho
      dsimp only at ho
      cases hfind : args.find? (·.1 = J.block) with
      | none => rwa [hfind] at ho
      | some a =>
        rw [hfind] at ho
        obtain ⟨e, he, rfl⟩ := List.mem_map.1 ho
        rw [sortArgs, List.mem_insertionSort, List.mem_append, List.mem_singleton] at he
        rcases he with he | rfl
        · exact List.mem_map_of_mem he
        · exact List.mem_map.2 ⟨a, List.mem_of_find?_eq_some hfind, rfl⟩
    | _ => exact ho
  · split at ho
    · cases i with
      | phi d ty args =>
        obtain ⟨e, he, rfl⟩ := List.mem_map.1 ho
        exact List.mem_map_of_mem (List.mem_filter.1 he).1
      | _ => exact ho
    · exact ho

theorem JoinAt.rewired (hid : Tidied f) (hJ : J.JoinAt f args) (ha : (p, v) ∈ args) (hp : p ≠ J.block)
    (hpb : f.block? p = some pb) (ht : pb.term = some t₀) (hr : J.Rerouted known v t₀ t targets) :
    J.JoinAt (J.rewired p t targets f) (args.filter (·.1 ≠ p)) := by
  refine ⟨?_, hJ.entry, fun {x blk i} hx hi ho ↦ ?_, fun {x blk t'} hx hne ht' ho ↦ ?_⟩
  · rw [block?_rewired hid, hJ.block, Option.map_some, if_neg hp.symm]
    simp [redirectInst, hr.notMem, dropArg]
  · rw [block?_rewired hid] at hx
    obtain ⟨q, hq, rfl⟩ := Option.map_eq_some_iff.1 hx
    obtain ⟨j, hj, rfl⟩ := List.mem_map.1 hi
    exact hJ.insts hq hj (operands_redirectInst ho)
  · rw [block?_rewired hid] at hx
    obtain ⟨q, hq, rfl⟩ := Option.map_eq_some_iff.1 hx
    dsimp only at ht'
    by_cases hxp : x = p
    · rw [if_pos hxp] at ht'
      obtain rfl := Option.some.inj ht'
      rcases hr.operands _ ho with ho | ho
      · exact hJ.terms hpb hp ht ho
      · exact hJ.ne_cond ha ho.symm
    · rw [if_neg hxp] at ht'
      exact hJ.terms hq hne ht' ho

/-- One use is the one of the branch. -/
theorem joinAt_of_uses (hid : Tidied f) (hb : f.block? J.block = some b)
    (hentry : J.block ≠ f.entry) (hinsts : b.insts = [.phi J.cond .bool args])
    (hterm : b.term = some (.br J.cond J.taken J.notTaken)) (huses : uses f J.cond = 1) :
    J.JoinAt f args := by
  have hbid : b.id = J.block := hid.id hb
  obtain ⟨l₁, l₂, hblocks⟩ := List.append_of_mem (List.mem_of_getElem? hb : b ∈ f.blocks)
  unfold uses at huses
  rw [hblocks, List.map_append, List.sum_append, List.map_cons, List.sum_cons, hterm] at huses
  have hbr : (some (Terminator.br J.cond J.taken J.notTaken)).any (J.cond ∈ ·.operands) = true := by
    simp [Terminator.operands]
  rw [if_pos hbr] at huses
  -- the branch is the one use, so no other block counts one
  have hother : ∀ blk ∈ l₁ ++ l₂, (blk.insts.filter (J.cond ∈ ·.operands)).length +
      (if blk.term.any (J.cond ∈ ·.operands) then 1 else 0) = 0 := by
    have hsum : ((l₁ ++ l₂).map fun blk ↦ (blk.insts.filter (J.cond ∈ ·.operands)).length +
        (if blk.term.any (J.cond ∈ ·.operands) then 1 else 0)).sum = 0 := by
      rw [List.map_append, List.sum_append]
      omega
    exact fun blk hblk ↦ List.sum_eq_zero_iff.1 hsum _ (List.mem_map.2 ⟨blk, hblk, rfl⟩)
  have hzero : (b.insts.filter (J.cond ∈ ·.operands)).length = 0 := by omega
  have hnone : ∀ {is : List MirInst}, (is.filter (J.cond ∈ ·.operands)).length = 0 →
      ∀ i ∈ is, J.cond ∉ i.operands := fun h i hi ho ↦ by
    rw [List.length_eq_zero_iff, List.filter_eq_nil_iff] at h
    exact h i hi (decide_eq_true ho)
  have hsplit : ∀ {x blk}, f.block? x = some blk → x ≠ J.block → blk ∈ l₁ ++ l₂ := by
    intro x blk hx hne
    have hmem : blk ∈ l₁ ++ b :: l₂ := hblocks ▸ List.mem_of_getElem? hx
    have hxid : blk.id = x := hid.id hx
    rcases List.mem_append.1 hmem with h | h
    · exact List.mem_append_left _ h
    · rcases List.mem_cons.1 h with rfl | h
      · exact absurd (hxid.symm.trans hbid) hne
      · exact List.mem_append_right _ h
  refine ⟨?_, hentry, fun {x blk i} hx hi ↦ ?_, fun {x blk t} hx hne ht ho ↦ ?_⟩
  · rw [hb, ← hbid, ← hinsts, ← hterm]
  · by_cases hxJ : x = J.block
    · rw [hxJ, hb] at hx
      obtain rfl := Option.some.inj hx
      exact hnone hzero i hi
    · exact hnone (Nat.eq_zero_of_add_eq_zero_right (hother blk (hsplit hx hxJ))) i hi
  · have h := Nat.eq_zero_of_add_eq_zero_left (hother blk (hsplit hx hne))
    rw [ht, if_pos (by simpa using ho)] at h
    cases h

theorem boolJoin_eq_some {headers : List BlockId} {i : ℕ} (hid : Tidied f) (hb : f.block? i = some b)
    (h : boolJoin f headers b = some (J, args)) : J.JoinAt f args := by
  have hbid : b.id = i := hid.id hb
  unfold boolJoin at h
  split at h
  · cases h
  rename_i hnot
  split at h
  swap
  · cases h
  rename_i cond taken notTaken dest args' hterm hinsts
  split at h
  · cases h
  split at h
  · cases h
  rename_i huse
  obtain ⟨rfl, rfl⟩ := Prod.mk.inj (Option.some.inj h)
  have hdest : dest = cond := by
    by_contra hne
    exact huse (.inl hne)
  have huses : uses f cond = 1 := by
    by_contra hne
    exact huse (.inr hne)
  subst hdest
  have hb' : f.block? b.id = some b := by rw [hbid, hb]
  exact joinAt_of_uses hid hb' (fun he ↦ hnot (.inl he)) hinsts hterm huses

/-- Clearing takes the join out when no incoming is left. -/
theorem clear_eq (hf : WellFormed f) (hJ : J.JoinAt f args) :
    J.clear f = if args = [] then f.detach J.block else f := by
  have hinsts : (f.block? J.block).map MirBlock.insts = some [.phi J.cond .bool args] := by
    rw [hJ.block]
    rfl
  unfold clear
  rw [hinsts]
  cases args with
  | cons a args => rfl
  | nil =>
    have hid := hf.tidied
    have hnodup : [J.taken, J.notTaken].Nodup := by simpa using J.ne
    obtain ⟨hfields, hblock⟩ := foldl_modifyBlock (MirBlock.mapInsts (dropArg J.block))
      (f.modifyBlock J.block fun b ↦ ⟨b.id, [], some .unreachable⟩) hnodup
    rw [if_pos rfl]
    refine eq_rewire hid.id ?_ fun x ↦ ?_
    · dsimp only
      rw [hfields]
      rfl
    · have hdetach := block?_detach (b := J.block) hid x
      rw [MirFunc.detach, block?_rewire hid.id] at hdetach
      rw [hdetach]
      dsimp only
      rw [hblock, MirFunc.block?_modifyBlock]
      by_cases hxJ : x = J.block
      · subst hxJ
        have hnot : J.block ∉ [J.taken, J.notTaken] := by
          simpa using ⟨J.taken_ne.symm, J.notTaken_ne.symm⟩
        simp [hnot]
      · rw [if_neg (Ne.symm hxJ)]
        cases hx : f.block? x with
        | none => simp
        | some q =>
          by_cases harm : x ∈ [J.taken, J.notTaken]
          · simp [harm, hxJ, MirBlock.mapInsts]
          · have hdrop := map_dropArg_eq (b := J.block) hf hx
              (by rw [MirFunc.succsOf_eq hJ.block]; exact harm)
            rw [if_neg harm, Option.map_some, if_neg hxJ, hdrop]

/-! ### All edges of all joins -/

/-- The constants are where they were. -/
def HasConsts (consts : List (ValueId × Bool)) (f : MirFunc) : Prop :=
  ∀ c ∈ consts, ∃ b ∈ f.blocks, MirInst.const c.1 (.bool c.2) ∈ b.insts

/-- What is kept while edges are threaded and counted. Until the first one, also the checks of blocks that are
not reached hold. -/
structure Kept (f₀ : MirFunc) (consts : List (ValueId × Bool)) (st : MirFunc × ℕ) : Prop where
  accepted : Accepted st.1
  preserves : Preserves f₀ st.1
  consts : HasConsts consts st.1
  untouched : st.2 = 0 → AcceptedIn st.1.DomRoot st.1

theorem known_const {consts : List (ValueId × Bool)} (hc : HasConsts consts f) {k : Bool}
    (hk : (consts.reverse.find? (·.1 = v)).map Prod.snd = some k) :
    ∃ b ∈ f.blocks, MirInst.const v (.bool k) ∈ b.insts := by
  obtain ⟨c, hfind, rfl⟩ := Option.map_eq_some_iff.1 hk
  obtain rfl : c.1 = v := by simpa using List.find?_some hfind
  exact hc c (List.mem_reverse.1 (List.mem_of_find?_eq_some hfind))

theorem HasConsts.rewired {consts : List (ValueId × Bool)} (hid : Tidied f) (hc : HasConsts consts f) :
    HasConsts consts (J.rewired p t targets f) := by
  intro c hmem
  obtain ⟨b, hb, hi⟩ := hc c hmem
  obtain ⟨x, hx⟩ := List.mem_iff_getElem?.1 hb
  have hx' : (J.rewired p t targets f).block? x = _ := block?_rewired hid x
  rw [show f.block? x = some b from hx, Option.map_some] at hx'
  refine ⟨_, List.mem_of_getElem? hx', List.mem_map.2 ⟨_, hi, ?_⟩⟩
  exact (J.phiMap_redirectInst p targets x).other _ rfl

theorem HasConsts.detach {consts : List (ValueId × Bool)} (hid : Tidied f) (hJ : J.JoinAt f args)
    (hc : HasConsts consts f) : HasConsts consts (f.detach J.block) := by
  intro c hmem
  obtain ⟨b, hb, hi⟩ := hc c hmem
  obtain ⟨x, hx⟩ := List.mem_iff_getElem?.1 hb
  have hxJ : x ≠ J.block := by
    rintro rfl
    obtain rfl := Option.some.inj (hJ.block.symm.trans hx)
    cases List.mem_singleton.1 hi
  have hx' : (f.detach J.block).block? x = _ := block?_detach hid x
  rw [show f.block? x = some b from hx, Option.map_some, if_neg hxJ] at hx'
  exact ⟨_, List.mem_of_getElem? hx', List.mem_map.2 ⟨_, hi, rfl⟩⟩

variable {consts : List (ValueId × Bool)} {st : MirFunc × ℕ} {a : BlockId × ValueId}
  {rest : List (BlockId × ValueId)}

/-- **What threading one incoming does**: nothing, or the predecessor is redirected. -/
theorem Kept.threadArg_eq (h : Kept f₀ consts st) (hJ : J.JoinAt st.1 args) :
    J.threadArg consts st a = st ∨
    ∃ known pb t₀ t targets, a.1 ≠ J.block ∧ st.1.block? a.1 = some pb ∧ pb.term = some t₀ ∧
      J.Rerouted known a.2 t₀ t targets ∧
      (∀ k, known = some k → ∃ b ∈ st.1.blocks, MirInst.const a.2 (.bool k) ∈ b.insts) ∧
      J.threadArg consts st a = (J.rewired a.1 t targets st.1, st.2 + 1) := by
  unfold BoolJoin.threadArg
  by_cases haJ : a.1 = J.block
  · rw [if_pos haJ]
    exact .inl rfl
  rw [if_neg haJ]
  cases hre : J.reroute st.1 ((consts.reverse.find? (·.1 = a.2)).map Prod.snd) a.2
      ((st.1.block? a.1).bind MirBlock.term) with
  | none => exact .inl rfl
  | some r =>
    obtain ⟨t, targets⟩ := r
    obtain ⟨t₀, hterm, hr⟩ := reroute_eq_some hre
    obtain ⟨pb, hpb, ht⟩ := Option.bind_eq_some_iff.1 hterm
    refine .inr ⟨_, pb, t₀, t, targets, haJ, hpb, ht, hr, fun k hk ↦ known_const h.consts hk, ?_⟩
    dsimp only
    rw [redirect_eq h.accepted.wf.tidied hJ hr haJ]

/-- **Threading one incoming** keeps what is kept, and the other incomings. -/
theorem Kept.threadArg (h : Kept f₀ consts st) (hJ : J.JoinAt st.1 args) (hrest : (a :: rest).Sublist args) :
    Kept f₀ consts (J.threadArg consts st a) ∧
      ∃ args', J.JoinAt (J.threadArg consts st a).1 args' ∧ rest.Sublist args' := by
  have ha : (a.1, a.2) ∈ args := hrest.subset List.mem_cons_self
  rcases h.threadArg_eq (a := a) hJ with heq | ⟨known, pb, t₀, t, targets, haJ, hpb, ht, hr, hknown, heq⟩
  · rw [heq]
    exact ⟨h, args, hJ, List.sublist_of_cons_sublist hrest⟩
  · have hid := h.accepted.wf.tidied
    rw [heq]
    refine ⟨⟨accepted_rewired h.accepted hJ ha haJ hpb ht hr,
      h.preserves.trans (rewired_preserves h.accepted hJ hpb ht hr ha hknown), h.consts.rewired hid,
      fun h0 ↦ (by cases h0)⟩, _, hJ.rewired hid ha haJ hpb ht hr, ?_⟩
    -- the predecessor has this one incoming only
    have hle := (hrest.map Prod.fst).count_le a.1
    rw [hJ.count_pred h.accepted.wf hpb ht hr, List.map_cons, List.count_cons_self] at hle
    have hnone : a.1 ∉ rest.map Prod.fst := List.count_eq_zero.1 (by omega)
    have hall : rest.filter (·.1 ≠ a.1) = rest := List.filter_eq_self.2 fun e he ↦
      decide_eq_true fun heq ↦ hnone (List.mem_map.2 ⟨e, he, heq⟩)
    have hsub := (List.sublist_of_cons_sublist hrest).filter (·.1 ≠ a.1)
    rwa [hall] at hsub

/-- The edge of `p` into the join now goes to `targets`: these are arms, the join has no incoming from `p` any
more, and each φ of a target takes from `p` what it took from the join. -/
structure Threaded (J : BoolJoin) (p : BlockId) (targets : List BlockId) (f g : MirFunc) : Prop where
  arms : targets ≠ [] ∧ ∀ x ∈ targets, x = J.taken ∨ x = J.notTaken
  edges : J.block ∈ f.succsOf p ∧ J.block ∉ g.succsOf p ∧ ∀ x ∈ targets, x ∈ g.succsOf p
  dropped : ∀ i ∈ g.phisOf J.block, phiArg (some p) i = none
  supplied : ∀ x ∈ targets, List.Forall₂
    (fun i i' ↦ i'.dest = i.dest ∧ ∃ v, phiArg (some J.block) i = some v ∧ phiArg (some p) i' = some v)
    (f.phisOf x) (g.phisOf x)

theorem threaded_rewired (hf : Accepted f) (hJ : J.JoinAt f args)
    (hpb : f.block? p = some pb) (ht : pb.term = some t₀) (hr : J.Rerouted known v t₀ t targets) :
    J.Threaded p targets f (J.rewired p t targets f) := by
  have hid := hf.wf.tidied
  have hsuccs : f.succsOf p = t₀.succs := by
    rw [MirFunc.succsOf_eq hpb, MirBlock.succs, ht]
    rfl
  have hself : (J.rewired p t targets f).succsOf p = t.succs := by
    rw [succsOf_rewired hid hpb, if_pos rfl]
  have hphis : ∀ x, (J.rewired p t targets f).phisOf x =
      (f.phisOf x).map (J.redirectInst p targets x) := fun x ↦ by
    unfold MirFunc.phisOf
    rw [block?_rewired hid]
    cases f.block? x with
    | none => rfl
    | some q => exact (J.phiMap_redirectInst p targets x).filter_phi q.insts
  have hne : targets ≠ [] := by
    have hw : ∃ w, ∀ k, known = some k → w = (MirConst.bool k).word := by
      cases known with
      | none => exact ⟨0, fun k hk ↦ (by cases hk)⟩
      | some k => exact ⟨(MirConst.bool k).word, fun k' hk ↦ by rw [Option.some.inj hk]⟩
    obtain ⟨w, hw⟩ := hw
    exact List.ne_nil_of_mem (hr.lands w hw)
  refine ⟨⟨hne, hr.arms⟩, ⟨?_, hself ▸ hr.leaves, fun x hx ↦ ?_⟩, fun i hi ↦ ?_, fun x hx ↦ ?_⟩
  · rw [hsuccs, ← List.count_pos_iff, hr.join]
    exact Nat.one_pos
  · have hxJ : x ≠ J.block := fun h ↦ hr.notMem (h ▸ hx)
    rw [hself, ← List.count_pos_iff, hr.count x hxJ]
    exact Nat.add_pos_right _ (List.count_pos_iff.2 hx)
  · rw [hphis, MirFunc.phisOf_eq hJ.block] at hi
    obtain ⟨j, hj, rfl⟩ := List.mem_map.1 hi
    obtain rfl := List.mem_singleton.1 (List.mem_filter.1 hj).1
    simp [redirectInst, hr.notMem, dropArg, phiArg]
  · rw [hphis]
    refine List.forall₂_map_right_iff.2 (List.forall₂_same.2 fun i hi ↦ ?_)
    have hfresh : x ∉ f.succsOf p := hsuccs ▸ hr.fresh x hx
    have harm : f.Edge J.block x := edge_iff.2 <| by
      rw [MirFunc.succsOf_eq hJ.block]
      simpa [MirBlock.succs, Terminator.succs] using hr.arms x hx
    rw [redirectInst, if_pos hx, phiArg_pushArg_self hid hfresh hi]
    refine ⟨(phiMap_pushArg J.block p).dest i, ?_⟩
    cases hb : f.block? x with
    | none => simp [MirFunc.phisOf, hb] at hi
    | some blk =>
      rw [MirFunc.phisOf_eq hb] at hi
      obtain ⟨hmem, hphi⟩ := List.mem_filter.1 hi
      cases i with
      | phi d ty as =>
        obtain ⟨a, ha⟩ := hf.wf.exists_incoming hb hmem harm
        have harg : phiArg (some J.block) (.phi d ty as) = some a.2 := by
          simp only [phiArg, Option.bind_some, ha, Option.map_some]
        exact ⟨a.2, harg, harg⟩
      | _ => cases hphi

theorem Kept.foldl_threadArg (h : Kept f₀ consts st) (hJ : J.JoinAt st.1 args) (hrest : rest.Sublist args) :
    Kept f₀ consts (rest.foldl (J.threadArg consts) st) ∧
      ∃ args', J.JoinAt (rest.foldl (J.threadArg consts) st).1 args' := by
  induction rest generalizing st args with
  | nil => exact ⟨h, args, hJ⟩
  | cons a rest ih =>
    obtain ⟨h', args', hJ', hrest'⟩ := h.threadArg hJ hrest
    exact ih h' hJ' hrest'

theorem Kept.clear (h : Kept f₀ consts st) (hJ : J.JoinAt st.1 args) :
    Kept f₀ consts (J.clear st.1, st.2) := by
  have hwf := h.accepted.wf
  have hid := hwf.tidied
  rw [clear_eq hwf hJ]
  by_cases hargs : args = []
  swap
  · rw [if_neg hargs]
    exact h
  rw [if_pos hargs]
  subst hargs
  have hno : ∀ q, J.block ∉ st.1.succsOf q := fun q hq ↦ by
    rw [← List.count_pos_iff, ← hwf.count_args hJ.block (List.mem_singleton_self _)] at hq
    cases hq
  have hinsts : ∀ {x blk i}, x ≠ J.block → st.1.block? x = some blk → i ∈ blk.insts → ∀ o ∈ i.operands,
      o ∉ [J.cond] := fun _ hx hi o ho hc ↦ hJ.insts hx hi (List.mem_singleton.1 hc ▸ ho)
  have hterms : ∀ {x blk t}, x ≠ J.block → st.1.block? x = some blk → blk.term = some t → ∀ o ∈ t.operands,
      o ∉ [J.cond] := fun hne hx ht o ho hc ↦ hJ.terms hx hne ht (List.mem_singleton.1 hc ▸ ho)
  refine ⟨?_, h.preserves.trans (detach_preserves hid hJ.entry hno), h.consts.detach hid hJ, fun h0 ↦ ?_⟩
  · exact h.accepted.detach hJ.block hinsts hterms fun a ha ↦
      ⟨[a], .start ha, fun _ hx ↦ .inl (List.mem_singleton.1 hx)⟩
  · exact (h.untouched h0).detach hJ.block hinsts hterms (walk_of_detach_root hid hno hJ.block)

end BoolJoin

open BoolJoin

variable {f f₀ : MirFunc} {consts : List (ValueId × Bool)} {st : MirFunc × ℕ} {headers : List BlockId}

theorem BoolJoin.Kept.threadJoin (h : Kept f₀ consts st) (i : ℕ) :
    Kept f₀ consts (threadJoin headers consts st i) := by
  unfold Mir.threadJoin
  cases hj : (st.1.block? i).bind (boolJoin st.1 headers) with
  | none => exact h
  | some r =>
    obtain ⟨J, args⟩ := r
    obtain ⟨b, hb, hjoin⟩ := Option.bind_eq_some_iff.1 hj
    have hJ := boolJoin_eq_some h.accepted.wf.tidied hb hjoin
    obtain ⟨h', args', hJ'⟩ := h.foldl_threadArg hJ (List.Sublist.refl args)
    exact h'.clear hJ'

/-- **Threading over the joins** keeps what is kept. -/
theorem kept_threadJoins (hf : AcceptedIn f.DomRoot f) (headers : List BlockId) (l : List ℕ) :
    Kept f (boolConsts f) (l.foldl (threadJoin headers (boolConsts f)) (f, 0)) := by
  have hstart : Kept f (boolConsts f) (f, 0) := by
    refine ⟨hf.mono fun a ha ↦ .inl ha, .refl f, fun c hc ↦ ?_, fun _ ↦ hf⟩
    unfold boolConsts at hc
    obtain ⟨i, hi, hic⟩ := List.mem_filterMap.1 hc
    obtain ⟨b, hb, hib⟩ := List.mem_flatMap.1 hi
    refine ⟨b, hb, ?_⟩
    split at hic
    · rename_i dest k
      obtain rfl := Option.some.inj hic
      exact hib
    · cases hic
  generalize (f, 0) = st at hstart
  induction l generalizing st with
  | nil => exact hstart
  | cons i l ih => exact ih _ (hstart.threadJoin i)

/-! ### The blocks reached -/

section
variable {work seen : List BlockId}

/-- The blocks that are not marked. -/
def unmarked (f : MirFunc) (seen : List BlockId) : ℕ :=
  ((Finset.range f.blocks.length).filter (· ∉ seen)).card

theorem unmarked_cons {s : BlockId} (hs : s < f.blocks.length) (hseen : s ∉ seen) :
    unmarked f (s :: seen) < unmarked f seen := by
  refine Finset.card_lt_card ⟨fun x hx ↦ ?_, fun hsub ↦ ?_⟩
  · simp only [Finset.mem_filter, List.mem_cons, not_or] at hx ⊢
    exact ⟨hx.1, hx.2.2⟩
  · have hmem := hsub (Finset.mem_filter.2 ⟨Finset.mem_range.2 hs, hseen⟩)
    simp at hmem

/-- Marking the blocks of a list puts those that were not marked on the stack. -/
theorem foldl_mark {l : List BlockId} (hl : ∀ s ∈ l, s < f.blocks.length) (work seen : List BlockId) :
    let r := l.foldl (fun r s ↦ if s ∈ r.2 then r else (s :: r.1, s :: r.2)) (work, seen)
    r.1.length + unmarked f r.2 ≤ work.length + unmarked f seen ∧ (∀ x ∈ seen, x ∈ r.2) ∧
      (∀ x ∈ work, x ∈ r.1) ∧ (∀ s ∈ l, s ∈ r.2) ∧ ∀ x ∈ r.2, x ∈ seen ∨ x ∈ r.1 := by
  induction l generalizing work seen with
  | nil => exact ⟨le_rfl, fun _ ↦ id, fun _ ↦ id, fun _ h ↦ (by cases h), fun _ ↦ .inl⟩
  | cons s l ih =>
    obtain ⟨hs, hl⟩ := List.forall_mem_cons.1 hl
    rw [List.foldl_cons]
    dsimp only
    by_cases hmem : s ∈ seen
    · rw [if_pos hmem]
      obtain ⟨hle, hseen, hwork, hall, hnew⟩ := ih hl work seen
      exact ⟨hle, hseen, hwork, List.forall_mem_cons.2 ⟨hseen s hmem, hall⟩, hnew⟩
    · rw [if_neg hmem]
      obtain ⟨hle, hseen, hwork, hall, hnew⟩ := ih hl (s :: work) (s :: seen)
      have hlt := unmarked_cons hs hmem
      rw [List.length_cons] at hle
      refine ⟨by omega, fun x hx ↦ hseen x (List.mem_cons_of_mem _ hx),
        fun x hx ↦ hwork x (List.mem_cons_of_mem _ hx),
        List.forall_mem_cons.2 ⟨hseen s List.mem_cons_self, hall⟩, fun x hx ↦ ?_⟩
      rcases hnew x hx with hx | hx
      · rcases List.mem_cons.1 hx with rfl | hx
        · exact .inr (hwork x List.mem_cons_self)
        · exact .inl hx
      · exact .inr hx

/-- **Marking ends** with a set that is closed under edges. -/
theorem exists_markLoop (hsuccs : ∀ b, ∀ s ∈ f.succsOf b, s < f.blocks.length) {n : ℕ}
    (hn : work.length + unmarked f seen ≤ n)
    (hinv : ∀ b ∈ seen, b ∈ work ∨ ∀ s ∈ f.succsOf b, s ∈ seen) :
    ∃ out, (∀ fuel ≥ n, markLoop f fuel work seen = some out) ∧ (∀ b ∈ seen, b ∈ out) ∧
      ∀ b ∈ out, ∀ s ∈ f.succsOf b, s ∈ out := by
  induction n generalizing work seen with
  | zero =>
    obtain rfl : work = [] := List.eq_nil_of_length_eq_zero (by omega)
    exact ⟨seen, fun fuel _ ↦ by cases fuel <;> rfl, fun _ ↦ id,
      fun b hb ↦ (hinv b hb).resolve_left (by simp)⟩
  | succ n ih =>
    cases work with
    | nil =>
      exact ⟨seen, fun fuel _ ↦ by cases fuel <;> rfl, fun _ ↦ id,
        fun b hb ↦ (hinv b hb).resolve_left (by simp)⟩
    | cons b work =>
      obtain ⟨hle, hseen, hwork, hall, hnew⟩ := foldl_mark (hsuccs b) work seen
      rw [List.length_cons] at hn
      have hmeasure := hle.trans (by omega : work.length + unmarked f seen ≤ n)
      obtain ⟨out, hout, hsub, hclosed⟩ := ih hmeasure fun x hx ↦ by
        rcases hnew x hx with hx' | hx'
        · rcases hinv x hx' with hw | hs
          · rcases List.mem_cons.1 hw with rfl | hw
            · exact .inr hall
            · exact .inl (hwork x hw)
          · exact .inr fun s hxs ↦ hseen s (hs s hxs)
        · exact .inl hx'
      refine ⟨out, fun fuel hfuel ↦ ?_, fun x hx ↦ hsub x (hseen x hx), hclosed⟩
      obtain ⟨m, rfl⟩ : ∃ m, fuel = m + 1 := ⟨fuel - 1, by omega⟩
      exact hout m (by omega)

end

/-! ### All of it -/

/-- When all blocks are reached, the entry is the one root. -/
theorem Accepted.of_reached (hf : Accepted f) (hall : ∀ b < f.blocks.length, f.Reached b) :
    AcceptedIn f.DomRoot f := by
  refine hf.mono fun a ha ↦ ?_
  rcases ha with ha | ⟨hlt, hpreds⟩
  · exact ha
  · obtain ⟨l, hw⟩ := hall a hlt
    cases hw with
    | start ha => exact ha
    | step _ he =>
      rw [edge_iff, ← List.count_pos_iff, ← count_preds fun hb ↦ hf.wf.id hb, hpreds] at he
      cases he

/-- Tidying what is reached keeps the runs, and what is left passes the check of dominance from the entry. -/
theorem tidy_reached (hf : Accepted f) :
    ∃ n g, (∀ fuel ≥ n, ((markLoop f fuel [f.entry] [f.entry]).bind fun reached ↦
        tidy fuel f ((f.blocks.map MirBlock.id).filter (· ∈ reached))) = some g) ∧
      Preserves f g ∧ AcceptedIn g.DomRoot g := by
  have hid := hf.wf.tidied
  have hedge : ∀ {a b}, f.Edge a b → b < f.blocks.length := fun ⟨blk, hblk, hb⟩ ↦
    hf.wf.succs blk (List.mem_of_getElem? hblk) _ hb
  obtain ⟨reached, hmark, hsub, hclosed⟩ := exists_markLoop (fun b s hs ↦ hedge (edge_iff.2 hs))
    (le_refl ([f.entry].length + unmarked f [f.entry])) fun b hb ↦ .inl hb
  have hall : ∀ b, f.Reached b → b ∈ reached ∧ b < f.blocks.length := by
    rintro b ⟨l, hw⟩
    induction hw with
    | start ha => exact ⟨hsub _ (by simp [show _ = f.entry from ha]), ha ▸ hf.wf.entry⟩
    | step _ he ih => exact ⟨hclosed _ ih.1 _ (edge_iff.1 he), hedge he⟩
  have horder : ((f.blocks.map MirBlock.id).filter (· ∈ reached)).Sublist (List.range f.blocks.length) := by
    rw [hid.map_id]
    exact List.filter_sublist
  obtain ⟨n, g, htidy, -, hpres⟩ := tidy_preserves hid hf.wf.trapTyped fun b hb ↦
    List.mem_range.1 (horder.subset hb)
  obtain ⟨hg, hreached⟩ := accepted_of_tidy hf (htidy n le_rfl) horder fun b hb ↦
    List.mem_filter.2 ⟨hid.map_id ▸ List.mem_range.2 (hall b hb).2, by simpa using (hall b hb).1⟩
  refine ⟨max n ([f.entry].length + unmarked f [f.entry]), g, fun fuel hfuel ↦ ?_, hpres,
    hg.of_reached hreached⟩
  rw [ge_iff_le, max_le_iff] at hfuel
  rw [hmark fuel hfuel.2, Option.bind_some, htidy fuel hfuel.1]

/-- Each edge the pass threads is redirected with the words of the join. -/
def ThreadsEdges (f : MirFunc) (headers : List BlockId) : Prop :=
  ∀ (i : ℕ) (J : BoolJoin) (a : BlockId × ValueId) (l rest : List (BlockId × ValueId)),
    let st := (List.range i).foldl (threadJoin headers (boolConsts f)) (f, 0)
    (st.1.block? i).bind (boolJoin st.1 headers) = some (J, l ++ a :: rest) →
      let before := l.foldl (J.threadArg (boolConsts f)) st
      let after := J.threadArg (boolConsts f) before a
      after = before ∨ after.2 = before.2 + 1 ∧ ∃ targets, J.Threaded a.1 targets before.1 after.1

theorem threadsEdges (hf : AcceptedIn f.DomRoot f) (headers : List BlockId) : ThreadsEdges f headers := by
  intro i J a l rest st hjoin before after
  have hk := kept_threadJoins hf headers (List.range i)
  obtain ⟨b, hb, hj⟩ := Option.bind_eq_some_iff.1 hjoin
  have hJ := boolJoin_eq_some hk.accepted.wf.tidied hb hj
  obtain ⟨hbefore, args', hJ'⟩ := hk.foldl_threadArg hJ (List.sublist_append_left l (a :: rest))
  rcases hbefore.threadArg_eq (a := a) hJ' with heq | ⟨known, pb, t₀, t, targets, -, hpb, ht, hr, -, heq⟩
  · exact .inl heq
  · refine .inr ⟨congrArg Prod.snd heq, targets, ?_⟩
    rw [show after.1 = _ from congrArg Prod.fst heq]
    exact threaded_rewired hbefore.accepted hJ' hpb ht hr

/-- `a && b` as it is lowered: block 0 tests `a`, block 1 brings `b`, and block 2 is the join. -/
def andJoin : MirFunc where
  params := [0, 1]
  retTy := some .i64
  retHiTy := none
  retLayout := .word
  entry := 0
  blocks := [
    ⟨0, [.const 2 (.bool false)], some (.br 0 1 2)⟩,
    ⟨1, [.unary 3 .not 1], some (.jump 2)⟩,
    ⟨2, [.phi 4 .bool [(0, 2), (1, 3)]], some (.br 4 3 4)⟩,
    ⟨3, [.const 5 (.i64 1)], some (.ret (some 5) none)⟩,
    ⟨4, [.const 6 (.i64 0)], some (.ret (some 6) none)⟩]
  types := [.bool, .bool, .bool, .bool, .bool, .i64, .i64]

end CoilLang.Mir
