import CoilLang.Mir.Destprop
import CoilLang.Mir.SccpSolve

/-!
# What the pass makes of the blocks

A block that runs keeps the φs that are neither constant nor their one incoming, with the incomings of edges
that run; then come the constants of φs, and the other instructions with theirs in place (`foldBlock_eq`).

A φ that is its one incoming reads a value that is defined **nearer to the entry** along edges that run, since
the block it comes from is the only one before (`forwards_nearer`). So following such φs ends, whatever cycles
the function has (`exists_stands`).
-/

namespace CoilLang.Mir.Sccp

open Destprop (mem_keys_of_lookup lookup_eq_none_iff)

variable {f : MirFunc} {S : Solution} {b p q : BlockId} {blk : MirBlock} {i : MirInst} {v w d a : ValueId}
  {c : MirConst} {ty : MirTy} {args : List (BlockId × ValueId)} {n : ℕ}

/-! ### One block -/

theorem phiMap_liveArgs (S : Solution) (b : BlockId) : PhiMap (liveArgs S b) := by
  refine ⟨fun i ↦ ?_, fun i ↦ ?_, fun i hi ↦ ?_⟩
  · cases i <;> rfl
  · cases i <;> rfl
  · cases i <;> first | rfl | cases hi

theorem constant?_liveArgs (S : Solution) (b : BlockId) (i : MirInst) :
    constant? S (liveArgs S b i) = constant? S i := by
  cases i <;> rfl

theorem constAfter_liveArgs (S : Solution) (b : BlockId) (i : MirInst) :
    constAfter S (liveArgs S b i) = constAfter S i := by
  cases i <;> rfl

theorem singleArg_of_not_phi (hi : i.isPhi = false) : singleArg i = none := by
  cases i with
  | phi => cases hi
  | _ => rfl

theorem emptyPhi_of_not_phi (hi : i.isPhi = false) : emptyPhi i = false := by
  cases i with
  | phi => cases hi
  | _ => rfl

theorem constInst_of_none (h : constant? S i = none) : constInst S i = i := by
  unfold constInst
  rw [h]

theorem constInst_of_some (hi : i.isPhi = false) (h : constant? S i = some c) :
    constInst S i = .const i.dest c := by
  unfold constInst
  rw [h]
  cases i with
  | phi => cases hi
  | _ => rfl

theorem isPhi_constInst (S : Solution) (hi : i.isPhi = false) : (constInst S i).isPhi = false := by
  cases hc : constant? S i with
  | none => rwa [constInst_of_none hc]
  | some c =>
    rw [constInst_of_some hi hc]
    rfl

theorem constAfter_eq_some {j : MirInst} :
    constAfter S i = some j ↔ i.isPhi = true ∧ ∃ c, constant? S i = some c ∧ .const i.dest c = j := by
  unfold constAfter
  split
  · simp [*]
  · simp [*]

/-- What φs and other instructions come to when the constants are in place. -/
theorem placeConsts_eq {phis body : List MirInst} (hphi : ∀ i ∈ phis, i.isPhi = true)
    (hbody : ∀ i ∈ body, i.isPhi = false) (hne : ∀ i ∈ phis, emptyPhi i = false) :
    placeConsts S (phis ++ body) =
      phis.filter (fun i ↦ (constant? S i).isNone) ++ phis.filterMap (constAfter S) ++
        body.map (constInst S) := by
  have hafter : (phis ++ body).filterMap (constAfter S) = phis.filterMap (constAfter S) := by
    rw [List.filterMap_append, List.append_right_eq_self, List.filterMap_eq_nil_iff]
    intro i hi
    rw [constAfter, if_neg (by simp [hbody i hi])]
  have hbody' : ∀ i ∈ body.map (constInst S), i.isPhi = false := fun i hi ↦ by
    obtain ⟨j, hj, rfl⟩ := List.mem_map.1 hi
    exact isPhi_constInst S (hbody j hj)
  -- a φ is emptied when it is constant
  have hempty : ∀ i ∈ phis, (!emptyPhi (constInst S i)) = (constant? S i).isNone := fun i hi ↦ by
    cases hc : constant? S i with
    | none => simp [constInst_of_none hc, hne i hi]
    | some c =>
      have hp := hphi i hi
      cases i with
      | phi d ty args => simp [constInst, hc, emptyPhi]
      | _ => cases hp
  have hphis : (phis.map (constInst S)).filter (fun i ↦ !emptyPhi i) =
      phis.filter fun i ↦ (constant? S i).isNone := by
    have hfilter : phis.filter ((fun i ↦ !emptyPhi i) ∘ constInst S) =
        phis.filter fun i ↦ (constant? S i).isNone := List.filter_congr hempty
    rw [List.filter_map, hfilter]
    refine (List.map_congr_left fun i hi ↦ ?_).trans (List.map_id _)
    exact constInst_of_none (by simpa using (List.mem_filter.1 hi).2)
  have hkeep : (body.map (constInst S)).filter (fun i ↦ !emptyPhi i) = body.map (constInst S) :=
    List.filter_eq_self.2 fun i hi ↦ by simp [emptyPhi_of_not_phi (hbody' i hi)]
  have hstays : ∀ i ∈ phis.filter fun i ↦ (constant? S i).isNone, i.isPhi = true := fun i hi ↦
    hphi i (List.mem_filter.1 hi).1
  unfold placeConsts
  rw [hafter, List.map_append]
  by_cases hnil : phis.filterMap (constAfter S) = []
  · have hnone : ∀ i ∈ phis, constant? S i = none := fun i hi ↦ by
      have hi' := List.filterMap_eq_nil_iff.1 hnil i hi
      rw [constAfter, if_pos (hphi i hi), Option.map_eq_none_iff] at hi'
      exact hi'
    have hself : phis.map (constInst S) = phis :=
      (List.map_congr_left fun i hi ↦ constInst_of_none (hnone i hi)).trans (List.map_id _)
    have hfilter : (phis.filter fun i ↦ (constant? S i).isNone) = phis :=
      List.filter_eq_self.2 fun i hi ↦ by simp [hnone i hi]
    simp [hnil, hself, hfilter]
  · simp only [hnil, if_false]
    rw [List.filter_append, hphis, hkeep, List.takeWhile_append_of_pos hstays,
      List.dropWhile_append_of_pos hstays]
    cases hb : body.map (constInst S) with
    | nil => simp
    | cons j js =>
      have hj : j.isPhi = false := hbody' j (hb ▸ List.mem_cons_self)
      simp [hj]

/-- A φ that stays varies, and has several incomings. -/
def stays (S : Solution) (i : MirInst) : Bool := (constant? S i).isNone && (singleArg i).isNone

theorem emptyPhi_liveArgs (h : Solves f S) (hr : b ∈ S.reached) (hb : f.block? b = some blk)
    (hi : i ∈ blk.insts) : emptyPhi (liveArgs S b i) = false := by
  cases i with
  | phi d ty args =>
    obtain ⟨a, ha, he, -⟩ := h.exists_live_arg hr hb hi
    have hmem : a ∈ args.filter fun a ↦ (a.1, b) ∈ S.edges := List.mem_filter.2 ⟨ha, decide_eq_true he⟩
    cases hargs : args.filter fun a ↦ (a.1, b) ∈ S.edges with
    | nil =>
      rw [hargs] at hmem
      cases hmem
    | cons => simp [liveArgs, hargs, emptyPhi]
  | _ => rfl

/-- The instructions of a block that runs, with its constants in place. -/
theorem placeConsts_insts (h : Solves f S) (hr : b ∈ S.reached) (hb : f.block? b = some blk) :
    placeConsts S (blk.insts.map (liveArgs S b)) =
      (blk.phis.map (liveArgs S b)).filter (fun i ↦ (constant? S i).isNone) ++
        blk.phis.filterMap (constAfter S) ++ blk.body.map (constInst S) := by
  have hinsts := h.acc.wf.insts blk (List.mem_of_getElem? hb)
  have hk := phiMap_liveArgs S b
  have hbody : blk.body.map (liveArgs S b) = blk.body :=
    (List.map_congr_left fun i hi ↦ hk.other i (blk.body_not_phi i hi)).trans (List.map_id _)
  have hafter : (blk.phis.map (liveArgs S b)).filterMap (constAfter S) =
      blk.phis.filterMap (constAfter S) := by
    rw [List.filterMap_map]
    exact List.filterMap_congr fun i _ ↦ constAfter_liveArgs S b i
  rw [hinsts, List.map_append, hbody, placeConsts_eq, hafter]
  · intro i hi
    obtain ⟨j, hj, rfl⟩ := List.mem_map.1 hi
    rw [hk.isPhi]
    exact (List.mem_filter.1 hj).2
  · exact blk.body_not_phi
  · intro i hi
    obtain ⟨j, hj, rfl⟩ := List.mem_map.1 hi
    exact emptyPhi_liveArgs h hr hb (List.mem_filter.1 hj).1

/-- **What a block that runs is left as.** -/
theorem foldBlock_eq (h : Solves f S) (hr : b ∈ S.reached) (hb : f.block? b = some blk) :
    (foldBlock S blk).1 = ⟨b, (blk.phis.map (liveArgs S b)).filter (stays S) ++
      blk.phis.filterMap (constAfter S) ++ blk.body.map (constInst S), foldTerm S blk.term⟩ := by
  have hid : blk.id = b := h.acc.wf.id hb
  have hconsts : (blk.phis.filterMap (constAfter S)).filter (fun i ↦ (singleArg i).isNone) =
      blk.phis.filterMap (constAfter S) := List.filter_eq_self.2 fun j hj ↦ by
    obtain ⟨i, -, hi⟩ := List.mem_filterMap.1 hj
    obtain ⟨-, c, -, rfl⟩ := constAfter_eq_some.1 hi
    rfl
  have hbody : (blk.body.map (constInst S)).filter (fun i ↦ (singleArg i).isNone) =
      blk.body.map (constInst S) := List.filter_eq_self.2 fun j hj ↦ by
    obtain ⟨i, hi, rfl⟩ := List.mem_map.1 hj
    simp [singleArg_of_not_phi (isPhi_constInst S (blk.body_not_phi i hi))]
  simp only [foldBlock, hid, placeConsts_insts h hr hb, List.filter_append, List.filter_filter, hconsts,
    hbody]
  congr 4
  funext i
  exact Bool.and_comm _ _

/-! ### The φs that are their one incoming -/

/-- The φs that are their one incoming, with it; the last first. -/
def forwards (f : MirFunc) (S : Solution) : List (ValueId × ValueId) :=
  ((f.blocks.filter fun b ↦ b.id ∈ S.reached).map fun b ↦ (foldBlock S b).2).reverse.flatten

theorem singleArg_eq_some : singleArg i = some (d, a) ↔ ∃ ty p, i = .phi d ty [(p, a)] := by
  constructor
  · intro hi
    unfold singleArg at hi
    split at hi
    · cases hi
      exact ⟨_, _, rfl⟩
    · cases hi
  · rintro ⟨ty, p, rfl⟩
    rfl

theorem mem_forwards (h : Solves f S) : (d, a) ∈ forwards f S ↔ ∃ b blk i, f.block? b = some blk ∧
    b ∈ S.reached ∧ i ∈ blk.phis ∧ constant? S i = none ∧ singleArg (liveArgs S b i) = some (d, a) := by
  have hid : ∀ {i : BlockId} {b : MirBlock}, f.block? i = some b → b.id = i := fun hb ↦ h.acc.wf.id hb
  simp only [forwards, List.mem_flatten, List.mem_reverse, List.mem_map, List.mem_filter, decide_eq_true_eq]
  constructor
  · rintro ⟨-, ⟨blk, ⟨hblk, hr⟩, rfl⟩, hm⟩
    obtain ⟨b, hb⟩ := List.mem_iff_getElem?.1 hblk
    have hb : f.block? b = some blk := hb
    rw [hid hb] at hr
    simp only [foldBlock, hid hb, placeConsts_insts h hr hb, List.mem_reverse, List.mem_filterMap] at hm
    obtain ⟨i, hi, hs⟩ := hm
    rw [List.mem_append, List.mem_append] at hi
    rcases hi with (hi | hi) | hi
    · obtain ⟨hi, hc⟩ := List.mem_filter.1 hi
      obtain ⟨j, hj, rfl⟩ := List.mem_map.1 hi
      exact ⟨b, blk, j, hb, hr, hj, by simpa [constant?_liveArgs] using hc, hs⟩
    · obtain ⟨j, -, hj⟩ := List.mem_filterMap.1 hi
      obtain ⟨-, c, -, rfl⟩ := constAfter_eq_some.1 hj
      cases hs
    · obtain ⟨j, hj, rfl⟩ := List.mem_map.1 hi
      rw [singleArg_of_not_phi (isPhi_constInst S (blk.body_not_phi j hj))] at hs
      cases hs
  · rintro ⟨b, blk, i, hb, hr, hi, hc, hs⟩
    refine ⟨_, ⟨blk, ⟨List.mem_of_getElem? hb, by rwa [hid hb]⟩, rfl⟩, ?_⟩
    simp only [foldBlock, hid hb, placeConsts_insts h hr hb, List.mem_reverse, List.mem_filterMap]
    have hvaries : (constant? S (liveArgs S b i)).isNone = true := by simp [constant?_liveArgs, hc]
    have hkept : liveArgs S b i ∈ (blk.phis.map (liveArgs S b)).filter fun i ↦ (constant? S i).isNone :=
      List.mem_filter.2 ⟨List.mem_map_of_mem hi, hvaries⟩
    exact ⟨_, List.mem_append_left _ (List.mem_append_left _ hkept), hs⟩

theorem mem_defs_of_phis (hi : i ∈ blk.phis) : i.dest ∈ blk.defs :=
  List.mem_flatMap.2 ⟨i, (List.mem_filter.1 hi).1, i.dest_mem_dests⟩

/-- The one incoming of a φ as it runs. -/
theorem exists_single (hs : singleArg (liveArgs S b i) = some (d, a)) : ∃ ty args p,
    i = .phi d ty args ∧ args.filter (fun e ↦ (e.1, b) ∈ S.edges) = [(p, a)] := by
  obtain ⟨ty, p, heq⟩ := singleArg_eq_some.1 hs
  cases i with
  | phi d' ty' args =>
    obtain ⟨rfl, rfl, hargs⟩ := MirInst.phi.inj heq
    exact ⟨_, args, p, rfl, hargs⟩
  | _ => cases heq

/-- How far a block is from the entry, along edges that run. -/
noncomputable def level (f : MirFunc) (S : Solution) (b : BlockId) : ℕ :=
  depth (· = f.entry) (fun p s ↦ (p, s) ∈ S.edges) b

theorem Solves.level_le (h : Solves f S) (hr : b ∈ S.reached) (hdom : Dominates (· = f.entry) f.Edge q b) :
    level f S q ≤ level f S b := by
  by_cases hqb : q = b
  · rw [hqb]
  · obtain ⟨l, hw⟩ := h.grown.reach b hr
    exact ((hdom.mono (fun _ ↦ id) fun _ _ ↦ h.grown.edge_of_mem).depth_lt hqb hw).le

/-- **What such a φ reads is defined nearer to the entry.** -/
theorem forwards_nearer (h : Solves f S) (hm : (d, a) ∈ forwards f S) : ∃ b blk, f.block? b = some blk ∧
    d ∈ blk.defs ∧ f.ty a = f.ty d ∧
      (a ∉ f.defs ∨ ∃ q c, f.block? q = some c ∧ a ∈ c.defs ∧ level f S q < level f S b) := by
  obtain ⟨b, blk, i, hb, hr, hi, -, hs⟩ := (mem_forwards h).1 hm
  obtain ⟨ty, args, p, rfl, hargs⟩ := exists_single hs
  have hin := (List.mem_filter.1 hi).1
  have hmem : (p, a) ∈ args.filter fun e ↦ (e.1, b) ∈ S.edges := hargs ▸ List.mem_singleton_self _
  obtain ⟨hty, -, htys⟩ := h.acc.wf.phi (List.mem_of_getElem? hb) hin
  refine ⟨b, blk, hb, mem_defs_of_phis hi, (htys _ (List.mem_filter.1 hmem).1).trans hty.symm, ?_⟩
  -- a shortest walk comes from the block of the incoming
  obtain ⟨l, hw⟩ := h.grown.reach b hr
  obtain ⟨l, hw, hlen⟩ := hw.exists_length_eq_depth
  cases hw with
  | start ha => exact absurd hin (phi_notMem (h.noPhi _ (ha ▸ hb)))
  | step hw he =>
    rename_i p' l
    obtain ⟨e, hea, rfl, hav⟩ := exists_incoming_avail h.acc hb hin (h.grown.edge_of_mem he)
    have hlive : e ∈ args.filter fun e ↦ (e.1, b) ∈ S.edges := List.mem_filter.2 ⟨hea, decide_eq_true he⟩
    rw [hargs, List.mem_singleton] at hlive
    subst hlive
    rcases hav with hav | ⟨q, c, hdom, hq, hv⟩
    · exact .inl hav
    · refine .inr ⟨q, c, hq, hv, (h.level_le (h.grown.edge he).1 hdom).trans_lt ?_⟩
      rw [level, level, ← hlen, List.length_cons]
      exact Nat.lt_succ_of_le hw.depth_le

/-! ### Following them -/

/-- What stands for each value in the end. -/
structure Stands (f : MirFunc) (S : Solution) (r : ValueId → ValueId) : Prop where
  self : ∀ {v}, v ∉ (forwards f S).map Prod.fst → r v = v
  next : ∀ {v w}, (forwards f S).lookup v = some w → r v = r w
  ends : ∀ v, r v ∉ (forwards f S).map Prod.fst
  nearer : ∀ {b blk v}, f.block? b = some blk → v ∈ blk.defs →
    r v = v ∨ r v ∉ f.defs ∨ ∃ q c, f.block? q = some c ∧ r v ∈ c.defs ∧ level f S q < level f S b
  ty : ∀ v, f.ty (r v) = f.ty v

theorem resolve_of_none {subst : List (ValueId × ValueId)} (hv : subst.lookup v = none) :
    resolve subst (n + 1) v = some v := by
  unfold resolve
  rw [hv]

theorem resolve_of_some {subst : List (ValueId × ValueId)} (hv : subst.lookup v = some w) :
    resolve subst (n + 1) v = resolve subst n w := by
  rw [resolve.eq_def]
  dsimp only
  rw [hv]

theorem mem_of_lookup {subst : List (ValueId × ValueId)} (hv : subst.lookup v = some w) : (v, w) ∈ subst := by
  obtain ⟨l₁, l₂, rfl, -⟩ := List.lookup_eq_some_iff.1 hv
  simp

theorem keys_subset_defs (h : Solves f S) (hv : v ∈ (forwards f S).map Prod.fst) : v ∈ f.defs := by
  obtain ⟨⟨d, a⟩, hm, rfl⟩ := List.mem_map.1 hv
  obtain ⟨b, blk, hb, hd, -⟩ := forwards_nearer h hm
  exact mem_defs_of_block? hb hd

/-- More fuel gives the same. -/
theorem resolve_mono {subst : List (ValueId × ValueId)} {m : ℕ} (hnm : n ≤ m)
    (hv : resolve subst n v = some w) : resolve subst m v = some w := by
  induction n generalizing v m with
  | zero => cases hv
  | succ n ih =>
    obtain ⟨m, rfl⟩ := Nat.exists_eq_add_of_lt hnm
    cases hl : subst.lookup v with
    | none =>
      rw [resolve_of_none hl] at hv ⊢
      exact hv
    | some u =>
      rw [resolve_of_some hl] at hv ⊢
      exact ih (by omega) hv

/-- Following them ends within the distance from the entry. -/
theorem resolve_isSome (h : Solves f S) (hb : f.block? b = some blk) (hv : v ∈ blk.defs)
    (hn : level f S b < n) : (resolve (forwards f S) (n + 1) v).isSome := by
  induction n generalizing b blk v with
  | zero => omega
  | succ n ih =>
    cases hl : (forwards f S).lookup v with
    | none => simp [resolve_of_none hl]
    | some w =>
      rw [resolve_of_some hl]
      obtain ⟨b', blk', hb', hv', -, hw⟩ := forwards_nearer h (mem_of_lookup hl)
      obtain rfl := h.acc.wf.eq_of_mem_defs hb hb' hv hv'
      rcases hw with hw | ⟨q, c, hq, hwc, hlt⟩
      · have hnone := lookup_eq_none_iff.2 fun hk ↦ hw (keys_subset_defs h hk)
        simp [resolve_of_none hnone]
      · exact ih hq hwc (by omega)

/-- What following them comes to. -/
theorem resolve_spec (h : Solves f S) (hv : resolve (forwards f S) n v = some w) :
    w ∉ (forwards f S).map Prod.fst ∧ f.ty w = f.ty v ∧ ∀ {b blk}, f.block? b = some blk → v ∈ blk.defs →
      w = v ∨ w ∉ f.defs ∨ ∃ q c, f.block? q = some c ∧ w ∈ c.defs ∧ level f S q < level f S b := by
  induction n generalizing v with
  | zero => cases hv
  | succ n ih =>
    cases hl : (forwards f S).lookup v with
    | none =>
      rw [resolve_of_none hl] at hv
      obtain rfl := Option.some.inj hv
      exact ⟨lookup_eq_none_iff.1 hl, rfl, fun _ _ ↦ .inl rfl⟩
    | some u =>
      rw [resolve_of_some hl] at hv
      obtain ⟨hnot, hty, hplace⟩ := ih hv
      obtain ⟨b', blk', hb', hv', hty', hu⟩ := forwards_nearer h (mem_of_lookup hl)
      refine ⟨hnot, hty.trans hty', fun {b blk} hb hvb ↦ .inr ?_⟩
      obtain rfl := h.acc.wf.eq_of_mem_defs hb hb' hvb hv'
      rcases hu with hu | ⟨q, c, hq, huc, hlt⟩
      · -- what no instruction defines stays
        have hnone := lookup_eq_none_iff.2 fun hk ↦ hu (keys_subset_defs h hk)
        cases n with
        | zero => cases hv
        | succ n =>
          rw [resolve_of_none hnone] at hv
          exact .inl (Option.some.inj hv ▸ hu)
      · rcases hplace hq huc with rfl | hno | ⟨q', c', hq', hw', hlt'⟩
        · exact .inr ⟨q, c, hq, huc, hlt⟩
        · exact .inl hno
        · exact .inr ⟨q', c', hq', hw', hlt'.trans hlt⟩

/-- **Following them ends**, for all values with the same fuel. -/
theorem exists_stands (h : Solves f S) : ∃ N r, Stands f S r ∧
    ∀ n ≥ N, ∀ v, resolve (forwards f S) n v = some (r v) := by
  have hsome : ∀ v,
      (resolve (forwards f S) ((Finset.range f.blocks.length).sup (level f S) + 2) v).isSome := by
    intro v
    by_cases hv : v ∈ f.defs
    · obtain ⟨blk, hblk, hvb⟩ := List.mem_flatMap.1 hv
      obtain ⟨b, hb⟩ := List.mem_iff_getElem?.1 hblk
      have hlt : b < f.blocks.length := (List.getElem?_eq_some_iff.1 hb).1
      have hle : level f S b ≤ (Finset.range f.blocks.length).sup (level f S) :=
        Finset.le_sup (Finset.mem_range.2 hlt)
      exact resolve_isSome h hb hvb (Nat.lt_succ_of_le hle)
    · rw [resolve_of_none (lookup_eq_none_iff.2 fun hk ↦ hv (keys_subset_defs h hk))]
      rfl
  have hall := fun v ↦ Option.isSome_iff_exists.1 (hsome v)
  choose r hr using hall
  refine ⟨_, r, ⟨fun {v} hv ↦ ?_, fun {v w} hv ↦ ?_, fun v ↦ (resolve_spec h (hr v)).1,
    fun hb hv ↦ (resolve_spec h (hr _)).2.2 hb hv, fun v ↦ (resolve_spec h (hr v)).2.1⟩,
    fun n hn v ↦ resolve_mono hn (hr v)⟩
  · have hself := hr v
    rw [resolve_of_none (lookup_eq_none_iff.2 hv)] at hself
    exact (Option.some.inj hself).symm
  · have hnext := resolve_mono (Nat.le_succ _) (hr v)
    rw [resolve_of_some hv, hr w] at hnext
    exact (Option.some.inj hnext).symm

/-- What stands for a φ stands for its one incoming. -/
theorem Stands.arg {r : ValueId → ValueId} (hS : Stands f S r) (h : Solves f S) (hb : f.block? b = some blk)
    (hi : MirInst.phi d ty args ∈ blk.phis) (hd : d ∈ (forwards f S).map Prod.fst) :
    ∃ p a, args.filter (fun e ↦ (e.1, b) ∈ S.edges) = [(p, a)] ∧ r d = r a := by
  obtain ⟨a, hl⟩ : ∃ a, (forwards f S).lookup d = some a := by
    cases hl : (forwards f S).lookup d with
    | none => exact absurd hd (lookup_eq_none_iff.1 hl)
    | some a => exact ⟨a, rfl⟩
  obtain ⟨b', blk', i, hb', -, hi', -, hs⟩ := (mem_forwards h).1 (mem_of_lookup hl)
  obtain ⟨ty', args', p, rfl, hargs⟩ := exists_single hs
  obtain ⟨rfl, heq⟩ := h.acc.wf.eq_of_dest hb hb' (List.mem_filter.1 hi).1 (List.mem_filter.1 hi').1
    (MirInst.dest_mem_dests _)
  obtain ⟨-, -, rfl⟩ := MirInst.phi.inj heq
  exact ⟨p, a, hargs, hS.next hl⟩

end CoilLang.Mir.Sccp
