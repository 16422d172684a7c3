import CoilLang.Mir.Dce
import CoilLang.Mir.Tidy

/-!
# Tidying preserves the runs

Each rewrite of `tidy` is a step of its own: sending a branch to one of two arms that end alike,
threading one edge through an empty block, unlinking a block that nothing jumps to, and renumbering
the blocks. Each gets a simulation; for a threaded edge one step of the new function is two steps of
the old one, the second through the empty block.

What makes threading right is that **the incomings of the φs are edges** (`Tidied.phiEdge`): the
predecessor had no edge into the target, so no φ there has an incoming from it yet, and the one that
is added is the one that is read.
-/

namespace CoilLang.Mir

variable {σ π : Type}

/-! ### Rewriting the incomings of φs -/

/-- `h` changes nothing but the incomings of φs. -/
structure PhiMap (h : MirInst → MirInst) : Prop where
  dest : ∀ i, (h i).dest = i.dest
  isPhi : ∀ i, (h i).isPhi = i.isPhi
  other : ∀ i, i.isPhi = false → h i = i

theorem phiMap_pushArg (b p : BlockId) : PhiMap (pushArg b p) := by
  refine ⟨fun i ↦ ?_, fun i ↦ ?_, fun i hi ↦ ?_⟩
  · cases i <;> simp only [pushArg]
    split <;> rfl
  · cases i <;> simp only [pushArg]
    split <;> rfl
  · cases i <;> first | rfl | cases hi

theorem phiMap_dropArg (b : BlockId) : PhiMap (dropArg b) := by
  refine ⟨fun i ↦ ?_, fun i ↦ ?_, fun i hi ↦ ?_⟩
  · cases i <;> rfl
  · cases i <;> rfl
  · cases i <;> first | rfl | cases hi

theorem phiMap_relayoutInst (layout : List BlockId) : PhiMap (relayoutInst layout) := by
  refine ⟨fun i ↦ ?_, fun i ↦ ?_, fun i hi ↦ ?_⟩
  · cases i <;> rfl
  · cases i <;> rfl
  · cases i <;> first | rfl | cases hi

namespace PhiMap

variable {h : MirInst → MirInst}

theorem filter_phi (hh : PhiMap h) (is : List MirInst) :
    (is.map h).filter MirInst.isPhi = (is.filter MirInst.isPhi).map h := by
  rw [List.filter_map]
  congr 2
  funext i
  exact hh.isPhi i

theorem filter_not_phi (hh : PhiMap h) (is : List MirInst) :
    ((is.map h).filter fun i ↦ !i.isPhi) = is.filter fun i ↦ !i.isPhi := by
  rw [List.filter_map]
  have hcomp : ((fun i : MirInst ↦ !i.isPhi) ∘ h) = fun i ↦ !i.isPhi := by
    funext i
    simp [hh.isPhi i]
  rw [hcomp]
  refine (List.map_congr_left fun i hi ↦ ?_).trans (List.map_id _)
  exact hh.other i (by simpa using (List.mem_filter.1 hi).2)

theorem ready_map {phis : List MirInst} {p q : Option BlockId}
    (harg : ∀ i ∈ phis, phiArg q (h i) = phiArg p i) :
    ready q (phis.map h) = ready p phis := by
  simp only [ready, List.all_map]
  refine Bool.eq_iff_iff.2 ?_
  simp only [List.all_eq_true, Function.comp_apply]
  exact forall₂_congr fun i hi ↦ by rw [harg i hi]

theorem enter_map (hh : PhiMap h) {phis : List MirInst} {p q : Option BlockId}
    (harg : ∀ i ∈ phis, phiArg q (h i) = phiArg p i) (env : Env) :
    enter q (phis.map h) env = enter p phis env := by
  funext v
  unfold enter
  have hfind : (phis.map h).find? (·.dest = v) = (phis.find? (·.dest = v)).map h := by
    rw [List.find?_map]
    congr 2
    funext i
    simp [hh.dest i]
  rw [hfind]
  cases hf : phis.find? (·.dest = v) with
  | none => rfl
  | some i =>
    simp only [Option.map_some, Option.bind_some]
    rw [harg i (List.mem_of_find?_eq_some hf)]

theorem trapTypedInst (hh : PhiMap h) {f : MirFunc} {i : MirInst} (hi : f.TrapTypedInst i) :
    f.TrapTypedInst (h i) := by
  cases hphi : i.isPhi with
  | false => rwa [hh.other i hphi]
  | true =>
    have hphi' := hh.isPhi i
    rw [hphi] at hphi'
    cases hi' : h i <;> simp_all [MirInst.isPhi, MirFunc.TrapTypedInst]

end PhiMap

/-! ### One block of a run -/

/-- A run that is not stuck is in a block whose φs have incomings. -/
theorem exists_ready {W : World σ π} {f : MirFunc} {s : State σ}
    (hs : ∀ r, step W f s = .inr r → r.outcome ≠ .stuck) :
    ∃ b, f.block? s.block = some b ∧ ready s.pred b.phis = true := by
  unfold step at hs
  cases hb : f.block? s.block with
  | none =>
    rw [hb] at hs
    exact absurd rfl (hs _ rfl)
  | some b =>
    refine ⟨b, rfl, ?_⟩
    by_contra hnot
    rw [hb] at hs
    simp only [execBlock, hnot] at hs
    exact absurd rfl (hs _ rfl)

/-- What the body of the block a run is in computes. -/
def bodyOf (W : World σ π) (b : MirBlock) (s : State σ) : Except (Result σ π) (Mem σ) :=
  execBody W b.body ⟨enter s.pred b.phis s.mem.env, s.mem.world, s.mem.trace⟩

theorem step_eq_leave {W : World σ π} {f : MirFunc} {s : State σ} {b : MirBlock}
    (hb : f.block? s.block = some b) (hready : ready s.pred b.phis = true) :
    step W f s = leave s.block b.term (bodyOf W b s) := by
  simp only [step, hb, execBlock, hready, if_true, bodyOf]

/-- A block with the incomings of its φs rewritten computes the same, when each φ reads the same. -/
theorem step_eq_leave_of_phiMap {W : World σ π} {g : MirFunc} {s t : State σ} {b b' : MirBlock}
    {h : MirInst → MirInst} (hh : PhiMap h) (hb' : g.block? t.block = some b')
    (hinsts : b'.insts = b.insts.map h) (hready : ready s.pred b.phis = true)
    (harg : ∀ i ∈ b.phis, phiArg t.pred (h i) = phiArg s.pred i) (hmem : s.mem = t.mem) :
    step W g t = leave t.block b'.term (bodyOf W b s) := by
  have hphis : b'.phis = b.phis.map h := by rw [MirBlock.phis, hinsts, hh.filter_phi]; rfl
  have hbody : b'.body = b.body := by rw [MirBlock.body, hinsts, hh.filter_not_phi]; rfl
  have hready' : ready t.pred b'.phis = true := by rw [hphis, PhiMap.ready_map harg, hready]
  rw [step_eq_leave hb' hready', bodyOf, bodyOf, hphis, hbody, hh.enter_map harg, hmem]

theorem phiMap_id : PhiMap id := ⟨fun _ ↦ rfl, fun _ ↦ rfl, fun _ _ ↦ rfl⟩

/-- An empty block only runs its terminator. -/
theorem step_of_empty {W : World σ π} {f : MirFunc} {s : State σ} {b : MirBlock}
    (hb : f.block? s.block = some b) (hempty : b.insts = []) :
    step W f s = execTerm s.block s.mem b.term := by
  have hphis : b.phis = [] := by rw [MirBlock.phis, hempty]; rfl
  have hbody : b.body = [] := by rw [MirBlock.body, hempty]; rfl
  rw [step_eq_leave hb (by rw [hphis]; rfl), bodyOf, hphis, hbody]
  rfl

theorem StepRel.refl {Rel : State σ → State σ → Prop} (h : ∀ s, Rel s s)
    (x : State σ ⊕ Result σ π) : StepRel Rel x x := by
  cases x with
  | inl s => exact h s
  | inr r => rfl

/-! ### Branches whose arms end alike -/

section
variable {f : MirFunc} {i t n : BlockId}

/-- The old run may be in the one arm while the new run is in the other; after that they have entered
the same block, whose φs read the same from both. -/
def ArmRel (f : MirFunc) (t n : BlockId) (s u : State σ) : Prop :=
  s.mem = u.mem ∧
    ((s.block = u.block ∧ ∀ j ∈ f.phisOf s.block, phiArg u.pred j = phiArg s.pred j) ∨
      (s.block = n ∧ u.block = t))

theorem armRel_refl (s : State σ) : ArmRel f t n s s := ⟨rfl, .inl ⟨rfl, fun _ _ ↦ rfl⟩⟩

theorem sameEnd_step (h : sameEnd f t n = true) {tb nb : MirBlock} (ht : f.block? t = some tb)
    (hn : f.block? n = some nb) {m : Mem σ} :
    StepRel (ArmRel f t n) (execTerm (π := π) n m nb.term) (execTerm t m tb.term) := by
  simp only [sameEnd, ht, hn, Option.bind_some] at h
  split at h
  · rename_i c c' htt hnt
    simp only [decide_eq_true_eq] at h
    obtain ⟨rfl, hphis⟩ := h
    rw [htt, hnt]
    refine ⟨rfl, .inl ⟨rfl, fun j hj ↦ ?_⟩⟩
    simpa using List.all_eq_true.1 hphis j hj
  · rename_i lo hi t' htt hnt
    simp only [decide_eq_true_eq] at h
    subst h
    rw [htt, hnt]
    rfl
  · cases h

/-- The arms do not branch. -/
theorem sameEnd_ne (h : sameEnd f t n = true) {cond t' n' : ℕ}
    (hi : (f.block? i).bind MirBlock.term = some (.br cond t' n')) : i ≠ t := by
  rintro rfl
  simp [sameEnd, hi] at h

/-- **Going to one of two arms that end alike preserves the runs.** -/
theorem tidyArms_preserves (f : MirFunc) (i : BlockId) : Preserves f (tidyArms f i) := by
  unfold tidyArms
  split
  swap
  · exact .refl f
  rename_i cond t n hbr
  split
  swap
  · exact .refl f
  rename_i hcond
  obtain ⟨-, ht, hn, hsame⟩ := hcond
  obtain ⟨-, tb, htb, htempty⟩ := MirFunc.isEmptyBlock_iff.1 ht
  obtain ⟨-, nb, hnb, hnempty⟩ := MirFunc.isEmptyBlock_iff.1 hn
  obtain ⟨bi, hbi, hterm⟩ := Option.bind_eq_some_iff.1 hbr
  have hti : i ≠ t := sameEnd_ne hsame hbr
  refine Preserves.of_lockstep fun σ π W env w ↦ ⟨ArmRel f t n, armRel_refl _, ?_⟩
  rintro s u ⟨hmem, hR⟩
  refine ⟨by rw [hmem], fun hs ↦ ?_⟩
  rcases hR with ⟨hblock, harg⟩ | ⟨hsn, hut⟩
  · obtain ⟨b, hb, hready⟩ := exists_ready hs
    rw [MirFunc.phisOf_eq hb] at harg
    rw [step_eq_leave hb hready]
    by_cases hi : i = s.block
    · -- the branch itself: the new run goes to `t` whatever the condition is
      obtain rfl : bi = b := by rw [← hi, hbi] at hb; exact Option.some.inj hb
      have hg : (f.modifyBlock i (MirBlock.setTerm (.jump t))).block? u.block =
          some (bi.setTerm (.jump t)) := by
        rw [← hblock, ← hi, MirFunc.block?_modifyBlock_self, hbi]
        rfl
      rw [step_eq_leave_of_phiMap (b := bi) phiMap_id hg (List.map_id _).symm hready harg hmem,
        hterm, ← hblock]
      cases bodyOf W bi s with
      | error r => rfl
      | ok m =>
        by_cases hc : m.env cond = 0
        · exact ⟨rfl, .inr ⟨if_pos hc, rfl⟩⟩
        · exact ⟨rfl, .inl ⟨if_neg hc, fun _ _ ↦ rfl⟩⟩
    · have hg : (f.modifyBlock i (MirBlock.setTerm (.jump t))).block? u.block = some b := by
        rw [← hblock, MirFunc.block?_modifyBlock_of_ne _ hi, hb]
      rw [step_eq_leave_of_phiMap (b := b) phiMap_id hg (List.map_id _).symm hready harg hmem,
        ← hblock]
      exact .refl armRel_refl _
  · have hg : (f.modifyBlock i (MirBlock.setTerm (.jump t))).block? u.block = some tb := by
      rw [hut, MirFunc.block?_modifyBlock_of_ne _ hti, htb]
    rw [step_of_empty (hsn ▸ hnb) hnempty, step_of_empty hg htempty, hsn, hut, hmem]
    exact sameEnd_step hsame htb hnb

end

/-! ### Threading an edge -/

/-- Blocks are numbered by position and every φ incoming is an edge. -/
structure Tidied (f : MirFunc) : Prop where
  id : ∀ {i : BlockId} {b : MirBlock}, f.block? i = some b → b.id = i
  phiEdge : ∀ {c d : ℕ} {ty : MirTy} {args : List (BlockId × ValueId)},
    .phi d ty args ∈ f.phisOf c → ∀ a ∈ args, c ∈ f.succsOf a.1

theorem hop_eq_some {f : MirFunc} {b c : BlockId} (h : hop f b = some c) :
    b ≠ f.entry ∧ c ≠ b ∧ ∃ blk, f.block? b = some blk ∧ blk.insts = [] ∧ blk.term = some (.jump c) := by
  unfold hop at h
  split at h
  · rename_i hempty
    obtain ⟨hentry, blk, hblk, hnil⟩ := MirFunc.isEmptyBlock_iff.1 hempty
    rw [hblk, Option.bind_some] at h
    split at h
    · rename_i c' hterm
      split at h
      · cases h
      · rename_i hne
        cases h
        exact ⟨hentry, hne, blk, hblk, hnil, hterm⟩
    · cases h
  · cases h

theorem hop_iff {f : MirFunc} {b c : BlockId} :
    hop f b = some c ↔ b ≠ f.entry ∧ c ≠ b ∧
      ∃ blk, f.block? b = some blk ∧ blk.insts = [] ∧ blk.term = some (.jump c) := by
  refine ⟨hop_eq_some, ?_⟩
  rintro ⟨hentry, hne, blk, hblk, hnil, hterm⟩
  have hempty : f.isEmptyBlock b = true := MirFunc.isEmptyBlock_iff.2 ⟨hentry, blk, hblk, hnil⟩
  rw [hop, if_pos hempty, hblk, Option.bind_some, hterm]
  exact if_neg hne

theorem threadEdge_block? (f : MirFunc) (b c p x : BlockId) :
    (threadEdge f b c p).block? x = (f.block? x).map fun q ↦
      ⟨q.id, if x = c then q.insts.map (pushArg b p) else q.insts,
        if x = p then q.term.map (Terminator.retarget b c) else q.term⟩ := by
  rw [threadEdge, MirFunc.block?_modifyBlock, MirFunc.block?_modifyBlock]
  cases f.block? x with
  | none => simp
  | some q =>
    by_cases hc : c = x <;> by_cases hp : p = x
    · simp [hc, hp, MirBlock.mapInsts]
    · simp [hc, hp, MirBlock.mapInsts, Ne.symm hp]
    · simp [hc, hp, Ne.symm hc]
    · simp [hc, hp, Ne.symm hc, Ne.symm hp]

theorem execTerm_retarget (b c x : BlockId) (m : Mem σ) (t : Option Terminator) :
    execTerm (π := π) x m (t.map (Terminator.retarget b c)) =
      match execTerm (π := π) x m t with
      | .inl s => .inl { s with block := if s.block = b then c else s.block }
      | .inr r => .inr r := by
  rcases t with _ | d | ⟨cond, t, n⟩ | ⟨lo, hi⟩ | _
  · rfl
  · rfl
  · simp only [execTerm, Option.map_some, Terminator.retarget]
    by_cases h : m.env cond = 0
    · simp only [if_pos h]
    · simp only [if_neg h]
  · rfl
  · rfl

section
variable {f : MirFunc} {b c p : BlockId}

/-- The predecessor has no incoming in the target yet. -/
theorem find?_eq_none_of_tidied (hf : Tidied f) (hp : c ∉ f.succsOf p) {d : ValueId} {ty : MirTy}
    {args : List (BlockId × ValueId)} (hi : .phi d ty args ∈ f.phisOf c) :
    args.find? (·.1 = p) = none := by
  refine List.find?_eq_none.2 fun a ha hap ↦ hp ?_
  simp only [decide_eq_true_eq] at hap
  exact hap ▸ hf.phiEdge hi a ha

/-- The incoming that is added is the one that is read. -/
theorem phiArg_pushArg_self (hf : Tidied f) (hp : c ∉ f.succsOf p) {i : MirInst}
    (hi : i ∈ f.phisOf c) : phiArg (some p) (pushArg b p i) = phiArg (some b) i := by
  cases i with
  | phi d ty args =>
    have hnone := find?_eq_none_of_tidied hf hp hi
    cases hb : args.find? (·.1 = b) with
    | none => simp [pushArg, hb, phiArg, hnone]
    | some a => simp [pushArg, hb, phiArg, find?_sortArgs, List.find?_append, hnone]
  | _ => rfl

theorem phiArg_pushArg_of_ne {q : Option BlockId} (hq : q ≠ some p) (i : MirInst) :
    phiArg q (pushArg b p i) = phiArg q i := by
  cases i with
  | phi d ty args =>
    cases hb : args.find? (·.1 = b) with
    | none => simp [pushArg, hb]
    | some a =>
      cases q with
      | none => simp [pushArg, hb, phiArg]
      | some q =>
        have hne : p ≠ q := fun h ↦ hq (h ▸ rfl)
        simp [pushArg, hb, phiArg, find?_sortArgs, List.find?_append, hne]
  | _ => rfl

/-- The new run may have come to the target straight from `p`, the old one through `b`. -/
def EdgeRel (b c p : BlockId) (s t : State σ) : Prop :=
  s.mem = t.mem ∧ s.block = t.block ∧
    (s.pred = t.pred ∨ (s.block = c ∧ s.pred = some b ∧ t.pred = some p))

/-- The φs of the block read the same in both runs. -/
theorem EdgeRel.phiArg (hf : Tidied f) (hp : c ∉ f.succsOf p) {s t : State σ}
    (hR : EdgeRel b c p s t) {blk : MirBlock} (hblk : f.block? s.block = some blk)
    (hready : ready s.pred blk.phis = true) :
    ∀ i ∈ blk.phis, phiArg t.pred ((if s.block = c then pushArg b p else id) i) =
      phiArg s.pred i := by
  obtain ⟨-, -, hpred⟩ := hR
  intro i hi
  by_cases hc : s.block = c
  · have hi' : i ∈ f.phisOf c := by rw [← hc, MirFunc.phisOf_eq hblk]; exact hi
    rw [if_pos hc]
    rcases hpred with heq | ⟨-, hsb, htp⟩
    · by_cases hsp : s.pred = some p
      · -- the old run cannot have come from `p`: there is no incoming
        exfalso
        have hsome := List.all_eq_true.1 hready i hi
        obtain ⟨a, ha⟩ := Option.isSome_iff_exists.1 hsome
        obtain ⟨d, ty, args, q, rfl, hq, hfind⟩ := phiArg_eq_some ha
        obtain rfl : p = q := Option.some.inj (hsp.symm.trans hq)
        rw [find?_eq_none_of_tidied hf hp hi'] at hfind
        cases hfind
      · rw [← heq]
        exact phiArg_pushArg_of_ne hsp i
    · rw [hsb, htp]
      exact phiArg_pushArg_self hf hp hi'
  · rw [if_neg hc]
    rcases hpred with heq | ⟨hsc, -⟩
    · rw [← heq]
      rfl
    · exact absurd hsc hc

/-- **Threading an edge preserves the runs**: the new run takes one step where the old one goes
through the empty block. -/
theorem threadEdge_preserves (hf : Tidied f) (hb : hop f b = some c) (hp : c ∉ f.succsOf p) :
    Preserves f (threadEdge f b c p) := by
  obtain ⟨-, -, eb, heb, hempty, hjump⟩ := hop_eq_some hb
  have hphi : ∀ x : BlockId, PhiMap (if x = c then pushArg b p else id) := fun x ↦ by
    split
    · exact phiMap_pushArg b p
    · exact phiMap_id
  refine Preserves.of_plusSim fun σ π W env w ↦ ⟨EdgeRel b c p, ?_, rfl, rfl, .inl rfl⟩
  -- a step of the new function runs the same body, and then the retargeted terminator
  have hstep : ∀ {s t : State σ}, EdgeRel b c p s t → (machine W f).Safe s →
      ∃ blk, f.block? s.block = some blk ∧ step W f s = leave s.block blk.term (bodyOf W blk s) ∧
        step W (threadEdge f b c p) t = leave s.block
          (if s.block = p then blk.term.map (Terminator.retarget b c) else blk.term)
          (bodyOf W blk s) := by
    intro s t hR hs
    obtain ⟨blk, hblk, hready⟩ := exists_ready fun r hr ↦ hs.step_not_stuck hr
    refine ⟨blk, hblk, step_eq_leave hblk hready, ?_⟩
    have hg : (threadEdge f b c p).block? t.block =
        some ⟨blk.id, blk.insts.map (if s.block = c then pushArg b p else id),
          if s.block = p then blk.term.map (Terminator.retarget b c) else blk.term⟩ := by
      rw [threadEdge_block?, ← hR.2.1, hblk]
      by_cases hc : s.block = c <;> simp [hc]
    rw [step_eq_leave_of_phiMap (hphi s.block) hg rfl hready (hR.phiArg hf hp hblk hready) hR.1,
      ← hR.2.1]
  refine ⟨fun _ ↦ id, fun _ ↦ rfl, fun hR ↦ congrArg Mem.trace hR.1, ?_, ?_⟩
  · intro s t t' hR hs ht
    obtain ⟨blk, hblk, hsf, hsg⟩ := hstep hR hs
    rw [show step W (threadEdge f b c p) t = .inl t' from ht] at hsg
    cases hbody : bodyOf W blk s with
    | error r => rw [hbody] at hsg; cases hsg
    | ok m =>
      rw [hbody] at hsf hsg
      by_cases hsp : s.block = p
      · rw [if_pos hsp, leave, execTerm_retarget] at hsg
        cases hex : execTerm (π := π) s.block m blk.term with
        | inr r => rw [hex] at hsg; cases hsg
        | inl s₁ =>
          rw [hex] at hsg
          have hsf₁ : step W f s = .inl s₁ := by rw [hsf, leave, hex]
          obtain ⟨hpred₁, -⟩ := step_onEdge hsf₁
          have hmem₁ : m = s₁.mem := execTerm_trace.1 hex
          cases hsg
          by_cases hbs : s₁.block = b
          · have hsf₂ : step W f s₁ = .inl ⟨c, some b, s₁.mem⟩ := by
              rw [step_of_empty (hbs ▸ heb) hempty, hjump, hbs]
              rfl
            refine ⟨1, ⟨c, some b, s₁.mem⟩, ?_, rfl, (if_pos hbs).symm, .inr ⟨rfl, rfl, ?_⟩⟩
            · rw [Machine.stepN_succ_of_next hsf₁]
              exact Machine.stepN_one hsf₂
            · rw [hpred₁, hsp]
          · exact ⟨0, s₁, Machine.stepN_one hsf₁, rfl, (if_neg hbs).symm, .inl rfl⟩
      · rw [if_neg hsp] at hsg
        rw [← hsg] at hsf
        exact ⟨0, t', Machine.stepN_one hsf, rfl, rfl, .inl rfl⟩
  · intro s t r hR hs ht
    obtain ⟨blk, hblk, hsf, hsg⟩ := hstep hR hs
    rw [show step W (threadEdge f b c p) t = .inr r from ht] at hsg
    refine .of_step (show step W f s = .inr r from ?_)
    rw [hsf, hsg]
    by_cases hsp : s.block = p
    · rw [if_pos hsp]
      cases hbody : bodyOf W blk s with
      | error r' => rfl
      | ok m =>
        rw [hbody, if_pos hsp, leave, execTerm_retarget] at hsg
        rw [leave, leave, execTerm_retarget]
        cases hex : execTerm (π := π) s.block m blk.term with
        | inl s₁ => rw [hex] at hsg; cases hsg
        | inr r' => rfl
    · rw [if_neg hsp]

end

/-! ### Unlinking a block -/

theorem unlink_block? (f : MirFunc) (b c x : BlockId) :
    (unlink f b c).block? x = (f.block? x).map fun q ↦
      ⟨q.id, if x = c then q.insts.map (dropArg b) else q.insts,
        if x = b then some .unreachable else q.term⟩ := by
  rw [unlink, MirFunc.block?_modifyBlock, MirFunc.block?_modifyBlock]
  cases f.block? x with
  | none => simp
  | some q =>
    by_cases hc : c = x <;> by_cases hb : b = x
    · simp [hc, hb, MirBlock.mapInsts, MirBlock.setTerm]
    · simp [hc, hb, MirBlock.mapInsts, Ne.symm hb]
    · simp [hc, hb, Ne.symm hc, MirBlock.setTerm]
    · simp [hc, hb, Ne.symm hc, Ne.symm hb]

theorem phiArg_dropArg {b : BlockId} {q : Option BlockId} (hq : q ≠ some b) (i : MirInst) :
    phiArg q (dropArg b i) = phiArg q i := by
  cases i with
  | phi d ty args =>
    cases q with
    | none => rfl
    | some q =>
      have hne : q ≠ b := fun h ↦ hq (h ▸ rfl)
      have hfind : (args.filter (·.1 ≠ b)).find? (·.1 = q) = args.find? (·.1 = q) := by
        rw [List.find?_filter]
        refine List.find?_congr fun a _ ↦ ?_
        by_cases ha : a.1 = q
        · simp [ha, hne]
        · simp [ha]
      simp only [dropArg, phiArg, Option.bind_some, hfind]
  | _ => rfl

/-- **Unlinking a block that nothing jumps to preserves the runs**: it is never entered. -/
theorem unlink_preserves {f : MirFunc} {b : BlockId} (c : BlockId) (hentry : b ≠ f.entry)
    (hno : ∀ q, b ∉ f.succsOf q) : Preserves f (unlink f b c) := by
  refine Preserves.of_lockstep fun σ π W env w ↦
    ⟨fun s t ↦ s = t ∧ s.block ≠ b ∧ s.pred ≠ some b, ⟨rfl, hentry.symm, by simp [start]⟩, ?_⟩
  rintro s t ⟨rfl, hsb, hsp⟩
  refine ⟨rfl, fun hs ↦ ?_⟩
  obtain ⟨blk, hblk, hready⟩ := exists_ready hs
  have hphi : PhiMap (if s.block = c then dropArg b else id) := by
    split
    · exact phiMap_dropArg b
    · exact phiMap_id
  have hg : (unlink f b c).block? s.block =
      some ⟨blk.id, blk.insts.map (if s.block = c then dropArg b else id), blk.term⟩ := by
    rw [unlink_block?, hblk]
    simp only [Option.map_some, if_neg hsb, Option.some.injEq, MirBlock.mk.injEq, true_and, and_true]
    split
    · rfl
    · exact (List.map_id _).symm
  have harg : ∀ i ∈ blk.phis,
      phiArg s.pred ((if s.block = c then dropArg b else id) i) = phiArg s.pred i := by
    intro i _
    split
    · exact phiArg_dropArg hsp i
    · rfl
  have hstep : step W (unlink f b c) s = step W f s := by
    rw [step_eq_leave_of_phiMap hphi hg rfl hready harg rfl, step_eq_leave hblk hready]
  rw [hstep]
  cases hst : step W f s with
  | inr r => rfl
  | inl s' =>
    obtain ⟨hpred, blk', hblk', hsucc⟩ := step_onEdge hst
    refine ⟨rfl, fun h ↦ hno s.block ?_, fun h ↦ hsb (Option.some.inj (hpred.symm.trans h))⟩
    rw [MirFunc.succsOf_eq hblk', ← h]
    exact hsucc

/-! ### What the rewrites keep -/

theorem TrapTyped.of_phiMap {f g : MirFunc} (hf : TrapTyped f) (hty : g.types = f.types)
    (h : ∀ x b', g.block? x = some b' →
      ∃ y b k, f.block? y = some b ∧ PhiMap k ∧ b'.insts = b.insts.map k) : TrapTyped g := by
  intro b' hb' i hi
  obtain ⟨x, hx⟩ := List.mem_iff_getElem?.1 hb'
  obtain ⟨y, b, k, hb, hk, hinsts⟩ := h x b' hx
  rw [hinsts] at hi
  obtain ⟨j, hj, rfl⟩ := List.mem_map.1 hi
  have hj' := hk.trapTypedInst (hf b (List.mem_of_getElem? hb) j hj)
  have hty' : ∀ v, g.ty v = f.ty v := fun v ↦ by rw [MirFunc.ty, MirFunc.ty, hty]
  cases hkj : k j with
  | bin => rw [hkj] at hj'; exact hj'
  | unary d op src =>
    rw [hkj] at hj'
    cases op with
    | neg => exact (hty' src).trans hj'
    | not => trivial
  | _ => trivial

theorem succsOf_modifyBlock_setTerm {f : MirFunc} {b : BlockId} {blk : MirBlock}
    (hb : f.block? b = some blk) (t : Terminator) (q : BlockId) :
    (f.modifyBlock b (MirBlock.setTerm t)).succsOf q = if q = b then t.succs else f.succsOf q := by
  unfold MirFunc.succsOf
  rw [MirFunc.block?_modifyBlock]
  by_cases h : b = q
  · subst h
    simp [hb, MirBlock.succs, MirBlock.setTerm]
  · simp [h, Ne.symm h]

theorem phisOf_modifyBlock_setTerm (f : MirFunc) (b : BlockId) (t : Terminator) (q : BlockId) :
    (f.modifyBlock b (MirBlock.setTerm t)).phisOf q = f.phisOf q := by
  unfold MirFunc.phisOf
  rw [MirFunc.block?_modifyBlock]
  split
  · cases f.block? q <;> rfl
  · rfl

theorem phisOf_eq_nil {f : MirFunc} {b : BlockId} {blk : MirBlock} (hb : f.block? b = some blk)
    (h : blk.insts = []) : f.phisOf b = [] := by
  rw [MirFunc.phisOf_eq hb, MirBlock.phis, h]
  rfl

theorem Tidied.tidyArms {f : MirFunc} (hf : Tidied f) (i : BlockId) : Tidied (tidyArms f i) := by
  unfold Mir.tidyArms
  split
  swap
  · exact hf
  rename_i cond t n hbr
  split
  swap
  · exact hf
  rename_i hcond
  obtain ⟨-, -, hn, -⟩ := hcond
  obtain ⟨-, nb, hnb, hnempty⟩ := MirFunc.isEmptyBlock_iff.1 hn
  obtain ⟨bi, hbi, hterm⟩ := Option.bind_eq_some_iff.1 hbr
  refine ⟨fun {x blk} hx ↦ ?_, fun {c d ty args} hphi a ha ↦ ?_⟩
  · rw [MirFunc.block?_modifyBlock] at hx
    split at hx
    · obtain ⟨q, hq, rfl⟩ := Option.map_eq_some_iff.1 hx
      have hid : q.id = x := hf.id hq
      exact hid
    · exact hf.id hx
  · rw [phisOf_modifyBlock_setTerm] at hphi
    have hedge := hf.phiEdge hphi a ha
    rw [succsOf_modifyBlock_setTerm hbi]
    split
    · -- the edge that goes is into the empty arm, which has no φs
      rename_i hai
      rw [hai, MirFunc.succsOf_eq hbi, MirBlock.succs, hterm] at hedge
      have hc : c ≠ n := by
        rintro rfl
        rw [phisOf_eq_nil hnb hnempty] at hphi
        cases hphi
      simpa [Terminator.succs, hc] using hedge
    · exact hedge

theorem TrapTyped.tidyArms {f : MirFunc} (hf : TrapTyped f) (i : BlockId) :
    TrapTyped (tidyArms f i) := by
  unfold Mir.tidyArms
  split
  swap
  · exact hf
  split
  swap
  · exact hf
  refine hf.of_phiMap rfl fun x b' hb' ↦ ?_
  rw [MirFunc.block?_modifyBlock] at hb'
  split at hb'
  · obtain ⟨q, hq, rfl⟩ := Option.map_eq_some_iff.1 hb'
    exact ⟨x, q, id, hq, phiMap_id, (List.map_id _).symm⟩
  · exact ⟨x, b', id, hb', phiMap_id, (List.map_id _).symm⟩

end CoilLang.Mir
