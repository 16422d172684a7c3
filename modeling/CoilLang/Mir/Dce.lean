import CoilLang.Lib.Loop
import CoilLang.Mir.Run
import Mathlib.Data.List.Find

/-!
# Dead code elimination

An instruction stays when its value is live, when it is an effect barrier, or when it may trap: an
operation that can panic runs for its trap even when its value is dead. The live values are the
least set that has the operands of the terminators and of the instructions that stay; a φ is live
only through a live use.

`dce_preserves` is the whole contract: the loop ends, and the runs are the same. The two functions
run block by block together, with **the same words in the live values**; an instruction that goes
changes no live value, and it neither traps nor has an effect (`evalInst_of_dead`), for which the
trapping arithmetic has to be on `i64` as verification checks (`TrapTyped`).
-/

namespace CoilLang.Mir

namespace MirFunc

/-- Int arithmetic or negation, or a checked index: an operation that can panic. -/
def mayTrap (f : MirFunc) : MirInst → Bool
  | .bin _ op ty _ _ =>
    ty = .i64 ∧ (op = .add ∨ op = .sub ∨ op = .mul ∨ op = .div ∨ op = .rem ∨ op = .pow ∨ op = .shl ∨
      op = .shr)
  | .unary _ .neg src => f.ty src = .i64
  | .op _ k _ => k.mayTrap
  | _ => false

def insts (f : MirFunc) : List MirInst := f.blocks.flatMap MirBlock.insts

/-- The results of the operations that can panic. -/
def traps (f : MirFunc) : List ValueId := (f.insts.filter f.mayTrap).map MirInst.dest

/-- The values the terminators read. -/
def termUses (f : MirFunc) : List ValueId :=
  f.blocks.flatMap fun b ↦ (b.term.map Terminator.operands).getD []

end MirFunc

/-- The instruction runs: its operands are live. -/
def needed (traps live : List ValueId) (i : MirInst) : Bool :=
  i.dest ∈ live ∨ i.isEffectBarrier ∨ i.dest ∈ traps

/-- Add a live value; the flag says whether one was new. -/
def markLive (st : List ValueId × Bool) (o : ValueId) : List ValueId × Bool :=
  if o ∈ st.1 then st else (o :: st.1, true)

def markInst (traps : List ValueId) (st : List ValueId × Bool) (i : MirInst) :
    List ValueId × Bool :=
  if needed traps st.1 i then i.operands.foldl markLive st else st

def markBlock (traps : List ValueId) (st : List ValueId × Bool) (b : MirBlock) :
    List ValueId × Bool :=
  b.insts.reverse.foldl (markInst traps) st

/-- One round over all the blocks. -/
def markSweep (f : MirFunc) (live : List ValueId) : List ValueId × Bool :=
  f.blocks.foldl (markBlock f.traps) (live, false)

/-- A last match arm unpacks every payload word of its variant at once, so a live payload read keeps
the other reads of the same scrutinee in its block. -/
def unpacked (live : List ValueId) (b : MirBlock) (i : MirInst) : Bool :=
  match i with
  | .op _ (.matchPayload _) args =>
    b.insts.any fun j ↦
      match j with
      | .op d (.matchPayload _) args' => d ∈ live ∧ args' = args
      | _ => false
  | _ => false

def retained (traps live : List ValueId) (b : MirBlock) (i : MirInst) : Bool :=
  i.isEffectBarrier ∨ i.dest ∈ traps ∨ i.dest ∈ live ∨ unpacked live b i

def stripBlock (traps live : List ValueId) (b : MirBlock) : MirBlock :=
  { b with insts := b.insts.filter (retained traps live b) }

def strip (f : MirFunc) (live : List ValueId) : MirFunc :=
  { f with blocks := f.blocks.map (stripBlock f.traps live) }

def dce (fuel : ℕ) (f : MirFunc) : Option MirFunc :=
  (repeatUntil (markSweep f) fuel f.termUses).map (strip f)

/-! ### The live values -/

theorem markLive_unchanged {st : List ValueId × Bool} {o : ValueId}
    (h : (markLive st o).2 = false) : markLive st o = st := by
  unfold markLive at h ⊢
  split at h
  · rename_i ho
    exact if_pos ho
  · cases h

theorem markInst_unchanged {traps : List ValueId} {st : List ValueId × Bool} {i : MirInst}
    (h : (markInst traps st i).2 = false) : markInst traps st i = st := by
  unfold markInst at h ⊢
  split at h
  · rename_i hn
    rw [if_pos hn]
    exact (foldl_unchanged (fun _ _ ↦ markLive_unchanged) h).1
  · rename_i hn
    rw [if_neg hn]

theorem markBlock_unchanged {traps : List ValueId} {st : List ValueId × Bool} {b : MirBlock}
    (h : (markBlock traps st b).2 = false) : markBlock traps st b = st :=
  (foldl_unchanged (fun _ _ ↦ markInst_unchanged) h).1

/-- The operands of what stays are live. -/
def Closed (f : MirFunc) (live : List ValueId) : Prop :=
  ∀ b ∈ f.blocks, ∀ i ∈ b.insts, needed f.traps live i = true → ∀ o ∈ i.operands, o ∈ live

/-- A round without a change leaves a closed set. -/
theorem closed_of_unchanged {f : MirFunc} {live : List ValueId} (h : (markSweep f live).2 = false) :
    (markSweep f live).1 = live ∧ Closed f live := by
  obtain ⟨hfold, hblocks⟩ := foldl_unchanged (fun _ _ ↦ markBlock_unchanged) h
  refine ⟨by rw [markSweep, hfold], fun b hb i hi hn o ho ↦ ?_⟩
  have hb' : (markBlock f.traps (live, false) b).2 = false := by rw [hblocks b hb]
  have hi' := (foldl_unchanged (fun _ _ ↦ markInst_unchanged) hb').2 i (List.mem_reverse.2 hi)
  have hops : (i.operands.foldl markLive (live, false)).2 = false := by
    rw [markInst, if_pos hn] at hi'
    rw [hi']
  have ho' := (foldl_unchanged (fun _ _ ↦ markLive_unchanged) hops).2 o ho
  by_contra hnot
  simp [markLive, hnot] at ho'

/-- What a round can add, and that a change adds something. -/
structure Grows (f : MirFunc) (live : List ValueId) (st : List ValueId × Bool) : Prop where
  subset : ∀ v ∈ live, v ∈ st.1
  operand : ∀ v ∈ st.1, v ∈ live ∨ v ∈ f.insts.flatMap MirInst.operands
  new : st.2 = true → ∃ v ∈ st.1, v ∉ live

theorem Grows.markLive {f : MirFunc} {live : List ValueId} {st : List ValueId × Bool}
    (h : Grows f live st) {o : ValueId} (ho : o ∈ f.insts.flatMap MirInst.operands) :
    Grows f live (markLive st o) := by
  unfold Mir.markLive
  split
  · exact h
  · rename_i hnot
    refine ⟨fun v hv ↦ List.mem_cons_of_mem _ (h.subset v hv), fun v hv ↦ ?_, fun _ ↦ ?_⟩
    · rcases List.mem_cons.1 hv with rfl | hv
      · exact .inr ho
      · exact h.operand v hv
    · exact ⟨o, List.mem_cons_self, fun hl ↦ hnot (h.subset o hl)⟩

theorem markSweep_grows (f : MirFunc) (live : List ValueId) : Grows f live (markSweep f live) := by
  refine List.foldlRecOn f.blocks _ ⟨fun _ hv ↦ hv, fun _ hv ↦ .inl hv, fun h ↦ by cases h⟩ ?_
  intro st hst b hb
  refine List.foldlRecOn b.insts.reverse _ hst fun st hst i hi ↦ ?_
  unfold markInst
  split
  · refine List.foldlRecOn i.operands _ hst fun st hst o ho ↦ hst.markLive ?_
    exact List.mem_flatMap.2 ⟨i, List.mem_flatMap.2 ⟨b, hb, List.mem_reverse.1 hi⟩, ho⟩
  · exact hst

/-- The operands not yet live. -/
def dead (f : MirFunc) (live : List ValueId) : ℕ :=
  ((f.insts.flatMap MirInst.operands).toFinset.filter (· ∉ live)).card

theorem dead_markSweep_lt {f : MirFunc} {live : List ValueId} (h : (markSweep f live).2 = true) :
    dead f (markSweep f live).1 < dead f live := by
  have hg := markSweep_grows f live
  obtain ⟨v, hv, hnot⟩ := hg.new h
  refine Finset.card_lt_card (Finset.ssubset_iff_of_subset ?_ |>.2 ⟨v, ?_, ?_⟩)
  · intro u hu
    simp only [Finset.mem_filter] at hu ⊢
    exact ⟨hu.1, fun hl ↦ hu.2 (hg.subset u hl)⟩
  · simp only [Finset.mem_filter, List.mem_toFinset]
    exact ⟨(hg.operand v hv).resolve_left hnot, hnot⟩
  · simp [hv]

/-- **The loop ends** with a closed set that has the operands of the terminators. -/
theorem exists_live (f : MirFunc) : ∃ live, (∀ v ∈ f.termUses, v ∈ live) ∧ Closed f live ∧
    ∀ fuel, dead f f.termUses < fuel →
      repeatUntil (markSweep f) fuel f.termUses = some live := by
  have hI : ∀ live, (∀ v ∈ f.termUses, v ∈ live) → ∀ v ∈ f.termUses, v ∈ (markSweep f live).1 :=
    fun live h v hv ↦ (markSweep_grows f live).subset v (h v hv)
  obtain ⟨live, hlive⟩ := repeatUntil_terminates hI (dead f) (fun _ _ ↦ dead_markSweep_lt)
    (fun _ hv ↦ hv) (Nat.lt_succ_self (dead f f.termUses))
  obtain ⟨live', huses, hflag, hres⟩ := repeatUntil_spec hI (fun _ hv ↦ hv) hlive
  obtain ⟨heq, hclosed⟩ := closed_of_unchanged hflag
  obtain rfl : live' = live := heq.symm.trans hres
  exact ⟨live', huses, hclosed, fun fuel hfuel ↦ repeatUntil_mono hfuel hlive⟩

/-! ### What goes neither traps nor has an effect -/

/-- Arithmetic that can trap is marked as such by its type. -/
def MirFunc.TrapTypedInst (f : MirFunc) : MirInst → Prop
  | .bin _ op ty _ _ => ty = .i64 ∨ op = .bitAnd ∨ op = .bitOr ∨ op = .xor
  | .unary _ .neg src => f.ty src = .i64
  | _ => True

def TrapTyped (f : MirFunc) : Prop := ∀ b ∈ f.blocks, ∀ i ∈ b.insts, f.TrapTypedInst i

theorem WellFormed.trapTyped {f : MirFunc} (hf : WellFormed f) : TrapTyped f := by
  intro b hb i hi
  cases i with
  | bin d op ty l r =>
    by_cases hty : ty = .i64
    · exact .inl hty
    · exact .inr (hf.bin_bitwise hb hi hty)
  | unary d op src =>
    cases op with
    | neg => exact hf.neg_i64 hb hi
    | not => trivial
  | _ => trivial

theorem evalInst_of_dead {σ π : Type} {f : MirFunc} {i : MirInst} (hphi : i.isPhi = false)
    (hbar : i.isEffectBarrier = false) (htrap : f.mayTrap i = false) (hty : f.TrapTypedInst i)
    (W : World σ π) (env : Env) (w : σ) (t : List Event) :
    ∃ r, evalInst W i env w t = .ok (r, w, t) := by
  cases i with
  | phi => cases hphi
  | const | cmp | cast => exact ⟨_, rfl⟩
  | bin d op ty l r =>
    have hbit : op = .bitAnd ∨ op = .bitOr ∨ op = .xor := by
      rcases hty with rfl | h
      · cases op <;> simp_all [MirFunc.mayTrap]
      · exact h
    rcases hbit with rfl | rfl | rfl <;> exact ⟨_, rfl⟩
  | unary d op src =>
    cases op with
    | neg => simp_all [MirFunc.mayTrap, MirFunc.TrapTypedInst]
    | not => exact ⟨_, rfl⟩
  | op d k args =>
    have hbar' : k.isEffectBarrier = false := hbar
    have htrap' : k.mayTrap = false := htrap
    exact ⟨W.read k (args.map env) w, by simp [evalInst, execOp, hbar', htrap']⟩

theorem hi_of_dead {i : MirInst} (hbar : i.isEffectBarrier = false) : i.hi = none := by
  cases i with
  | op d k args => exact MirOp.hi_eq_none_of_not_isEffectBarrier hbar
  | _ => rfl

/-! ### The same runs -/

section
variable {σ π : Type} {f : MirFunc} {live : List ValueId}

/-- The same memory but for values that are not live. -/
structure LiveEq (live : List ValueId) (m m' : Mem σ) : Prop where
  world : m.world = m'.world
  trace : m.trace = m'.trace
  env : ∀ v ∈ live, m.env v = m'.env v

theorem needed_of_retained {traps : List ValueId} {b : MirBlock} {i : MirInst}
    (hi : retained traps live b i = true) (hu : unpacked live b i = false) :
    needed traps live i = true := by
  simp only [retained, needed, hu, Bool.false_eq_true, or_false, decide_eq_true_eq] at hi ⊢
  tauto

/-- The operands of a retained instruction are live. -/
theorem operands_live (hcl : Closed f live) {b : MirBlock} (hb : b ∈ f.blocks) {i : MirInst}
    (hi : i ∈ b.insts) (hr : retained f.traps live b i = true) : ∀ o ∈ i.operands, o ∈ live := by
  cases hu : unpacked live b i with
  | false => exact hcl b hb i hi (needed_of_retained hr hu)
  | true =>
    -- another read of the same scrutinee is live
    unfold unpacked at hu
    split at hu
    · obtain ⟨j, hj, hju⟩ := List.any_eq_true.1 hu
      split at hju
      · simp only [decide_eq_true_eq] at hju
        obtain ⟨hd, rfl⟩ := hju
        have hops := hcl b hb _ hj (by simp only [needed, MirInst.dest, hd, true_or, decide_true])
        exact hops
      · cases hju
    · cases hu

theorem execBody_filter (hcl : Closed f live) (hty : TrapTyped f) {b : MirBlock}
    (hb : b ∈ f.blocks) (W : World σ π) {is : List MirInst} (his : ∀ i ∈ is, i ∈ b.insts)
    (hphi : ∀ i ∈ is, i.isPhi = false) {m m' : Mem σ} (hm : LiveEq live m m') :
    ResRel (LiveEq live) (execBody W is m) (execBody W (is.filter (retained f.traps live b)) m') := by
  induction is generalizing m m' with
  | nil => exact hm
  | cons i is ih =>
    have hi := his i List.mem_cons_self
    have ih' : ∀ {n n' : Mem σ}, LiveEq live n n' → ResRel (LiveEq live) (execBody W is n)
        (execBody W (is.filter (retained f.traps live b)) n') := fun hn ↦
      ih (fun j hj ↦ his j (List.mem_cons_of_mem _ hj)) (fun j hj ↦ hphi j (List.mem_cons_of_mem _ hj)) hn
    cases hr : retained f.traps live b i with
    | true =>
      -- a retained instruction reads live values only, and gives the same words
      rw [List.filter_cons_of_pos hr]
      have heval : evalInst W i m'.env m'.world m'.trace = evalInst W i m.env m.world m.trace := by
        rw [← hm.world, ← hm.trace]
        exact evalInst_congr fun v hv ↦ (hm.env v (operands_live hcl hb hi hr v hv)).symm
      simp only [execBody, execInst, heval]
      cases hev : evalInst W i m.env m.world m.trace with
      | error r => rfl
      | ok p =>
        refine ih' ⟨rfl, rfl, fun v hv ↦ ?_⟩
        by_cases hd : v ∈ i.dests
        · exact Env.write_of_mem hd
        · show m.env.write i.dest i.hi p.1 v = m'.env.write i.dest i.hi p.1 v
          rw [Env.write_of_notMem hd, Env.write_of_notMem hd]
          exact hm.env v hv
    | false =>
      rw [List.filter_cons_of_neg (by simp [hr])]
      simp only [retained, decide_eq_false_iff_not, not_or] at hr
      obtain ⟨hbar, htrap, hdead, -⟩ := hr
      have hbar' : i.isEffectBarrier = false := by simpa using hbar
      have htrap' : f.mayTrap i = false := by
        by_contra ht
        refine htrap (List.mem_map.2 ⟨i, List.mem_filter.2 ⟨?_, by simpa using ht⟩, rfl⟩)
        exact List.mem_flatMap.2 ⟨b, hb, hi⟩
      obtain ⟨r, hev⟩ := evalInst_of_dead (hphi i List.mem_cons_self) hbar' htrap' (hty b hb i hi)
        W m.env m.world m.trace
      simp only [execBody, execInst, hev]
      refine ih' ⟨hm.world, hm.trace, fun v hv ↦ ?_⟩
      have hne : v ≠ i.dest := fun h ↦ hdead (h ▸ hv)
      show m.env.write i.dest i.hi r v = m'.env v
      rw [Env.write_single (hi_of_dead hbar'), Function.update_of_ne hne]
      exact hm.env v hv

theorem ready_filter {pred : Option BlockId} {phis : List MirInst} {p : MirInst → Bool}
    (h : ready pred phis = true) : ready pred (phis.filter p) = true := by
  simp only [ready, List.all_eq_true] at h ⊢
  exact fun i hi ↦ h i (List.mem_filter.1 hi).1

/-- The φs that stay set the live values among theirs to the same words. -/
theorem enter_filter {pred : Option BlockId} {phis : List MirInst} {p : MirInst → Bool}
    {env env' : Env} (henv : ∀ v ∈ live, env v = env' v) (hp : ∀ i ∈ phis, i.dest ∈ live → p i = true)
    (hops : ∀ i ∈ phis, p i = true → ∀ o ∈ i.operands, o ∈ live) {v : ValueId} (hv : v ∈ live) :
    enter pred phis env v = enter pred (phis.filter p) env' v := by
  have hfind : (phis.filter p).find? (·.dest = v) = phis.find? (·.dest = v) := by
    rw [List.find?_filter]
    refine List.find?_congr fun i hi ↦ ?_
    by_cases hd : i.dest = v
    · simp [hd, hp i hi (hd ▸ hv)]
    · simp [hd]
  unfold enter
  rw [hfind]
  cases hf : phis.find? (·.dest = v) with
  | none => exact henv v hv
  | some i =>
    have hi := List.mem_of_find?_eq_some hf
    have hd : i.dest = v := by simpa using List.find?_some hf
    cases ha : phiArg pred i with
    | none => simpa [ha] using henv v hv
    | some a =>
      have hmem : a ∈ i.operands := phiArg_mem_operands ha
      simpa [ha] using henv a (hops i hi (hp i hi (hd ▸ hv)) a hmem)

theorem termUses_live (huses : ∀ v ∈ f.termUses, v ∈ live) {b : MirBlock} (hb : b ∈ f.blocks)
    {t : Terminator} (ht : b.term = some t) : ∀ v ∈ t.operands, v ∈ live :=
  fun v hv ↦ huses v (List.mem_flatMap.2 ⟨b, hb, by simpa [ht] using hv⟩)

/-- The same place in the two functions with the same live values. -/
def LiveRel (live : List ValueId) (s t : State σ) : Prop :=
  s.block = t.block ∧ s.pred = t.pred ∧ LiveEq live s.mem t.mem

theorem execTerm_live {b : BlockId} {m m' : Mem σ} (hm : LiveEq live m m') {t : Option Terminator}
    (huses : ∀ t', t = some t' → ∀ v ∈ t'.operands, v ∈ live) :
    StepRel (LiveRel live) (execTerm (π := π) b m t) (execTerm b m' t) := by
  have hfin : ∀ o : Outcome π, m.finish o = m'.finish o :=
    fun o ↦ by rw [Mem.finish, Mem.finish, hm.world, hm.trace]
  rcases t with _ | d | ⟨c, t, n⟩ | ⟨lo, hi⟩ | _
  · exact hfin _
  · exact ⟨rfl, rfl, hm⟩
  · have hc : m.env c = m'.env c := hm.env c (huses _ rfl c (by simp [Terminator.operands]))
    exact ⟨by rw [hc], rfl, hm⟩
  · have hlo : lo.map m.env = lo.map m'.env :=
      Option.map_congr fun v hv ↦ hm.env v (huses _ rfl v (by simp [Terminator.operands, hv]))
    have hhi : hi.map m.env = hi.map m'.env :=
      Option.map_congr fun v hv ↦ hm.env v (huses _ rfl v (by simp [Terminator.operands, hv]))
    show m.finish _ = m'.finish _
    rw [hlo, hhi, hfin]
  · exact hfin _

/-- **Stripping the dead instructions preserves the runs.** -/
theorem strip_preserves (hcl : Closed f live) (huses : ∀ v ∈ f.termUses, v ∈ live)
    (hty : TrapTyped f) : Preserves f (strip f live) := by
  refine Preserves.of_lockstep fun σ π W env w ↦
    ⟨LiveRel live, ⟨rfl, rfl, rfl, rfl, fun _ _ ↦ rfl⟩, ?_⟩
  rintro s t ⟨hblock, hpred, hm⟩
  refine ⟨hm.trace, fun hsafe ↦ ?_⟩
  have hstrip : (strip f live).block? t.block =
      (f.block? s.block).map (stripBlock f.traps live) := by
    rw [hblock]
    exact List.getElem?_map
  have hfin : s.mem.finish (π := π) .stuck = t.mem.finish .stuck := by
    rw [Mem.finish, Mem.finish, hm.world, hm.trace]
  unfold step at hsafe ⊢
  rw [hstrip]
  cases hb : f.block? s.block with
  | none => exact hfin
  | some b =>
    rw [hb] at hsafe
    have hmem : b ∈ f.blocks := List.mem_of_getElem? hb
    have hphis : (stripBlock f.traps live b).phis = b.phis.filter (retained f.traps live b) := by
      simp only [stripBlock, MirBlock.phis, List.filter_filter, Bool.and_comm]
    have hbody : (stripBlock f.traps live b).body = b.body.filter (retained f.traps live b) := by
      simp only [stripBlock, MirBlock.body, List.filter_filter, Bool.and_comm]
    have hready : ready s.pred b.phis = true := by
      by_contra hnot
      simp [execBlock, hnot, Mem.finish] at hsafe
    show StepRel _ (execBlock W b s) (execBlock W (stripBlock f.traps live b) t)
    rw [execBlock, execBlock, if_pos hready, hphis, hbody, ← hpred, if_pos (ready_filter hready),
      ← hblock]
    have hin : ∀ i ∈ b.phis, i ∈ b.insts := fun i hi ↦ (List.mem_filter.1 hi).1
    have henter : LiveEq live (Mem.mk (enter s.pred b.phis s.mem.env) s.mem.world s.mem.trace)
        ⟨enter s.pred (b.phis.filter (retained f.traps live b)) t.mem.env, t.mem.world,
          t.mem.trace⟩ := by
      refine ⟨hm.world, hm.trace, fun v hv ↦ enter_filter hm.env ?_ ?_ hv⟩
      · intro i _ hd
        simp [retained, hd]
      · exact fun i hi hr ↦ operands_live hcl hmem (hin i hi) hr
    have hbodyIn : ∀ i ∈ b.body, i ∈ b.insts := fun i hi ↦ (List.mem_filter.1 hi).1
    have hrun := execBody_filter hcl hty hmem W hbodyIn b.body_not_phi henter
    exact hrun.leave fun m m' hmm ↦ execTerm_live hmm fun t ht ↦ termUses_live huses hmem ht

end

/-- The loop ends, and what it leaves is stripped of the dead instructions. -/
theorem exists_dce (f : MirFunc) : ∃ live, (∀ v ∈ f.termUses, v ∈ live) ∧ Closed f live ∧
    ∀ fuel, dead f f.termUses < fuel → dce fuel f = some (strip f live) := by
  obtain ⟨live, huses, hcl, hloop⟩ := exists_live f
  refine ⟨live, huses, hcl, fun fuel hfuel ↦ ?_⟩
  rw [dce, hloop fuel hfuel]
  rfl

/-- **Dead code elimination ends and preserves the runs**: results, effects and traps. -/
theorem dce_preserves {f : MirFunc} (hty : TrapTyped f) :
    ∃ n g, (∀ fuel, n ≤ fuel → dce fuel f = some g) ∧ Preserves f g := by
  obtain ⟨live, huses, hcl, hdce⟩ := exists_dce f
  exact ⟨dead f f.termUses + 1, strip f live, hdce, strip_preserves hcl huses hty⟩

end CoilLang.Mir
