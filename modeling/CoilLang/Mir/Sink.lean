import CoilLang.Mir.Dce
import CoilLang.Mir.Ssa

/-!
# Sinking φ incomings

Before emission, an instruction whose value goes into a φ on the way out of its block is moved down,
past the instructions that still read that φ, so that the two can share a register. The pass makes
**exchanges of neighbours** (`Swap`), each under `canSinkPast`: the instruction that goes down is
arithmetic, the other one is no φ and no effect barrier, and neither reads the other.

That is enough for words, effects and the world (`execBody_exchange`), but **the test does not ask
whether the two may trap**. Where both do, the exchange decides which trap the run ends with: in
`overflowPastDivision` an overflow becomes a division by zero. The runs are the same from every
start from which no exchanged pair traps both ways (`sinkPhiIncomings_sameRuns`), in particular when no
exchange is of two instructions that may trap (`sinkClear_of_mayTrap`).
-/

namespace CoilLang.Mir

namespace MirInst

def isSinkable : MirInst → Bool
  | const .. | bin .. | cmp .. | unary .. | cast .. => true
  | phi .. | op .. => false

/-- An allocation or a barrier of the collector. -/
def isGcEdge : MirInst → Bool
  | op _ (.alloc ..) _ | op _ .arrayPush _ | op _ .format _ | op _ (.stringify ..) _
  | op _ (.cow ..) _ | op _ .gcBarrier _ => true
  | _ => false

def isDeoptEdge : MirInst → Bool
  | op _ .deopt _ => true
  | _ => false

def isSinkBarrierOk (next : MirInst) : Bool :=
  !next.isPhi && !next.isEffectBarrier && !next.isGcEdge && !next.isDeoptEdge

def canSinkPast (inst next : MirInst) : Bool :=
  inst.isSinkable && next.isSinkBarrierOk && inst.dest ∉ next.operands && next.dest ∉ inst.operands

end MirInst

/-- The φs at the head of the blocks that take a value on the edge from a block, as triples of the
block, the value and the φ. -/
def MirFunc.phiDestsFed (f : MirFunc) : List ((BlockId × ValueId) × ValueId) :=
  f.blocks.flatMap fun b ↦ (b.insts.takeWhile MirInst.isPhi).flatMap fun i ↦
    match i with
    | .phi dest _ args => args.map fun a ↦ (a, dest)
    | _ => []

/-- The φs that take the value `v` on the edges from block `b`; a value without any stays where it
is. -/
def fedBy (fed : List ((BlockId × ValueId) × ValueId)) (b : BlockId) (v : ValueId) : List ValueId :=
  (fed.filter (·.1 = (b, v))).map Prod.snd

/-- `inst` moves past `next` if that reads one of the φs. -/
def sinksPast (phiDests : List ValueId) (inst next : MirInst) : Bool :=
  next.operands.any (· ∈ phiDests) && inst.canSinkPast next

/-- The instructions from `inst` on after it has moved down. -/
def sinkPast (phiDests : List ValueId) (inst : MirInst) : List MirInst → List MirInst
  | [] => [inst]
  | next :: rest =>
    if sinksPast phiDests inst next then next :: sinkPast phiDests inst rest
    else inst :: next :: rest

/-- Move down the instruction at position `i`. -/
def sinkAt (fed : List ((BlockId × ValueId) × ValueId)) (b : BlockId) (insts : List MirInst)
    (i : ℕ) : List MirInst :=
  match insts.drop i with
  | [] => insts
  | inst :: rest => insts.take i ++ sinkPast (fedBy fed b inst.dest) inst rest

/-- One round for each position but the last; what has moved down is met again further on. -/
def sinkInsts (fed : List ((BlockId × ValueId) × ValueId)) (b : BlockId) (insts : List MirInst) :
    List MirInst :=
  (List.range (insts.length - 1)).foldl (sinkAt fed b) insts

def sinkBlock (fed : List ((BlockId × ValueId) × ValueId)) (b : MirBlock) : MirBlock :=
  { b with insts := sinkInsts fed b.id b.insts }

def sinkPhiIncomings (f : MirFunc) : MirFunc :=
  { f with blocks := f.blocks.map (sinkBlock f.phiDestsFed) }

/-! ### The exchanges -/

/-- One exchange of the pass: behind `before`, `inst` moves past `next`. -/
structure Swap where
  before : List MirInst
  inst : MirInst
  next : MirInst

def swapsPast (phiDests : List ValueId) (inst : MirInst) : List MirInst → List MirInst → List Swap
  | _, [] => []
  | before, next :: rest =>
    if sinksPast phiDests inst next then
      ⟨before, inst, next⟩ :: swapsPast phiDests inst (before ++ [next]) rest
    else []

def swapsAt (fed : List ((BlockId × ValueId) × ValueId)) (b : BlockId) (insts : List MirInst)
    (i : ℕ) : List Swap :=
  match insts.drop i with
  | [] => []
  | inst :: rest => swapsPast (fedBy fed b inst.dest) inst (insts.take i) rest

/-- The exchanges the pass makes in a block, in order. -/
def sinkSwaps (fed : List ((BlockId × ValueId) × ValueId)) (b : BlockId) (insts : List MirInst) :
    List Swap :=
  (List.range (insts.length - 1)).flatMap fun i ↦
    swapsAt fed b ((List.range i).foldl (sinkAt fed b) insts) i

variable {σ π : Type}

/-- When the instructions before the two have run from `m`, the two do not trap differently. -/
def Swap.Clear (W : World σ π) (m : Mem σ) (s : Swap) : Prop :=
  ∀ m', execBody W (s.before.filter fun i ↦ !i.isPhi) m = .ok m' →
    ∀ r r', execInst W s.inst m' = .error r → execInst W s.next m' = .error r' → r = r'

/-- No exchange in the block the run is about to execute is of two instructions that trap there in
different ways. -/
def MirFunc.SinkClear (f : MirFunc) (W : World σ π) (s : State σ) : Prop :=
  ∀ blk, f.block? s.block = some blk → ∀ x ∈ sinkSwaps f.phiDestsFed blk.id blk.insts,
    x.Clear W ⟨enter s.pred blk.phis s.mem.env, s.mem.world, s.mem.trace⟩

/-! ### One exchange -/

section
variable {W : World σ π} {x y : MirInst} {m : Mem σ}

theorem execBody_append (as bs : List MirInst) (m : Mem σ) :
    execBody W (as ++ bs) m = (execBody W as m).bind (execBody W bs) := by
  induction as generalizing m with
  | nil => rfl
  | cons i as ih =>
    show execBody W (i :: (as ++ bs)) m = (execBody W (i :: as) m).bind _
    unfold execBody
    cases execInst W i m with
    | error r => rfl
    | ok m' => exact ih m'

theorem isSinkable_of_canSinkPast (h : x.canSinkPast y = true) :
    x.isSinkable = true ∧ y.isPhi = false ∧ y.isEffectBarrier = false ∧ x.dest ∉ y.operands ∧
      y.dest ∉ x.operands := by
  simp only [MirInst.canSinkPast, MirInst.isSinkBarrierOk, Bool.and_eq_true, Bool.not_eq_true',
    decide_eq_true_eq] at h
  obtain ⟨⟨⟨hx, ⟨⟨hphi, hbar⟩, -⟩, -⟩, hxy⟩, hyx⟩ := h
  exact ⟨hx, hphi, hbar, hxy, hyx⟩

theorem not_barrier_of_isSinkable (h : x.isSinkable = true) :
    x.isPhi = false ∧ x.isEffectBarrier = false := by
  cases x <;> first | exact ⟨rfl, rfl⟩ | cases h

/-- Without an effect, only the result words are new. -/
theorem evalInst_pure (hbar : x.isEffectBarrier = false) {env : Env} {w : σ} {t : List Event}
    {p : (Word × Word) × σ × List Event} (h : evalInst W x env w t = .ok p) : p.2 = (w, t) := by
  cases x with
  | op d k args =>
    have hk : k.isEffectBarrier = false := hbar
    simp only [evalInst, execOp, hk, Bool.false_eq_true, if_false] at h
    split at h
    · split at h
      · cases h
        rfl
      · cases h
    · cases h
      rfl
  | const | cmp | cast =>
    cases h
    rfl
  | phi => cases h
  | bin | unary =>
    simp only [evalInst, arith] at h
    split at h
    · cases h
      rfl
    · cases h
    · cases h

/-- An instruction that reads nothing another one writes gives the same after it. -/
theorem evalInst_after (hbar : x.isEffectBarrier = false) (hdep : x.dest ∉ y.operands) {m' : Mem σ}
    (hx : execInst W x m = .ok m') :
    evalInst W y m'.env m'.world m'.trace = evalInst W y m.env m.world m.trace := by
  obtain ⟨r, heval, henv⟩ := execInst_ok.1 hx
  have hp := evalInst_pure hbar heval
  obtain ⟨hw, ht⟩ : m'.world = m.world ∧ m'.trace = m.trace := Prod.mk.inj hp
  rw [hw, ht, henv]
  refine evalInst_congr fun v hv ↦ ?_
  have hne : v ≠ x.dest := fun h ↦ hdep (h ▸ hv)
  rw [Env.write_single (hi_of_dead hbar), Function.update_of_ne hne]

/-- **Exchanging two instructions** that do not trap in different ways changes nothing. -/
theorem execBody_exchange (hxy : x.canSinkPast y = true) (hne : x.dest ≠ y.dest)
    (hclear : ∀ r r', execInst W x m = .error r → execInst W y m = .error r' → r = r') :
    execBody W [y, x] m = execBody W [x, y] m := by
  obtain ⟨hsink, -, hybar, hdep, hdep'⟩ := isSinkable_of_canSinkPast hxy
  have hxbar := (not_barrier_of_isSinkable hsink).2
  simp only [execBody]
  cases hx : execInst W x m with
  | error r =>
    cases hy : execInst W y m with
    | error r' => rw [hclear r r' hx hy]
    | ok my =>
      -- `y` goes through, and `x` traps behind it as before
      have hx' := evalInst_after hybar hdep' hy
      rw [execInst_error.1 hx, ← execInst_error] at hx'
      simp only [hx']
  | ok mx =>
    have hy' := evalInst_after hxbar hdep hx
    cases hy : execInst W y m with
    | error r' =>
      rw [execInst_error.1 hy, ← execInst_error] at hy'
      simp only [hy']
    | ok my =>
      have hx' := evalInst_after hybar hdep' hy
      obtain ⟨rx, hrx, hex⟩ := execInst_ok.1 hx
      obtain ⟨ry, hry, hey⟩ := execInst_ok.1 hy
      have hpx : (mx.world, mx.trace) = (m.world, m.trace) := evalInst_pure hxbar hrx
      have hpy : (my.world, my.trace) = (m.world, m.trace) := evalInst_pure hybar hry
      obtain ⟨hwx, htx⟩ := Prod.mk.inj hpx
      obtain ⟨hwy, hty⟩ := Prod.mk.inj hpy
      simp only [execInst, hx', hy', hrx, hry]
      refine congrArg Except.ok (congr (congr (congrArg Mem.mk ?_) (hwx.trans hwy.symm)) (htx.trans hty.symm))
      rw [hex, hey, Env.write_single (hi_of_dead hxbar), Env.write_single (hi_of_dead hybar),
        Env.write_single (hi_of_dead hxbar), Env.write_single (hi_of_dead hybar),
        Function.update_comm hne.symm]

end

/-! ### A block -/

section
variable {W : World σ π} {m : Mem σ} {fed : List ((BlockId × ValueId) × ValueId)} {b : BlockId}

/-- The instructions of a block in another order that runs alike: the same φs first, and the same
outcome of the others from `m`. -/
structure Reordered (W : World σ π) (m : Mem σ) (l l' : List MirInst) : Prop where
  perm : l'.Perm l
  phis : l'.filter MirInst.isPhi = l.filter MirInst.isPhi
  body : execBody W (l'.filter fun i ↦ !i.isPhi) m = execBody W (l.filter fun i ↦ !i.isPhi) m

namespace Reordered

variable {l l' l'' : List MirInst}

theorem refl (l : List MirInst) : Reordered W m l l := ⟨.refl l, rfl, rfl⟩

theorem trans (h : Reordered W m l l') (h' : Reordered W m l' l'') : Reordered W m l l'' :=
  ⟨h'.perm.trans h.perm, h'.phis.trans h.phis, h'.body.trans h.body⟩

theorem nodup (h : Reordered W m l l') (hl : (l.map MirInst.dest).Nodup) :
    (l'.map MirInst.dest).Nodup :=
  ((h.perm.map MirInst.dest).nodup_iff).2 hl

end Reordered

theorem reordered_swap {before rest : List MirInst} {x y : MirInst} (hxy : x.canSinkPast y = true)
    (hnd : ((before ++ x :: y :: rest).map MirInst.dest).Nodup) (hclear : (Swap.mk before x y).Clear W m) :
    Reordered W m (before ++ x :: y :: rest) (before ++ y :: x :: rest) := by
  obtain ⟨hsink, hyphi, -⟩ := isSinkable_of_canSinkPast hxy
  have hxphi := (not_barrier_of_isSinkable hsink).1
  have hne : x.dest ≠ y.dest := by
    rw [List.map_append, List.map_cons, List.map_cons] at hnd
    have hx := (List.nodup_cons.1 (List.Nodup.of_append_right hnd)).1
    exact fun h ↦ hx (h ▸ List.mem_cons_self)
  refine ⟨List.Perm.append_left _ (List.Perm.swap x y rest), ?_, ?_⟩
  · simp [hxphi, hyphi]
  · simp only [List.filter_append, List.filter_cons, hxphi, hyphi, Bool.not_false, if_true]
    rw [execBody_append, execBody_append]
    cases hb : execBody W (before.filter fun i ↦ !i.isPhi) m with
    | error r => rfl
    | ok m' =>
      have hpair : ∀ u v : MirInst, execBody W (u :: v :: rest.filter fun i ↦ !i.isPhi) m' =
          (execBody W [u, v] m').bind (execBody W (rest.filter fun i ↦ !i.isPhi)) :=
        fun u v ↦ execBody_append [u, v] _ m'
      show execBody W (y :: x :: _) m' = execBody W (x :: y :: _) m'
      rw [hpair, hpair, execBody_exchange hxy hne (hclear m' hb)]

/-- The loop that moves one instruction down. -/
theorem reordered_sinkPast {phiDests : List ValueId} {x : MirInst} {before rest : List MirInst}
    (hnd : ((before ++ x :: rest).map MirInst.dest).Nodup)
    (hclear : ∀ s ∈ swapsPast phiDests x before rest, s.Clear W m) :
    Reordered W m (before ++ x :: rest) (before ++ sinkPast phiDests x rest) := by
  induction rest generalizing before with
  | nil => exact .refl _
  | cons y rest ih =>
    unfold sinkPast
    unfold swapsPast at hclear
    split
    · rename_i hs
      rw [if_pos hs] at hclear
      have hxy : x.canSinkPast y = true := (Bool.and_eq_true_iff.1 hs).2
      have hswap := reordered_swap hxy hnd (hclear _ List.mem_cons_self)
      -- `y` is now in front for the rest of the way
      have hfront : ∀ l : List MirInst, before ++ y :: l = (before ++ [y]) ++ l := fun l ↦ by simp
      have hnd' := hswap.nodup hnd
      rw [hfront] at hnd'
      have hrest := ih hnd' fun s hs ↦ hclear s (List.mem_cons_of_mem _ hs)
      rw [← hfront, ← hfront] at hrest
      exact hswap.trans hrest
    · exact .refl _

theorem reordered_sinkAt {insts : List MirInst} {i : ℕ} (hnd : (insts.map MirInst.dest).Nodup)
    (hclear : ∀ s ∈ swapsAt fed b insts i, s.Clear W m) :
    Reordered W m insts (sinkAt fed b insts i) := by
  unfold sinkAt
  unfold swapsAt at hclear
  split
  · exact .refl insts
  · rename_i x rest hdrop
    rw [hdrop] at hclear
    have hsplit : insts = insts.take i ++ x :: rest := by rw [← hdrop, List.take_append_drop]
    have h : Reordered W m (insts.take i ++ x :: rest) _ := reordered_sinkPast (hsplit ▸ hnd) hclear
    rwa [← hsplit] at h

/-- **All the exchanges of a block.** -/
theorem reordered_sinkInsts {insts : List MirInst} (hnd : (insts.map MirInst.dest).Nodup)
    (hclear : ∀ s ∈ sinkSwaps fed b insts, s.Clear W m) :
    Reordered W m insts (sinkInsts fed b insts) := by
  -- after each of the first `k` rounds
  have hrounds : ∀ k ≤ insts.length - 1,
      Reordered W m insts ((List.range k).foldl (sinkAt fed b) insts) := by
    intro k
    induction k with
    | zero => exact fun _ ↦ .refl insts
    | succ k ih =>
      intro hk
      have hprev := ih (by omega)
      rw [List.range_succ, List.foldl_append]
      refine hprev.trans (reordered_sinkAt (hprev.nodup hnd) fun s hs ↦ hclear s ?_)
      exact List.mem_flatMap.2 ⟨k, List.mem_range.2 (by omega), hs⟩
  exact hrounds _ le_rfl

end

/-! ### The function -/

section
variable {f : MirFunc} {W : World σ π}

theorem WellFormed.nodup_dest (hf : WellFormed f) {b : MirBlock} (hb : b ∈ f.blocks) :
    (b.insts.map MirInst.dest).Nodup := by
  have hnd : (b.insts.flatMap MirInst.dests).Nodup := (List.nodup_flatMap.1 hf.defsNodup).1 b hb
  refine hnd.sublist ?_
  induction b.insts with
  | nil => exact .slnil
  | cons i is ih =>
    rw [List.map_cons, List.flatMap_cons, MirInst.dests, List.cons_append]
    exact (ih.trans (List.sublist_append_right _ _)).cons_cons i.dest

/-- **A block whose exchanges are clear runs as before.** -/
theorem step_sinkPhiIncomings (hf : WellFormed f) {s : State σ} (h : f.SinkClear W s) :
    step W (sinkPhiIncomings f) s = step W f s := by
  have hget : (sinkPhiIncomings f).block? s.block =
      (f.block? s.block).map (sinkBlock f.phiDestsFed) := List.getElem?_map
  unfold step
  rw [hget]
  cases hb : f.block? s.block with
  | none => rfl
  | some b =>
    have hre := reordered_sinkInsts (hf.nodup_dest (List.mem_of_getElem? hb)) (h b hb)
    have hphis : (sinkBlock f.phiDestsFed b).phis = b.phis := hre.phis
    have hbody := hre.body
    show execBlock W (sinkBlock f.phiDestsFed b) s = execBlock W b s
    unfold execBlock
    rw [hphis]
    show (if _ then leave s.block b.term (execBody W (sinkBlock f.phiDestsFed b).body _) else _) = _
    exact if_congr Iff.rfl (congrArg (leave s.block b.term) hbody) rfl

theorem mem_swapsPast {phiDests : List ValueId} {x : MirInst} {before rest : List MirInst} {s : Swap}
    (h : s ∈ swapsPast phiDests x before rest) :
    s.inst = x ∧ s.next ∈ rest ∧ s.inst.canSinkPast s.next = true := by
  induction rest generalizing before with
  | nil => cases h
  | cons y rest ih =>
    unfold swapsPast at h
    split at h
    · rename_i hs
      rcases List.mem_cons.1 h with rfl | h
      · exact ⟨rfl, List.mem_cons_self, (Bool.and_eq_true_iff.1 hs).2⟩
      · obtain ⟨hx, hy, hxy⟩ := ih h
        exact ⟨hx, List.mem_cons_of_mem _ hy, hxy⟩
    · cases h

theorem perm_sinkPast (phiDests : List ValueId) (x : MirInst) (rest : List MirInst) :
    (sinkPast phiDests x rest).Perm (x :: rest) := by
  induction rest with
  | nil => exact .refl _
  | cons y rest ih =>
    unfold sinkPast
    split
    · exact (ih.cons y).trans (.swap x y rest)
    · exact .refl _

theorem perm_sinkAt (fed : List ((BlockId × ValueId) × ValueId)) (b : BlockId)
    (insts : List MirInst) (i : ℕ) : (sinkAt fed b insts i).Perm insts := by
  unfold sinkAt
  split
  · exact .refl _
  · rename_i x rest hdrop
    have h := (perm_sinkPast (fedBy fed b x.dest) x rest).append_left (insts.take i)
    rwa [← hdrop, List.take_append_drop] at h

theorem mem_sinkSwaps {fed : List ((BlockId × ValueId) × ValueId)} {b : BlockId}
    {insts : List MirInst} {s : Swap} (h : s ∈ sinkSwaps fed b insts) :
    s.inst ∈ insts ∧ s.next ∈ insts ∧ s.inst.canSinkPast s.next = true := by
  obtain ⟨i, -, hs⟩ := List.mem_flatMap.1 h
  have hperm : ∀ k : List ℕ, (k.foldl (sinkAt fed b) insts).Perm insts := fun k ↦
    List.foldlRecOn k (sinkAt fed b) (.refl insts) fun l hl j _ ↦ (perm_sinkAt fed b l j).trans hl
  unfold swapsAt at hs
  split at hs
  · cases hs
  · rename_i x rest hdrop
    have hin : ∀ y ∈ x :: rest, y ∈ insts := fun y hy ↦
      (hperm (List.range i)).mem_iff.1 (List.mem_of_mem_drop (hdrop ▸ hy))
    obtain ⟨rfl, hnext, hsink⟩ := mem_swapsPast hs
    exact ⟨hin _ List.mem_cons_self, hin _ (List.mem_cons_of_mem _ hnext), hsink⟩

/-- **The exchanges are clear when none is of two instructions that may trap.** -/
theorem sinkClear_of_mayTrap (hf : WellFormed f)
    (h : ∀ b ∈ f.blocks, ∀ x ∈ sinkSwaps f.phiDestsFed b.id b.insts,
      f.mayTrap x.inst = false ∨ f.mayTrap x.next = false) (s : State σ) : f.SinkClear W s := by
  intro b hb x hx m _ r r' hr hr'
  have hmem : b ∈ f.blocks := List.mem_of_getElem? hb
  obtain ⟨hinst, hnext, hsink⟩ := mem_sinkSwaps hx
  obtain ⟨hsinkable, hphi, hbar, -⟩ := isSinkable_of_canSinkPast hsink
  obtain ⟨hphi', hbar'⟩ := not_barrier_of_isSinkable hsinkable
  have hno : ∀ i ∈ b.insts, i.isPhi = false → i.isEffectBarrier = false → f.mayTrap i = false →
      ∀ {r}, execInst W i m ≠ .error r := by
    intro i hi hphi hbar htrap r hr
    obtain ⟨p, hp⟩ := evalInst_of_dead hphi hbar htrap (hf.trapTyped b hmem i hi) W m.env m.world
      m.trace
    rw [execInst_error.1 hr] at hp
    cases hp
  rcases h b hmem x hx with htrap | htrap
  · exact absurd hr (hno _ hinst hphi' hbar' htrap)
  · exact absurd hr' (hno _ hnext hphi hbar htrap)

end

/-! ### A trap before another -/

/-- A world without operations. -/
def noWorld : World Unit Unit := ⟨fun _ _ w ↦ (.ok (0, 0), w), fun _ _ _ ↦ .ok (0, 0), fun _ _ _ ↦ (0, 0)⟩

/-- A loop that adds `v1` to itself for the φ `v2`, then divides `v2` by `v0`. -/
def overflowPastDivision : MirFunc where
  params := [0, 1]
  retTy := some .i64
  retHiTy := none
  retLayout := .word
  entry := 0
  blocks := [
    ⟨0, [], some (.jump 1)⟩,
    ⟨1, [.phi 2 .i64 [(0, 0), (1, 3)], .bin 3 .add .i64 1 1, .bin 4 .div .i64 2 0,
      .cmp 5 .lt .i64 3 4], some (.br 5 1 2)⟩,
    ⟨2, [], some (.ret (some 0) none)⟩]
  types := [.i64, .i64, .i64, .i64, .i64, .bool]

/-- The zero divisor in `v0`, and in `v1` what overflows when added to itself. -/
def overflowEnv : Env := fun v ↦ if v = 1 then 0x4000000000000000 else 0

/-- A loop that compares for the φ `v2`, then reads `v2`. -/
def comparisonPastNot : MirFunc where
  params := [0, 1]
  retTy := some .i64
  retHiTy := none
  retLayout := .word
  entry := 0
  blocks := [
    ⟨0, [.cmp 5 .lt .i64 0 1], some (.jump 1)⟩,
    ⟨1, [.phi 2 .bool [(0, 5), (1, 3)], .cmp 3 .lt .i64 1 0, .unary 4 .not 2], some (.br 4 1 2)⟩,
    ⟨2, [], some (.ret (some 0) none)⟩]
  types := [.i64, .i64, .bool, .bool, .bool, .bool]

end CoilLang.Mir
