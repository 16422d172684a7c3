import CoilLang.Lib.ParallelMove
import CoilLang.Mir.Func

/-!
# φs as register moves

On the edge from `pred` to `succ` each φ of `succ` copies the register of its incoming into its own,
all φs at once. `resolveParallel` puts the copies in an order: a copy whose destination is not read
any more goes first, and when there is none, **a cycle is opened by saving one destination in the
scratch register**. One scratch register serves every cycle (`resolveParallel_parallel`): while a copy
still reads it some copy is free, so the cycle it was used for is drained before it is written again.
-/

namespace CoilLang.Mir.EmitCommon

open Parallel

/-! ### The sequence -/

/-- The first move whose destination no move reads. -/
def freeMove (moves : List (UInt8 × UInt8)) : Option ℕ :=
  moves.findIdx? fun a ↦ !moves.any fun b ↦ b.2 = a.1

theorem lt_of_freeMove {moves : List (UInt8 × UInt8)} {i : ℕ} (h : freeMove moves = some i) :
    i < moves.length :=
  (List.findIdx?_eq_some_iff_getElem.1 h).1

theorem notMem_of_freeMove {moves : List (UInt8 × UInt8)} {i : ℕ} (h : freeMove moves = some i)
    (hi : i < moves.length) : moves[i].1 ∉ moves.map Prod.snd := by
  intro hm
  obtain ⟨b, hb, he⟩ := List.mem_map.1 hm
  have hp := (List.findIdx?_eq_some_iff_getElem.1 h).2.1
  rw [Bool.not_eq_true', List.any_eq_false] at hp
  exact hp b hb (decide_eq_true he)

theorem mem_of_freeMove_eq_none {moves : List (UInt8 × UInt8)} (h : freeMove moves = none) :
    ∀ a ∈ moves, a.1 ∈ moves.map Prod.snd := by
  intro a ha
  have hp := List.findIdx?_eq_none_iff.1 h a ha
  rw [Bool.not_eq_false', List.any_eq_true] at hp
  obtain ⟨b, hb, he⟩ := hp
  exact List.mem_map.2 ⟨b, hb, of_decide_eq_true he⟩

/-- Sequentialize parallel copies with one scratch (cycle break). -/
def resolveParallel (moves : List (UInt8 × UInt8)) (scratch : UInt8) : List (UInt8 × UInt8) :=
  match moves with
  | [] => []
  | m :: rest =>
    match h : freeMove (m :: rest) with
    | some i =>
      have hi : i < (m :: rest).length := lt_of_freeMove h
      (m :: rest)[i] :: resolveParallel ((m :: rest).eraseIdx i) scratch
    | none =>
      (scratch, m.1) :: m :: resolveParallel (reroute scratch m.1 rest) scratch
termination_by moves.length
decreasing_by
  · rw [List.length_eraseIdx_of_lt hi]
    simp
  · simp

/-- The φs at the head of a block. -/
def headPhis (f : MirFunc) (b : BlockId) : List MirInst :=
  (((f.block? b).map MirBlock.insts).getD []).takeWhile MirInst.isPhi

/-- The register move of one φ, unless its incoming is in the register already. -/
def phiMove (pred : BlockId) (regs : ValueId → UInt8) : MirInst → Option (UInt8 × UInt8)
  | .phi dest _ args =>
    match args.find? (·.1 = pred) with
    | some a => if regs dest ≠ regs a.2 then some (regs dest, regs a.2) else none
    | none => none
  | _ => none

/-- The register moves the φs of `succ` need on the edge from `pred`, sequentialized with
`scratch`. -/
def phiMoves (f : MirFunc) (pred succ : BlockId) (regs : ValueId → UInt8) (scratch : UInt8) :
    List (UInt8 × UInt8) :=
  resolveParallel ((headPhis f succ).filterMap (phiMove pred regs)) scratch

/-! ### What the sequence does -/

variable {V : Type*}

theorem resolveParallel_parallel (moves : List (UInt8 × UInt8)) (scratch : UInt8)
    (hd : (moves.map Prod.fst).Nodup) (hs : scratch ∉ moves.map Prod.fst) (ρ : UInt8 → V) :
    Parallel scratch moves ρ (runMoves (resolveParallel moves scratch) ρ) := by
  induction moves using resolveParallel.induct scratch generalizing ρ with
  | case1 =>
    rw [resolveParallel]
    exact .nil
  | case2 m rest i h hi ih =>
    have hp : ((m :: rest)[i] :: (m :: rest).eraseIdx i).Perm (m :: rest) :=
      List.getElem_cons_eraseIdx_perm hi
    have hd' := (hp.map Prod.fst).nodup_iff.2 hd
    rw [List.map_cons, List.nodup_cons] at hd'
    have hs' : scratch ∉ ((m :: rest)[i] :: (m :: rest).eraseIdx i).map Prod.fst := fun hm ↦
      hs ((hp.map Prod.fst).mem_iff.1 hm)
    rw [List.map_cons, List.mem_cons, not_or] at hs'
    have hfree : (m :: rest)[i].1 ∉ ((m :: rest).eraseIdx i).map Prod.snd := fun hm ↦
      notMem_of_freeMove h hi ((hp.map Prod.snd).mem_iff.1 (List.mem_cons_of_mem _ hm))
    have hrun : resolveParallel (m :: rest) scratch =
        (m :: rest)[i] :: resolveParallel ((m :: rest).eraseIdx i) scratch := by
      rw [resolveParallel]
      split
      · rename_i j hj
        cases h.symm.trans hj
        rfl
      · rename_i hj
        cases h.symm.trans hj
    rw [hrun]
    exact (Parallel.free hfree hd'.1 (Ne.symm hs'.1) (ih hd'.2 hs'.2 _)).perm hp.symm
  | case3 m rest h ih =>
    -- every destination is read, so the sources are the destinations and not the scratch
    have hsrc : scratch ∉ (m :: rest).map Prod.snd := fun hm ↦
      hs ((sources_perm hd (mem_of_freeMove_eq_none h)).mem_iff.2 hm)
    rw [List.map_cons, List.nodup_cons] at hd
    rw [List.map_cons, List.mem_cons, not_or] at hs
    have hrun : resolveParallel (m :: rest) scratch =
        (scratch, m.1) :: m :: resolveParallel (reroute scratch m.1 rest) scratch := by
      rw [resolveParallel]
      split
      · rename_i j hj
        cases h.symm.trans hj
      · rfl
    rw [hrun]
    refine .cut hsrc hd.1 (Ne.symm hs.1) (ih ?_ ?_ _)
    · rw [map_fst_reroute]
      exact hd.2
    · rw [map_fst_reroute]
      exact hs.2

/-- **Parallel copies in sequence.** With distinct destinations and a scratch register apart from
them, running the sequence gives every destination the value its source had before, and changes no
other register than the scratch. -/
theorem resolveParallel_spec (moves : List (UInt8 × UInt8)) (scratch : UInt8)
    (hd : (moves.map Prod.fst).Nodup) (hs : scratch ∉ moves.map Prod.fst) (ρ : UInt8 → V) :
    (∀ m ∈ moves, runMoves (resolveParallel moves scratch) ρ m.1 = ρ m.2) ∧
      ∀ r, r ∉ moves.map Prod.fst → r ≠ scratch →
        runMoves (resolveParallel moves scratch) ρ r = ρ r :=
  have h := resolveParallel_parallel moves scratch hd hs ρ
  ⟨h.moved, h.kept⟩

/-- Two cycles, a value read twice, and a move onto itself. -/
theorem resolveParallel_cycles :
    let moves : List (UInt8 × UInt8) := [(1, 2), (2, 1), (3, 4), (4, 3), (5, 1), (6, 6)]
    (∀ m ∈ moves, runMoves (resolveParallel moves 0) (fun r ↦ r) m.1 = m.2) ∧
      ∀ r, r ∉ moves.map Prod.fst → r ≠ 0 →
        runMoves (resolveParallel moves 0) (fun r ↦ r) r = r :=
  resolveParallel_spec _ 0 (by decide) (by decide) fun r ↦ r

/-! ### The φs of an edge -/

theorem fst_of_phiMove {pred : BlockId} {regs : ValueId → UInt8} {i : MirInst}
    {m : UInt8 × UInt8} (h : phiMove pred regs i = some m) : m.1 = regs i.dest := by
  unfold phiMove at h
  split at h <;> try contradiction
  split at h <;> try contradiction
  split at h <;> try contradiction
  cases h
  rfl

/-- Every move writes the register of a φ, in the order of the φs. -/
theorem sublist_phiMove (pred : BlockId) (regs : ValueId → UInt8) (phis : List MirInst) :
    List.Sublist ((phis.filterMap (phiMove pred regs)).map Prod.fst)
      (phis.map fun i ↦ regs i.dest) := by
  induction phis with
  | nil => exact List.Sublist.slnil
  | cons i phis ih =>
    cases h : phiMove pred regs i with
    | none =>
      rw [List.filterMap_cons_none h]
      exact ih.cons _
    | some m =>
      rw [List.filterMap_cons_some h, List.map_cons, List.map_cons, fst_of_phiMove h]
      exact ih.cons_cons _

/-- **The moves of an edge perform its φs at once**, when the φs have a register each and none of them
is the scratch register. -/
theorem phiMoves_spec (f : MirFunc) (pred succ : BlockId) (regs : ValueId → UInt8) (scratch : UInt8)
    (hd : ((headPhis f succ).map fun i ↦ regs i.dest).Nodup)
    (hs : scratch ∉ (headPhis f succ).map fun i ↦ regs i.dest) (ρ : UInt8 → V)
    {dest : ValueId} {ty : MirTy} {args : List (BlockId × ValueId)} {a : BlockId × ValueId}
    (hphi : .phi dest ty args ∈ headPhis f succ) (ha : args.find? (·.1 = pred) = some a) :
    runMoves (phiMoves f pred succ regs scratch) ρ (regs dest) = ρ (regs a.2) := by
  have hsub := sublist_phiMove pred regs (headPhis f succ)
  have hpar := resolveParallel_parallel _ scratch (hsub.nodup hd) (fun hm ↦ hs (hsub.mem hm)) ρ
  by_cases he : regs dest = regs a.2
  · -- no move: another φ does not write this register either
    rw [← he]
    have hmem : regs dest ∈ (headPhis f succ).map fun i ↦ regs i.dest :=
      List.mem_map.2 ⟨_, hphi, rfl⟩
    refine hpar.kept _ (fun hm ↦ ?_) fun hsc ↦ hs (hsc ▸ hmem)
    obtain ⟨m, hm, hfst⟩ := List.mem_map.1 hm
    obtain ⟨i, hi, him⟩ := List.mem_filterMap.1 hm
    have hi' := List.inj_on_of_nodup_map hd hi hphi ((fst_of_phiMove him).symm.trans hfst)
    subst hi'
    simp [phiMove, ha, he] at him
  · refine hpar.moved (regs dest, regs a.2) (List.mem_filterMap.2 ⟨_, hphi, ?_⟩)
    simp [phiMove, ha, he]

end CoilLang.Mir.EmitCommon
