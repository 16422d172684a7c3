import CoilLang.Mir.SccpSound

/-!
# Sparse conditional constant propagation preserves the runs

The pass is the folding, then tidying, then dead code elimination, so **it ends and preserves the runs** of
every verified function with no φ in its entry block (`sccp_correct`).

With a φ in the entry block it may not end. At the start such a φ has no incoming, and φs that read each other
around a loop through the entry stay unknown; each is then its one incoming, and following them does not end
(`entryLoop`).
-/

namespace CoilLang.Mir.Sccp

variable {f : MirFunc} {S : Solution} {r : ValueId → ValueId} {s : BlockId} {fuel : ℕ}

/-- An edge that runs stays an edge. -/
theorem mem_succs_foldTerm {t : Option Terminator} (hs : s ∈ liveSuccs S t) (r : ValueId → ValueId) :
    s ∈ (((foldTerm S t).map (Terminator.rewriteValues r)).map Terminator.succs).getD [] := by
  rcases t with _ | d | ⟨x, t, n⟩ | ⟨lo, hi⟩ | _
  any_goals exact hs
  unfold liveSuccs at hs
  dsimp only at hs
  unfold foldTerm
  dsimp only
  cases hget : S.get x with
  | top =>
    rw [hget] at hs
    cases hs
  | bottom =>
    rw [hget] at hs
    exact hs
  | const c =>
    rw [hget] at hs
    cases c with
    | i64 n => exact hs
    | bool k => exact hs

theorem id_folded (h : Solves f S) {b : BlockId} {blk : MirBlock} (hb : (folded f S r).block? b = some blk) :
    blk.id = b := by
  obtain ⟨c, hc, rfl⟩ := Option.map_eq_some_iff.1 (List.getElem?_map.symm.trans hb)
  have hid : c.id = b := h.acc.wf.id hc
  split <;> exact hid

theorem tidied_folded (h : Solves f S) : Tidied (folded f S r) := by
  refine ⟨fun hb ↦ id_folded h hb, fun {c d ty args} hi a ha ↦ ?_⟩
  cases hc : f.block? c with
  | none =>
    have hnone : (folded f S r).block? c = none := List.getElem?_map.trans (congrArg (Option.map _) hc)
    rw [MirFunc.phisOf, hnone] at hi
    cases hi
  | some blk =>
    by_cases hr : c ∈ S.reached
    swap
    · rw [MirFunc.phisOf_eq (block?_folded_of_notMem h hc hr)] at hi
      cases hi
    have hprune : ∀ i ∈ ((livePhis S c blk).prune (stays S) r).phis, i.isPhi = true := fun i hi ↦
      (List.mem_filter.1 hi).2
    rw [MirFunc.phisOf_eq (block?_folded h hc hr), (phis_body_of_append hprune (not_phi_folded S r blk)).1,
      MirBlock.prune_phis, phis_livePhis] at hi
    obtain ⟨j, hj, hji⟩ := List.mem_map.1 hi
    obtain ⟨k, hk, rfl⟩ := List.mem_map.1 (List.mem_filter.1 hj).1
    obtain ⟨args', hlive, rfl⟩ := MirInst.rewriteValues_eq_phi hji
    obtain ⟨a', ha', rfl⟩ := List.mem_map.1 ha
    -- the incomings kept are of edges that run
    have he : (a'.1, c) ∈ S.edges := by
      cases k with
      | phi d' ty' args₀ =>
        obtain ⟨-, -, rfl⟩ := MirInst.phi.inj hlive
        exact of_decide_eq_true (List.mem_filter.1 ha').2
      | _ => cases hlive
    obtain ⟨hp, -, blk', hb', hs⟩ := h.grown.edge he
    rw [MirFunc.succsOf_eq (block?_folded h hb' hp)]
    exact mem_succs_foldTerm hs r

theorem trapTyped_folded (hS : Stands f S r) (h : Solves f S) : TrapTyped (folded f S r) := by
  intro blk' hblk' i hi
  obtain ⟨b, hb'⟩ := List.mem_iff_getElem?.1 hblk'
  have hb' : (folded f S r).block? b = some blk' := hb'
  obtain ⟨blk, hb, -⟩ := Option.map_eq_some_iff.1 (List.getElem?_map.symm.trans hb')
  have hb : f.block? b = some blk := hb
  by_cases hr : b ∈ S.reached
  swap
  · obtain rfl := Option.some.inj (hb'.symm.trans (block?_folded_of_notMem h hb hr))
    cases hi
  obtain rfl := Option.some.inj (hb'.symm.trans (block?_folded h hb hr))
  rcases List.mem_append.1 hi with hi | hi
  · have hphi := (List.mem_filter.1 hi).2
    cases i with
    | phi => trivial
    | _ => cases hphi
  rcases List.mem_append.1 hi with hi | hi
  · obtain ⟨j, -, hj⟩ := List.mem_filterMap.1 hi
    obtain ⟨-, c, -, rfl⟩ := constAfter_eq_some.1 hj
    trivial
  · obtain ⟨j, hj, rfl⟩ := List.mem_map.1 hi
    obtain ⟨k, hk, rfl⟩ := List.mem_map.1 hj
    obtain ⟨hin, -⟩ := List.mem_filter.1 hk
    cases hc : constant? S k with
    | some c =>
      rw [constInst_of_some (blk.body_not_phi k hk) hc]
      trivial
    | none =>
      have hty := h.acc.wf.trapTyped blk (List.mem_of_getElem? hb) k hin
      rw [constInst_of_none hc]
      cases k with
      | bin => exact hty
      | unary d op src =>
        cases op with
        | neg => exact (hS.ty src).trans hty
        | not => trivial
      | _ => trivial

/-! ### The pass -/

/-- How many values and branches are rewritten. -/
def rewritten (f : MirFunc) (S : Solution) : ℕ :=
  ((f.blocks.filter fun b ↦ b.id ∈ S.reached).map (hits S)).sum

theorem sccp_of_solve (hsolve : solve f = some S) (hn : rewritten f S ≠ 0) : sccp fuel f =
      ((rewriteReads fuel (forwards f S)
        (f.blocks.map fun b ↦ if b.id ∈ S.reached then (foldBlock S b).1 else b)).bind fun blocks ↦
        ((tidy fuel { f with blocks := blocks.map fun b ↦
            if b.id ∈ S.reached then b else ⟨b.id, [], some .unreachable⟩ }
          ((f.blocks.map MirBlock.id).filter (· ∈ S.reached))).bind (dce fuel)).map (·, rewritten f S)) := by
  rw [sccp, hsolve]
  exact if_neg hn

theorem rewriteReads_of_resolve {subst : List (ValueId × ValueId)}
    (hr : ∀ v, resolve subst fuel v = some (r v)) (blocks : List MirBlock) :
    rewriteReads fuel subst blocks = some (blocks.map fun b ↦
      ⟨b.id, b.insts.map (MirInst.rewriteValues r), b.term.map (Terminator.rewriteValues r)⟩) := by
  have hget : (fun v ↦ (resolve subst fuel v).getD v) = r := by
    funext v
    rw [hr, Option.getD_some]
  unfold rewriteReads
  rw [if_pos fun b _ v _ ↦ by simp [hr]]
  dsimp only
  rw [hget]

/-- Rewriting what is read and clearing what does not run gives the folded function. -/
theorem folded_eq (f : MirFunc) (S : Solution) (r : ValueId → ValueId) :
    { f with blocks := (((f.blocks.map fun b ↦ if b.id ∈ S.reached then (foldBlock S b).1 else b).map fun b ↦
      MirBlock.mk b.id (b.insts.map (MirInst.rewriteValues r)) (b.term.map (Terminator.rewriteValues r))).map
        fun b ↦ if b.id ∈ S.reached then b else ⟨b.id, [], some .unreachable⟩) } = folded f S r := by
  unfold folded
  rw [List.map_map, List.map_map]
  congr 2
  funext b
  by_cases hb : b.id ∈ S.reached
  · simp only [Function.comp_apply, hb, if_true]
    rw [if_pos (show (foldBlock S b).1.id ∈ S.reached from hb)]
    rfl
  · simp only [Function.comp_apply, hb, if_false]

/-- **The pass ends and preserves the runs** of a verified function with no φ in its entry block; these never
get stuck. -/
theorem sccp_correct (hv : f.verify = .ok ()) {k : ℕ} (hd : f.verifyDominance k = some (.ok ()))
    (hentry : ∀ b, f.block? f.entry = some b → b.phis = []) :
    (∃ n g, (∀ fuel ≥ n, sccp fuel f = some g) ∧ Preserves f g.1) ∧
      ∀ (σ π : Type) (W : World σ π) (env : Env) (w : σ), (machine W f).Safe (start f env w) := by
  have hacc : Accepted f := (AcceptedIn.of_verify hv hd).mono fun _ ha ↦ .inl ha
  refine ⟨?_, fun σ π W env w ↦ safe_of_wellFormed hacc.wf hentry W env w⟩
  cases hsolve : solve f with
  | none => exact ⟨0, (f, 0), fun fuel _ ↦ by rw [sccp, hsolve], .refl f⟩
  | some S =>
    have h : Solves f S := ⟨settled_of_solve hacc.wf hsolve, hacc, hentry⟩
    by_cases hn : rewritten f S = 0
    · refine ⟨0, (f, 0), fun fuel _ ↦ ?_, .refl f⟩
      rw [sccp, hsolve]
      exact if_pos hn
    obtain ⟨n₁, r, hS, hr⟩ := exists_stands h
    have horder : ∀ b ∈ (f.blocks.map MirBlock.id).filter (· ∈ S.reached),
        b < (folded f S r).blocks.length := by
      intro b hb
      obtain ⟨c, hc, rfl⟩ := List.mem_map.1 (List.mem_filter.1 hb).1
      obtain ⟨i, hi⟩ := List.mem_iff_getElem?.1 hc
      rw [hacc.wf.id hi, folded, List.length_map]
      exact (List.getElem?_eq_some_iff.1 hi).1
    obtain ⟨n₂, g, hg, hty, hpres⟩ := tidy_preserves (tidied_folded h) (trapTyped_folded hS h) horder
    obtain ⟨n₃, g', hg', hpres'⟩ := dce_preserves hty
    refine ⟨max n₁ (max n₂ n₃), (g', rewritten f S), fun fuel hfuel ↦ ?_,
      ((folded_preserves hS h).trans hpres).trans hpres'⟩
    rw [ge_iff_le, max_le_iff, max_le_iff] at hfuel
    rw [sccp_of_solve hsolve hn, rewriteReads_of_resolve (hr fuel hfuel.1), Option.bind_some, folded_eq,
      hg fuel hfuel.2.1, Option.bind_some, hg' fuel hfuel.2.2, Option.map_some]

/-- Two φs that read each other around a loop through the entry. -/
def entryLoop : MirFunc where
  params := [0]
  retTy := some .i64
  retHiTy := none
  retLayout := .word
  entry := 0
  blocks := [
    ⟨0, [.phi 1 .i64 [(1, 2)]], some (.br 0 1 2)⟩,
    ⟨1, [.phi 2 .i64 [(0, 1)]], some (.jump 0)⟩,
    ⟨2, [], some (.ret (some 1) none)⟩]
  types := [.bool, .i64, .i64]

/-- Following the φs of `entryLoop` goes back and forth. -/
theorem resolve_entryLoop (fuel : ℕ) :
    resolve [(2, 1), (1, 2)] fuel 1 = none ∧ resolve [(2, 1), (1, 2)] fuel 2 = none := by
  induction fuel with
  | zero => exact ⟨rfl, rfl⟩
  | succ n ih => exact ⟨(resolve_of_some rfl).trans ih.2, (resolve_of_some rfl).trans ih.1⟩

/-- **Not for every verified function the pass ends.** -/
theorem sccp_entryLoop : entryLoop.verify = .ok () ∧ entryLoop.verifyDominance 20 = some (.ok ()) ∧
    ∀ fuel, sccp fuel entryLoop = none := by
  refine ⟨by decide +kernel, by decide +kernel, fun fuel ↦ ?_⟩
  have hsolve : solve entryLoop =
      some ⟨[.bottom, .top, .top], [2, 1, 0], [(1, 0), (0, 2), (0, 1)]⟩ := by decide +kernel
  have hsub : forwards entryLoop ⟨[.bottom, .top, .top], [2, 1, 0], [(1, 0), (0, 2), (0, 1)]⟩ =
      [(2, 1), (1, 2)] := by decide +kernel
  rw [sccp_of_solve hsolve (by decide +kernel), hsub, rewriteReads, if_neg]
  · rfl
  · -- the return reads the first φ
    intro hall
    have hret := hall ⟨2, [], some (.ret (some 1) none)⟩ (by decide +kernel) 1 (by decide +kernel)
    rw [(resolve_entryLoop fuel).1] at hret
    cases hret

/-- A product that stays zero around a loop, and a sum that may overflow. -/
def zeroAround : MirFunc where
  params := [0, 1]
  retTy := some .i64
  retHiTy := none
  retLayout := .word
  entry := 0
  blocks := [
    ⟨0, [.const 2 (.i64 0)], some (.jump 1)⟩,
    ⟨1, [.phi 3 .i64 [(0, 2), (2, 4)]], some (.br 1 2 3)⟩,
    ⟨2, [.bin 4 .mul .i64 3 0, .bin 5 .add .i64 0 0], some (.jump 1)⟩,
    ⟨3, [.phi 6 .i64 [(1, 3)]], some (.ret (some 6) none)⟩]
  types := [.i64, .bool, .i64, .i64, .i64, .i64, .i64]

theorem sccp_correct_zeroAround :
    (∃ n g, (∀ fuel ≥ n, sccp fuel zeroAround = some g) ∧ Preserves zeroAround g.1) ∧
      ∀ (σ π : Type) (W : World σ π) (env : Env) (w : σ),
        (machine W zeroAround).Safe (start zeroAround env w) :=
  have hd : zeroAround.verifyDominance 20 = some (.ok ()) := by decide +kernel
  sccp_correct (by decide +kernel) hd fun b hb ↦ by
    obtain rfl : MirBlock.mk 0 [.const 2 (.i64 0)] (some (.jump 1)) = b := Option.some.inj hb
    rfl

end CoilLang.Mir.Sccp
