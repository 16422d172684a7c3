import CoilLang.Mir.Ssa
import CoilLang.Mir.TidySound

/-!
# Where a run of a function has been

A run that comes to a block by an edge has the values solved that are available at the end of the block it
comes from (`Visits`). **Every step keeps this** in a well formed function with dominated uses, so a pass can put it
into its simulation relation and then look at the current words only.
-/

namespace CoilLang.Mir

variable {σ π : Type} {f : MirFunc} {b : BlockId} {blk : MirBlock} {pre is : List MirInst} {s s' : State σ}
  {W : World σ π}

/-- The run is at the start, or has come by an edge with the available values solved. -/
structure Visits (f : MirFunc) (s : State σ) : Prop where
  start : s.pred = none → s.block = f.entry
  edge : ∀ {p}, s.pred = some p → f.Edge p s.block ∧ f.Reached p ∧ f.Solved (f.AvailEnd p) s.mem.env

theorem visits_start (f : MirFunc) (env : Env) (w : σ) : Visits f (Mir.start f env w) :=
  ⟨fun _ ↦ rfl, fun h ↦ (by cases h)⟩

theorem Visits.reached (h : Visits f s) : f.Reached s.block := by
  cases hp : s.pred with
  | none =>
    rw [h.start hp]
    exact ⟨_, .start rfl⟩
  | some p =>
    obtain ⟨he, hr, -⟩ := h.edge hp
    exact Reached.of_edge hr he

/-- The values available before the block are solved after its φs. -/
theorem Visits.enter (hf : WellFormed f) (hd : f.Dominated) (h : Visits f s)
    (hb : f.block? s.block = some blk) :
    f.Solved (f.Avail s.block blk.phis) (Mir.enter s.pred blk.phis s.mem.env) := by
  cases hp : s.pred with
  | none =>
    refine MirFunc.Solved.enter hf hd hb h.reached (D := fun _ ↦ False) ?_ fun _ _ _ _ h ↦ h.elim
    intro q blk' v hne hdom
    rw [h.start hp] at hne hdom
    exact absurd hdom (not_dom_entry hne)
  | some p =>
    obtain ⟨he, -, hsol⟩ := h.edge hp
    refine MirFunc.Solved.enter hf hd hb h.reached ?_ hsol
    intro q blk' v hne hdom hq hv
    exact .inr ⟨q, blk', dom_pred he hdom hne, hq, hv⟩

/-- The instructions of a block keep the available values solved. -/
theorem MirFunc.Solved.execBody (hf : WellFormed f) (hd : f.Dominated) (hb : f.block? b = some blk)
    (hr : f.Reached b) (hblk : blk.insts = pre ++ is) (hphi : ∀ i ∈ is, i.isPhi = false) {m m' : Mem σ}
    (hrun : execBody W is m = .ok m') (h : f.Solved (f.Avail b pre) m.env) :
    f.Solved (f.Avail b blk.insts) m'.env := by
  induction is generalizing pre m with
  | nil =>
    obtain rfl : m = m' := Except.ok.inj hrun
    rwa [hblk, List.append_nil]
  | cons i is ih =>
    rw [Mir.execBody] at hrun
    split at hrun
    · rename_i m₁ hi
      have hpre : blk.insts = (pre ++ [i]) ++ is := by rw [hblk]; simp
      refine ih hpre (fun j hj ↦ hphi j (List.mem_cons_of_mem _ hj)) hrun ?_
      exact h.execInst hf hd hb hr hblk (hphi i List.mem_cons_self) hi
    · cases hrun

theorem Visits.body (hf : WellFormed f) (hd : f.Dominated) (h : Visits f s) (hb : f.block? s.block = some blk)
    {m : Mem σ} (hm : bodyOf W blk s = .ok m) : f.Solved (f.AvailEnd s.block) m.env := by
  have hsol := (h.enter hf hd hb).execBody hf hd hb h.reached (hf.insts blk (List.mem_of_getElem? hb))
    blk.body_not_phi hm
  intro c hc j hj hdest
  exact hsol c hc j hj ((availEnd_iff hb).1 hdest)

/-- **A step keeps the available values solved.** -/
theorem Visits.next (hf : WellFormed f) (hd : f.Dominated) (h : Visits f s) (hs : step W f s = .inl s') :
    Visits f s' := by
  obtain ⟨hp, blk, hb, hsucc⟩ := step_onEdge hs
  refine ⟨fun hnone ↦ absurd (hp.symm.trans hnone) (by simp), fun {p} hp' ↦ ?_⟩
  obtain rfl : s.block = p := Option.some.inj (hp.symm.trans hp')
  refine ⟨⟨blk, hb, hsucc⟩, h.reached, ?_⟩
  have hready : ready s.pred blk.phis = true := by
    by_contra hnot
    simp [step, hb, execBlock, hnot] at hs
  rw [step_eq_leave hb hready] at hs
  cases hm : bodyOf W blk s with
  | error r =>
    rw [hm] at hs
    cases hs
  | ok m =>
    rw [hm] at hs
    rw [← execTerm_trace.1 hs]
    exact h.body hf hd hb hm

end CoilLang.Mir
