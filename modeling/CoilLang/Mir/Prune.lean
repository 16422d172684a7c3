import CoilLang.Mir.VerifyDominance
import Mathlib.Data.List.Find

/-!
# Dropping and renaming

Dead code elimination and the forwarding of φs do the same to a block: they drop some instructions and
rename the operands of the rest (`prune`). The blocks keep their ids and their edges, so **what is a root and
what dominates what stays as it is**. If renaming keeps the types, the function stays well formed
(`WellFormed.prune`); if each operand is renamed to a value that is available where the operand was, and
whose definition is kept, its uses stay dominated (`DominatedIn.prune`).
-/

namespace CoilLang.Mir

/-- Keep the instructions with `p` and rename their operands. -/
def MirBlock.prune (p : MirInst → Bool) (r : ValueId → ValueId) (b : MirBlock) : MirBlock :=
  { b with
    insts := (b.insts.filter p).map (MirInst.rewriteValues r)
    term := b.term.map (Terminator.rewriteValues r) }

def MirFunc.prune (f : MirFunc) (p : MirBlock → MirInst → Bool) (r : ValueId → ValueId) : MirFunc :=
  { f with blocks := f.blocks.map fun b ↦ b.prune (p b) r }

variable {f : MirFunc} {p : MirBlock → MirInst → Bool} {r : ValueId → ValueId} {b : BlockId}
  {blk : MirBlock} {v : ValueId} {R : BlockId → Prop}

theorem Terminator.operands_rewriteValues (t : Terminator) :
    (t.rewriteValues r).operands = t.operands.map r := by
  cases t with
  | ret lo hi => cases lo <;> cases hi <;> rfl
  | _ => rfl

theorem MirInst.rewriteValues_eq_phi {i : MirInst} {d : ValueId} {ty : MirTy}
    {args : List (BlockId × ValueId)} (h : i.rewriteValues r = .phi d ty args) :
    ∃ args', i = .phi d ty args' ∧ args = args'.map fun a ↦ (a.1, r a.2) := by
  cases i with
  | phi d' ty' args' =>
    obtain ⟨rfl, rfl, rfl⟩ := MirInst.phi.inj h
    exact ⟨args', rfl, rfl⟩
  | _ => cases h

theorem phiArg_rewriteValues {pred : Option BlockId} (i : MirInst) :
    phiArg pred (i.rewriteValues r) = (phiArg pred i).map r := by
  cases i with
  | phi d ty args =>
    cases pred with
    | none => rfl
    | some q =>
      simp only [phiArg, MirInst.rewriteValues, Option.bind_some, List.find?_map, Option.map_map,
        Function.comp_def]
  | _ => rfl

/-- A terminator depends on its operand words only. -/
theorem execTerm_rewriteValues {σ π : Type} {m m' : Mem σ} {t : Terminator} (hw : m'.world = m.world)
    (ht : m'.trace = m.trace) (h : ∀ o ∈ t.operands, m'.env (r o) = m.env o) :
    execTerm (π := π) b m' (some (t.rewriteValues r)) =
      (execTerm b m (some t)).map (fun s ↦ { s with mem := m' }) id := by
  have hfin : ∀ o : Outcome π, m'.finish o = m.finish o := fun o ↦ by rw [Mem.finish, Mem.finish, hw, ht]
  cases t with
  | jump d => rfl
  | br c t n =>
    have hc := h c (List.mem_singleton_self c)
    simp only [execTerm, Terminator.rewriteValues, hc]
    rfl
  | ret lo hi =>
    have hlo : (lo.map r).map m'.env = lo.map m.env := by
      rw [Option.map_map]
      exact Option.map_congr fun x hx ↦ h x (List.mem_append_left _ (Option.mem_toList.2 hx))
    have hhi : (hi.map r).map m'.env = hi.map m.env := by
      rw [Option.map_map]
      exact Option.map_congr fun x hx ↦ h x (List.mem_append_right _ (Option.mem_toList.2 hx))
    simp only [execTerm, Terminator.rewriteValues, hlo, hhi, hfin]
    rfl
  | unreachable => exact congrArg Sum.inr (hfin _)

/-! ### The graph stays -/

namespace MirBlock

@[simp] theorem prune_succs (p : MirInst → Bool) (b : MirBlock) : (b.prune p r).succs = b.succs := by
  unfold succs prune
  cases b.term with
  | none => rfl
  | some t => exact Terminator.rewriteValues_succs r t

theorem prune_phis (p : MirInst → Bool) (b : MirBlock) :
    (b.prune p r).phis = (b.phis.filter p).map (MirInst.rewriteValues r) := by
  show ((b.insts.filter p).map _).filter _ = _
  rw [List.filter_map, List.filter_filter, phis, List.filter_filter]
  simp only [Function.comp_def, MirInst.rewriteValues_isPhi, Bool.and_comm]

theorem ready_prune {p : MirInst → Bool} {pred : Option BlockId} {b : MirBlock}
    (h : ready pred b.phis = true) : ready pred (b.prune p r).phis = true := by
  rw [prune_phis]
  refine List.all_eq_true.2 fun i' hi' ↦ ?_
  obtain ⟨i, hi, rfl⟩ := List.mem_map.1 hi'
  rw [phiArg_rewriteValues, Option.isSome_map]
  exact List.all_eq_true.1 h i (List.mem_filter.1 hi).1

/-- The φ of a value is among those that stay. -/
theorem find?_prune_phis {p : MirInst → Bool} {b : MirBlock} (hkeep : ∀ i ∈ b.phis, v ∈ i.dests → p i = true) :
    (b.prune p r).phis.find? (·.dest = v) =
      (b.phis.find? (·.dest = v)).map (MirInst.rewriteValues r) := by
  rw [prune_phis, List.find?_map, List.find?_filter]
  refine congrArg _ (List.find?_congr fun i hi ↦ ?_)
  rw [Function.comp_apply, MirInst.rewriteValues_dest]
  by_cases hd : i.dest = v
  · simp [hd, hkeep i hi (hd ▸ i.dest_mem_dests)]
  · simp [hd]

theorem prune_body (p : MirInst → Bool) (b : MirBlock) :
    (b.prune p r).body = (b.body.filter p).map (MirInst.rewriteValues r) := by
  show ((b.insts.filter p).map _).filter _ = _
  rw [List.filter_map, List.filter_filter, body, List.filter_filter]
  simp only [Function.comp_def, MirInst.rewriteValues_isPhi, Bool.and_comm]

theorem flatMap_dests_map (r : ValueId → ValueId) (is : List MirInst) :
    (is.map (MirInst.rewriteValues r)).flatMap MirInst.dests = is.flatMap MirInst.dests := by
  rw [List.flatMap_map]
  simp only [MirInst.rewriteValues_dests]

theorem prune_defs (p : MirInst → Bool) (b : MirBlock) :
    (b.prune p r).defs = (b.insts.filter p).flatMap MirInst.dests :=
  flatMap_dests_map r _

end MirBlock

namespace MirFunc

theorem block?_prune (b : BlockId) : (f.prune p r).block? b = (f.block? b).map fun b ↦ b.prune (p b) r :=
  List.getElem?_map

@[simp] theorem prune_preds (b : BlockId) : (f.prune p r).preds b = f.preds b := by
  unfold preds
  show (f.blocks.map _).flatMap _ = _
  rw [List.flatMap_map]
  simp only [MirBlock.prune_succs]
  rfl

@[simp] theorem prune_edge : (f.prune p r).Edge = f.Edge := by
  funext a b
  unfold Edge
  rw [block?_prune]
  cases h : f.block? a with
  | none => simp
  | some c => simp

@[simp] theorem prune_domRoot : (f.prune p r).DomRoot = f.DomRoot := by
  funext b
  unfold DomRoot
  rw [prune_preds]
  show (b = f.entry ∨ b < (f.blocks.map _).length ∧ _) = _
  rw [List.length_map]

theorem prune_defs : (f.prune p r).defs =
    f.blocks.flatMap fun b ↦ (b.insts.filter (p b)).flatMap MirInst.dests := by
  show (f.blocks.map _).flatMap _ = _
  rw [List.flatMap_map]
  exact List.flatMap_congr fun b _ ↦ b.prune_defs (p b)

theorem prune_defs_sublist : (f.prune p r).defs.Sublist f.defs := by
  rw [prune_defs]
  unfold defs
  induction f.blocks with
  | nil => exact List.Sublist.refl _
  | cons b bs ih =>
    simp only [List.flatMap_cons]
    exact (List.filter_sublist.flatMap MirInst.dests).append ih

end MirFunc

/-! ### Well-formedness stays -/

/-- Values of the same types pass the same checks. -/
theorem checkInst_rewriteValues_of_ty (hr : ∀ v, f.ty (r v) = f.ty v) (preds : List BlockId) (i : MirInst) :
    f.checkInst preds (i.rewriteValues r) = f.checkInst preds i := by
  cases i with
  | const | op => rfl
  | bin | cmp | unary | cast =>
    simp only [MirInst.rewriteValues, MirFunc.checkInst, MirFunc.checkBin, MirFunc.checkCmp,
      MirFunc.checkUnary, hr]
  | phi d ty args =>
    simp only [MirInst.rewriteValues, MirFunc.checkInst, MirFunc.checkPhi, List.map_map,
      List.all_map, Function.comp_def, hr]

theorem WellFormed.prune (hf : WellFormed f) (hr : ∀ v, f.ty (r v) = f.ty v) :
    WellFormed (f.prune p r) := by
  have hmem : ∀ {b'}, b' ∈ (f.prune p r).blocks → ∃ b ∈ f.blocks, b.prune (p b) r = b' :=
    fun h ↦ List.mem_map.1 h
  refine ⟨?_, fun {i b'} h ↦ ?_, fun b' h ↦ ?_, fun b' h ↦ ?_, ?_, fun d hd ↦ ?_, fun b' h i hi ↦ ?_,
    fun b' h s hs ↦ ?_⟩
  · show f.entry < (f.blocks.map _).length
    rw [List.length_map]
    exact hf.entry
  · change (f.blocks.map _)[i]? = some b' at h
    rw [List.getElem?_map] at h
    obtain ⟨b, hb, rfl⟩ := Option.map_eq_some_iff.1 h
    exact hf.id (b := b) hb
  · obtain ⟨b, hb, rfl⟩ := hmem h
    obtain ⟨t, ht⟩ := hf.term b hb
    exact ⟨_, congrArg (Option.map _) ht⟩
  · obtain ⟨b, hb, rfl⟩ := hmem h
    rw [MirBlock.prune_phis, MirBlock.prune_body, ← List.map_append, ← List.filter_append, ← hf.insts b hb]
    rfl
  · exact hf.defsNodup.sublist MirFunc.prune_defs_sublist
  · exact hf.defsLt d (MirFunc.prune_defs_sublist.subset hd)
  · obtain ⟨b, hb, rfl⟩ := hmem h
    obtain ⟨j, hj, rfl⟩ := List.mem_map.1 hi
    have hcheck := hf.checked b hb j (List.mem_filter.1 hj).1
    rw [MirFunc.prune_preds]
    exact (checkInst_rewriteValues_of_ty hr _ j).trans hcheck
  · obtain ⟨b, hb, rfl⟩ := hmem h
    rw [MirBlock.prune_succs] at hs
    show s < (f.blocks.map _).length
    rw [List.length_map]
    exact hf.succs b hb s hs

/-! ### Dominance stays -/

/-- A place after dropping and renaming was a place before. -/
theorem map_filter_split {p : MirInst → Bool} {k : MirInst → MirInst} {is pre' post' : List MirInst}
    {i' : MirInst} (h : (is.filter p).map k = pre' ++ i' :: post') :
    ∃ pre i post, is = pre ++ i :: post ∧ p i = true ∧ k i = i' ∧ (pre.filter p).map k = pre' := by
  obtain ⟨u, t, hf, rfl, ht⟩ := List.map_eq_append_iff.1 h
  obtain ⟨i, t, rfl, rfl, -⟩ := List.map_eq_cons_iff.1 ht
  obtain ⟨pre, is', rfl, rfl, his'⟩ := List.filter_eq_append_iff.1 hf
  obtain ⟨l₁, l₂, rfl, hl₁, hi, -⟩ := List.filter_eq_cons_iff.1 his'
  refine ⟨pre ++ l₁, i, l₂, (List.append_assoc _ _ _).symm, hi, rfl, ?_⟩
  have hnil : l₁.filter p = [] := List.filter_eq_nil_iff.2 fun a ha ↦ hl₁ a ha
  rw [List.filter_append, hnil, List.append_nil]

/-- What is kept is available where it was. -/
theorem MirFunc.AvailIn.prune {pre : List MirInst} (h : f.AvailIn R b pre v) (hb : f.block? b = some blk)
    (hpre : ∀ i ∈ pre, i ∈ blk.insts)
    (hkeep : ∀ c ∈ f.blocks, ∀ i ∈ c.insts, v ∈ i.dests → p c i = true) :
    (f.prune p r).AvailIn R b ((pre.filter (p blk)).map (MirInst.rewriteValues r)) v := by
  have hdests : ∀ {c : MirBlock} {is : List MirInst}, c ∈ f.blocks → (∀ i ∈ is, i ∈ c.insts) →
      v ∈ is.flatMap MirInst.dests → v ∈ (is.filter (p c)).flatMap MirInst.dests := by
    intro c is hc his hv
    obtain ⟨i, hi, hv⟩ := List.mem_flatMap.1 hv
    exact List.mem_flatMap.2 ⟨i, List.mem_filter.2 ⟨hi, hkeep c hc i (his i hi) hv⟩, hv⟩
  rcases h with hv | hv | ⟨q, c, hqb, hdom, hq, hv⟩
  · exact .inl fun h ↦ hv (MirFunc.prune_defs_sublist.subset h)
  · refine .inr (.inl ?_)
    rw [MirBlock.flatMap_dests_map]
    exact hdests (List.mem_of_getElem? hb) hpre hv
  · refine .inr (.inr ⟨q, c.prune (p c) r, hqb, ?_, ?_, ?_⟩)
    · rwa [MirFunc.prune_edge]
    · rw [MirFunc.block?_prune, hq]
      rfl
    · rw [MirBlock.prune_defs]
      exact hdests (List.mem_of_getElem? hq) (fun _ hi ↦ hi) hv

/-- **Uses stay dominated** when the operands that stay are renamed to available values that are kept. -/
theorem MirFunc.DominatedIn.prune (hf : WellFormed f) (hd : f.DominatedIn R) {kept : ValueId → Prop}
    (havail : ∀ {b blk pre o}, (∃ h, Walk R f.Edge b h) → f.block? b = some blk →
      (∀ i ∈ pre, i ∈ blk.insts) → f.AvailIn R b pre o → f.AvailIn R b pre (r o))
    (hkept : ∀ c ∈ f.blocks, ∀ i ∈ c.insts, ∀ v ∈ i.dests, kept v → p c i = true)
    (hops : ∀ c ∈ f.blocks, ∀ i ∈ c.insts, p c i = true → ∀ o ∈ i.operands, kept (r o))
    (hterm : ∀ c ∈ f.blocks, ∀ t, c.term = some t → ∀ o ∈ t.operands, kept (r o)) :
    (f.prune p r).DominatedIn R := by
  have hkeep : ∀ {v}, kept v → ∀ c ∈ f.blocks, ∀ i ∈ c.insts, v ∈ i.dests → p c i = true :=
    fun hv c hc i hi hvi ↦ hkept c hc i hi _ hvi hv
  -- a kept value that is there at the end of a reached block stays there
  have hend : ∀ {b blk o}, (∃ h, Walk R f.Edge b h) → f.block? b = some blk → f.AvailEndIn R b o →
      kept (r o) → (f.prune p r).AvailEndIn R b (r o) := by
    intro b blk o hw hb ho hk
    have hb' : (f.prune p r).block? b = some (blk.prune (p blk) r) := by
      rw [MirFunc.block?_prune, hb]
      rfl
    rw [availEndIn_iff hb']
    have hav := havail hw hb (fun _ hi ↦ hi) ((availEndIn_iff hb).1 ho)
    exact hav.prune hb (fun _ hi ↦ hi) (hkeep hk)
  have hblock : ∀ {b blk'}, (f.prune p r).block? b = some blk' →
      ∃ blk, f.block? b = some blk ∧ blk.prune (p blk) r = blk' := fun h ↦ by
    rw [MirFunc.block?_prune] at h
    exact Option.map_eq_some_iff.1 h
  constructor
  · intro b blk' pre' i' post' hw hb' hsplit' hphi o' ho'
    rw [MirFunc.prune_edge] at hw
    obtain ⟨blk, hb, rfl⟩ := hblock hb'
    obtain ⟨pre, i, post, hsplit, hpi, rfl, rfl⟩ := map_filter_split hsplit'
    rw [MirInst.operands_rewriteValues] at ho'
    obtain ⟨o, ho, rfl⟩ := List.mem_map.1 ho'
    rw [MirInst.rewriteValues_isPhi] at hphi
    have hk := hops blk (List.mem_of_getElem? hb) i (by simp [hsplit]) hpi o ho
    have hpre : ∀ j ∈ pre, j ∈ blk.insts := fun j hj ↦ by simp [hsplit, hj]
    exact (havail hw hb hpre (hd.inst hw hb hsplit hphi o ho)).prune hb hpre (hkeep hk)
  · intro b blk' d ty args' hb' hi' a' ha' hw
    rw [MirFunc.prune_edge] at hw
    obtain ⟨blk, hb, rfl⟩ := hblock hb'
    obtain ⟨j, hj, hji⟩ := List.mem_map.1 hi'
    obtain ⟨hi, hpi⟩ := List.mem_filter.1 hj
    obtain ⟨args, rfl, rfl⟩ := MirInst.rewriteValues_eq_phi hji
    obtain ⟨a, ha, rfl⟩ := List.mem_map.1 ha'
    obtain ⟨c, hc, -⟩ := hf.exists_pred hb hi ha
    have hk := hops blk (List.mem_of_getElem? hb) _ hi hpi a.2 (List.mem_map_of_mem ha)
    exact hend hw hc (hd.phi hb hi a ha hw) hk
  · intro b blk' t' hw hb' ht' o' ho'
    rw [MirFunc.prune_edge] at hw
    obtain ⟨blk, hb, rfl⟩ := hblock hb'
    obtain ⟨t, ht, rfl⟩ := Option.map_eq_some_iff.1 ht'
    rw [Terminator.operands_rewriteValues] at ho'
    obtain ⟨o, ho, rfl⟩ := List.mem_map.1 ho'
    exact hend hw hb (hd.term hw hb ht o ho) (hterm blk (List.mem_of_getElem? hb) t ht o ho)

end CoilLang.Mir
