import CoilLang.Mir.TidySound
import Mathlib.Algebra.Order.BigOperators.Group.Finset
import Mathlib.Logic.Relation

/-!
# The threading loop ends

Threading goes on until nothing changes, and a cycle of empty blocks is no exception: it shrinks to a
block that jumps to itself, which is left alone. The measure is, summed over all edges, **how many
empty blocks lie ahead** of the target when one follows the jumps (`ahead`). When a block is done, all
its predecessors that only jump have moved past it, so it lies ahead of none of the new targets, and
each threaded edge has lost it.

`threadSweep_spec` collects what one round keeps; `thread_preserves` is the result for the loop.
-/

namespace CoilLang.Mir

/-! ### Edges after a rewrite -/

theorem hop_iff_succsOf {f : MirFunc} {b c : BlockId} :
    hop f b = some c ↔ f.isEmptyBlock b = true ∧ f.succsOf b = [c] ∧ c ≠ b := by
  rw [hop_iff, MirFunc.isEmptyBlock_iff]
  constructor
  · rintro ⟨hentry, hne, blk, hblk, hnil, hterm⟩
    refine ⟨⟨hentry, blk, hblk, hnil⟩, ?_, hne⟩
    rw [MirFunc.succsOf_eq hblk, MirBlock.succs, hterm]
    rfl
  · rintro ⟨⟨hentry, blk, hblk, hnil⟩, hsuccs, hne⟩
    refine ⟨hentry, hne, blk, hblk, hnil, ?_⟩
    rw [MirFunc.succsOf_eq hblk, MirBlock.succs] at hsuccs
    rcases hterm : blk.term with _ | d | _ | _ | _ <;> rw [hterm] at hsuccs <;>
      simp [Terminator.succs] at hsuccs
    rw [hsuccs]

/-- Where an edge goes after threading. -/
def redirect (b c s : BlockId) : BlockId := if s = b then c else s

theorem succsOf_threadEdge (f : MirFunc) (b c p q : BlockId) :
    (threadEdge f b c p).succsOf q =
      if q = p then (f.succsOf q).map (redirect b c) else f.succsOf q := by
  unfold MirFunc.succsOf
  rw [threadEdge_block?]
  cases f.block? q with
  | none => simp
  | some blk =>
    simp only [Option.map_some, Option.getD_some, MirBlock.succs]
    split
    · cases blk.term with
      | none => rfl
      | some t => exact Terminator.succs_retarget b c t
    · rfl

theorem phisOf_threadEdge (f : MirFunc) (b c p q : BlockId) :
    (threadEdge f b c p).phisOf q =
      if q = c then (f.phisOf q).map (pushArg b p) else f.phisOf q := by
  unfold MirFunc.phisOf
  rw [threadEdge_block?]
  cases f.block? q with
  | none => simp
  | some blk =>
    simp only [Option.map_some, Option.getD_some, MirBlock.phis]
    split
    · exact (phiMap_pushArg b p).filter_phi _
    · rfl

theorem isEmptyBlock_threadEdge (f : MirFunc) (b c p q : BlockId) :
    (threadEdge f b c p).isEmptyBlock q = f.isEmptyBlock q := by
  refine Bool.eq_iff_iff.2 ?_
  simp only [MirFunc.isEmptyBlock_iff, threadEdge_block?, Option.map_eq_some_iff]
  refine and_congr_right fun _ ↦ ?_
  constructor
  · rintro ⟨-, ⟨blk, hblk, rfl⟩, hnil⟩
    refine ⟨blk, hblk, ?_⟩
    simp only at hnil
    split at hnil
    · exact List.map_eq_nil_iff.1 hnil
    · exact hnil
  · rintro ⟨blk, hblk, hnil⟩
    exact ⟨_, ⟨blk, hblk, rfl⟩, by simp [hnil]⟩

theorem succsOf_unlink {f : MirFunc} {b : BlockId} {blk : MirBlock} (hb : f.block? b = some blk)
    (c q : BlockId) : (unlink f b c).succsOf q = if q = b then [] else f.succsOf q := by
  unfold MirFunc.succsOf
  rw [unlink_block?]
  by_cases h : q = b
  · subst h
    simp [hb, MirBlock.succs, Terminator.succs]
  · cases f.block? q <;> simp [h, MirBlock.succs]

theorem phisOf_unlink (f : MirFunc) (b c q : BlockId) :
    (unlink f b c).phisOf q = if q = c then (f.phisOf q).map (dropArg b) else f.phisOf q := by
  unfold MirFunc.phisOf
  rw [unlink_block?]
  cases f.block? q with
  | none => simp
  | some blk =>
    simp only [Option.map_some, Option.getD_some, MirBlock.phis]
    split
    · exact (phiMap_dropArg b).filter_phi _
    · rfl

theorem isEmptyBlock_unlink (f : MirFunc) (b c q : BlockId) :
    (unlink f b c).isEmptyBlock q = f.isEmptyBlock q := by
  refine Bool.eq_iff_iff.2 ?_
  simp only [MirFunc.isEmptyBlock_iff, unlink_block?, Option.map_eq_some_iff]
  refine and_congr_right fun _ ↦ ?_
  constructor
  · rintro ⟨-, ⟨blk, hblk, rfl⟩, hnil⟩
    refine ⟨blk, hblk, ?_⟩
    simp only at hnil
    split at hnil
    · exact List.map_eq_nil_iff.1 hnil
    · exact hnil
  · rintro ⟨blk, hblk, hnil⟩
    exact ⟨_, ⟨blk, hblk, rfl⟩, by simp [hnil]⟩

/-! ### What a rewrite keeps -/

theorem phisOf_of_hop {f : MirFunc} {b c : BlockId} (h : hop f b = some c) : f.phisOf b = [] := by
  obtain ⟨-, -, blk, hblk, hnil, -⟩ := hop_eq_some h
  exact phisOf_eq_nil hblk hnil

theorem mem_map_redirect {b c s : BlockId} {l : List BlockId} (hs : s ∈ l) (hne : s ≠ b) :
    s ∈ l.map (redirect b c) :=
  List.mem_map.2 ⟨s, hs, if_neg hne⟩

theorem Tidied.threadEdge {f : MirFunc} (hf : Tidied f) {b c p : BlockId} (hb : hop f b = some c)
    (hp : b ∈ f.succsOf p) : Tidied (threadEdge f b c p) := by
  -- an edge of the function is still one, unless it goes into `b`
  have hkeep : ∀ {x q}, x ∈ f.succsOf q → x ≠ b → x ∈ (Mir.threadEdge f b c p).succsOf q := by
    intro x q hx hne
    rw [succsOf_threadEdge]
    split
    · exact mem_map_redirect hx hne
    · exact hx
  refine ⟨fun {x blk} hx ↦ ?_, fun {x d ty args} hphi a ha ↦ ?_⟩
  · rw [threadEdge_block?] at hx
    obtain ⟨q, hq, rfl⟩ := Option.map_eq_some_iff.1 hx
    have hid : q.id = x := hf.id hq
    exact hid
  · rw [phisOf_threadEdge] at hphi
    split at hphi
    · rename_i hxc
      subst hxc
      obtain ⟨j, hj, hpush⟩ := List.mem_map.1 hphi
      have hxb : x ≠ b := (hop_eq_some hb).2.1
      cases j with
      | phi d' ty' args' =>
        simp only [pushArg] at hpush
        split at hpush
        · rename_i a' ha'
          cases hpush
          rw [sortArgs, List.mem_insertionSort, List.mem_append, List.mem_singleton] at ha
          rcases ha with ha | rfl
          · exact hkeep (hf.phiEdge hj a ha) hxb
          · rw [succsOf_threadEdge, if_pos rfl]
            exact List.mem_map.2 ⟨b, hp, if_pos rfl⟩
        · cases hpush
          exact hkeep (hf.phiEdge hj a ha) hxb
      | _ => cases hpush
    · have hxb : x ≠ b := by
        rintro rfl
        rw [phisOf_of_hop hb] at hphi
        cases hphi
      exact hkeep (hf.phiEdge hphi a ha) hxb

theorem Tidied.unlink {f : MirFunc} (hf : Tidied f) {b c : BlockId} (hb : hop f b = some c) :
    Tidied (unlink f b c) := by
  obtain ⟨-, -, eb, heb, -⟩ := hop_eq_some hb
  have hsuccs : f.succsOf b = [c] := (hop_iff_succsOf.1 hb).2.1
  refine ⟨fun {x blk} hx ↦ ?_, fun {x d ty args} hphi a ha ↦ ?_⟩
  · rw [unlink_block?] at hx
    obtain ⟨q, hq, rfl⟩ := Option.map_eq_some_iff.1 hx
    have hid : q.id = x := hf.id hq
    exact hid
  · rw [phisOf_unlink] at hphi
    rw [succsOf_unlink heb]
    split at hphi
    · obtain ⟨j, hj, hdrop⟩ := List.mem_map.1 hphi
      cases j with
      | phi d' ty' args' =>
        cases hdrop
        obtain ⟨ha, hne⟩ := List.mem_filter.1 ha
        rw [if_neg (by simpa using hne)]
        exact hf.phiEdge hj a ha
      | _ => cases hdrop
    · rename_i hxc
      have hedge := hf.phiEdge hphi a ha
      rw [if_neg ?_]
      · exact hedge
      · intro hab
        rw [hab, hsuccs, List.mem_singleton] at hedge
        exact hxc hedge

theorem TrapTyped.threadEdge {f : MirFunc} (hf : TrapTyped f) (b c p : BlockId) :
    TrapTyped (threadEdge f b c p) := by
  refine hf.of_phiMap rfl fun x b' hb' ↦ ?_
  rw [threadEdge_block?] at hb'
  obtain ⟨q, hq, rfl⟩ := Option.map_eq_some_iff.1 hb'
  by_cases hxc : x = c
  · exact ⟨x, q, pushArg b p, hq, phiMap_pushArg b p, if_pos hxc⟩
  · exact ⟨x, q, id, hq, phiMap_id, (if_neg hxc).trans (List.map_id _).symm⟩

theorem TrapTyped.unlink {f : MirFunc} (hf : TrapTyped f) (b c : BlockId) :
    TrapTyped (unlink f b c) := by
  refine hf.of_phiMap rfl fun x b' hb' ↦ ?_
  rw [unlink_block?] at hb'
  obtain ⟨q, hq, rfl⟩ := Option.map_eq_some_iff.1 hb'
  by_cases hxc : x = c
  · exact ⟨x, q, dropArg b, hq, phiMap_dropArg b, if_pos hxc⟩
  · exact ⟨x, q, id, hq, phiMap_id, (if_neg hxc).trans (List.map_id _).symm⟩

/-! ### The predecessors of one empty block -/

/-- Threading the predecessors of the empty block `b` of `f`, with `rest` still to come. -/
structure ThreadInv (f : MirFunc) (ch : Bool) (b c : BlockId) (rest : List BlockId)
    (st : Threading) : Prop where
  tidied : Tidied st.func
  typed : TrapTyped st.func
  preserves : Preserves f st.func
  entry : st.func.entry = f.entry
  length : st.func.blocks.length = f.blocks.length
  empty : ∀ q, st.func.isEmptyBlock q = f.isEmptyBlock q
  succs : ∀ q, st.func.succsOf q = f.succsOf q ∨
    (b ∈ f.succsOf q ∧ st.func.succsOf q = (f.succsOf q).map (redirect b c))
  todo : ∀ q ∈ rest, b ∈ f.succsOf q ∧ st.func.succsOf q = f.succsOf q
  left : st.left = false → ∀ q, b ∈ st.func.succsOf q → q ∈ rest
  jumps : ∀ q, f.succsOf q = [b] → q ∈ rest ∨ st.func.succsOf q = [c]
  changed : st.changed = true → ch = true ∨
    ∃ q, b ∈ f.succsOf q ∧ st.func.succsOf q = (f.succsOf q).map (redirect b c)

section
variable {f : MirFunc} {ch : Bool} {b c : BlockId} {rest : List BlockId} {st : Threading}

/-- The block itself is still there. -/
theorem ThreadInv.hop (h : ThreadInv f ch b c rest st) (hb : hop f b = some c) :
    hop st.func b = some c := by
  obtain ⟨hempty, hsuccs, hne⟩ := hop_iff_succsOf.1 hb
  refine hop_iff_succsOf.2 ⟨(h.empty b).trans hempty, ?_, hne⟩
  rcases h.succs b with heq | ⟨hmem, -⟩
  · exact heq.trans hsuccs
  · rw [hsuccs, List.mem_singleton] at hmem
    exact absurd hmem.symm hne

theorem keepsEdge_iff {g : MirFunc} {c p : BlockId} : keepsEdge g c p = true ↔
    c ∈ g.succsOf p ∨ (1 < (g.succsOf p).length ∧ g.phisOf c ≠ []) := by
  simp [keepsEdge]

theorem threadPred_inv (hb : hop f b = some c) {p : BlockId}
    (h : ThreadInv f ch b c (p :: rest) st) (hp : p ∉ rest) :
    ThreadInv f ch b c rest (threadPred b c st p) := by
  obtain ⟨hpb, hpsame⟩ := h.todo p List.mem_cons_self
  have hcb : c ≠ b := (hop_eq_some hb).2.1
  have hrest : ∀ q ∈ rest, q ≠ p := fun q hq heq ↦ hp (heq ▸ hq)
  unfold threadPred
  by_cases hkeep : keepsEdge st.func c p = true
  · rw [if_pos hkeep]
    refine ⟨h.tidied, h.typed, h.preserves, h.entry, h.length, h.empty, h.succs,
      fun q hq ↦ h.todo q (List.mem_cons_of_mem _ hq), fun hl ↦ (by cases hl), fun q hq ↦ ?_,
      h.changed⟩
    rcases h.jumps q hq with hmem | hdone
    · rcases List.mem_cons.1 hmem with rfl | hmem
      · -- a predecessor that only jumps is never left
        exfalso
        rw [keepsEdge_iff, hpsame, hq] at hkeep
        simp [hcb] at hkeep
      · exact .inl hmem
    · exact .inr hdone
  · rw [if_neg hkeep]
    have hnot : c ∉ st.func.succsOf p := fun hc ↦ hkeep (keepsEdge_iff.2 (.inl hc))
    have hpb' : b ∈ st.func.succsOf p := hpsame ▸ hpb
    have hsame : ∀ q, q ≠ p → (threadEdge st.func b c p).succsOf q = st.func.succsOf q :=
      fun q hq ↦ by rw [succsOf_threadEdge, if_neg hq]
    have hself : (threadEdge st.func b c p).succsOf p = (f.succsOf p).map (redirect b c) := by
      rw [succsOf_threadEdge, if_pos rfl, hpsame]
    refine ⟨h.tidied.threadEdge (h.hop hb) hpb', h.typed.threadEdge b c p,
      h.preserves.trans (threadEdge_preserves h.tidied (h.hop hb) hnot), h.entry, ?_,
      fun q ↦ (isEmptyBlock_threadEdge ..).trans (h.empty q), fun q ↦ ?_, fun q hq ↦ ?_,
      fun hl q hq ↦ ?_, fun q hq ↦ ?_, fun _ ↦ .inr ⟨p, hpb, hself⟩⟩
    · simp only [threadEdge, MirFunc.length_modifyBlock]
      exact h.length
    · by_cases hqp : q = p
      · exact .inr ⟨hqp ▸ hpb, hqp ▸ hself⟩
      · rw [hsame q hqp]
        exact h.succs q
    · rw [hsame q (hrest q hq)]
      exact h.todo q (List.mem_cons_of_mem _ hq)
    · by_cases hqp : q = p
      · exfalso
        rw [hqp, hself] at hq
        obtain ⟨s, -, hs⟩ := List.mem_map.1 hq
        unfold redirect at hs
        split at hs
        · exact hcb hs
        · rename_i hsb
          exact hsb hs
      · rw [hsame q hqp] at hq
        exact (List.mem_cons.1 (h.left hl q hq)).resolve_left hqp
    · by_cases hqp : q = p
      · subst hqp
        rw [hself, hq]
        exact .inr (congrArg (· :: []) (if_pos rfl))
      · rw [hsame q hqp]
        exact (h.jumps q hq).imp_left fun hmem ↦ (List.mem_cons.1 hmem).resolve_left hqp

theorem foldl_threadPred_inv (hb : hop f b = some c) (h : ThreadInv f ch b c rest st)
    (hnd : rest.Nodup) : ThreadInv f ch b c [] (rest.foldl (threadPred b c) st) := by
  induction rest generalizing st with
  | nil => exact h
  | cons p rest ih =>
    obtain ⟨hp, hnd⟩ := List.nodup_cons.1 hnd
    exact ih (threadPred_inv hb h hp) hnd

theorem mem_predBlocks (hf : Tidied f) {q : BlockId} : q ∈ predBlocks f b ↔ b ∈ f.succsOf q := by
  simp only [predBlocks, List.mem_map, List.mem_filter, decide_eq_true_eq]
  constructor
  · rintro ⟨p, ⟨hp, hbp⟩, rfl⟩
    obtain ⟨i, hi⟩ := List.mem_iff_getElem?.1 hp
    have hid : p.id = i := hf.id hi
    rw [hid, MirFunc.succsOf_eq hi]
    exact hbp
  · intro hbq
    cases hq : f.block? q with
    | none => simp [MirFunc.succsOf, hq] at hbq
    | some p =>
      rw [MirFunc.succsOf_eq hq] at hbq
      exact ⟨p, ⟨List.mem_of_getElem? hq, hbq⟩, hf.id hq⟩

theorem Tidied.map_id (hf : Tidied f) : f.blocks.map MirBlock.id = List.range f.blocks.length := by
  refine List.ext_getElem (by simp) fun i hi _ ↦ ?_
  rw [List.getElem_map, List.getElem_range]
  exact hf.id (List.getElem?_eq_getElem (by simpa using hi))

theorem nodup_predBlocks (hf : Tidied f) : (predBlocks f b).Nodup := by
  have hsub : (predBlocks f b).Sublist (f.blocks.map MirBlock.id) :=
    List.filter_sublist.map _
  rw [hf.map_id] at hsub
  exact hsub.nodup List.nodup_range

theorem threadInv_start (hf : Tidied f) (hty : TrapTyped f) :
    ThreadInv f ch b c (predBlocks f b) ⟨f, false, ch⟩ where
  tidied := hf
  typed := hty
  preserves := .refl f
  entry := rfl
  length := rfl
  empty _ := rfl
  succs _ := .inl rfl
  todo _ hq := ⟨(mem_predBlocks hf).1 hq, rfl⟩
  left _ _ hq := (mem_predBlocks hf).2 hq
  jumps _ hq := .inl ((mem_predBlocks hf).2 (by simp [hq]))
  changed h := .inl h

end

/-- What `threadBlock` does at an empty block `b` with target `c`. -/
structure BlockThreaded (f g : MirFunc) (b c : BlockId) : Prop where
  tidied : Tidied g
  typed : TrapTyped g
  preserves : Preserves f g
  entry : g.entry = f.entry
  length : g.blocks.length = f.blocks.length
  empty : ∀ q, g.isEmptyBlock q = f.isEmptyBlock q
  self : g.succsOf b = [c] ∨ g.succsOf b = []
  succs : ∀ q, q ≠ b → g.succsOf q = f.succsOf q ∨
    (b ∈ f.succsOf q ∧ g.succsOf q = (f.succsOf q).map (redirect b c))
  jumps : ∀ q, f.succsOf q = [b] → g.succsOf q = [c]

theorem threadBlock_spec {f : MirFunc} (hf : Tidied f) (hty : TrapTyped f) {b c : BlockId}
    (hb : hop f b = some c) (ch : Bool) :
    BlockThreaded f (threadBlock (f, ch) b).1 b c ∧
      ((threadBlock (f, ch) b).2 = true → ch = true ∨
        ∃ q, q ≠ b ∧ b ∈ f.succsOf q ∧
          (threadBlock (f, ch) b).1.succsOf q = (f.succsOf q).map (redirect b c)) := by
  obtain ⟨hentry, hcb, -⟩ := hop_eq_some hb
  have hsuccs : f.succsOf b = [c] := (hop_iff_succsOf.1 hb).2.1
  have hbb : ∀ q, b ∈ f.succsOf q → q ≠ b := by
    rintro q hq rfl
    rw [hsuccs, List.mem_singleton] at hq
    exact hcb hq.symm
  simp only [threadBlock, hb]
  have hst := foldl_threadPred_inv hb (threadInv_start hf hty : ThreadInv f ch b c _ _)
    (nodup_predBlocks hf)
  generalize (predBlocks f b).foldl (threadPred b c) ⟨f, false, ch⟩ = st at hst
  have hjumps : ∀ q, f.succsOf q = [b] → st.func.succsOf q = [c] :=
    fun q hq ↦ (hst.jumps q hq).resolve_left (by simp)
  have hself := (hop_iff_succsOf.1 (hst.hop hb)).2.1
  cases hleft : st.left with
  | true =>
    simp only [if_true]
    refine ⟨⟨hst.tidied, hst.typed, hst.preserves, hst.entry, hst.length, hst.empty, .inl hself,
      fun q _ ↦ hst.succs q, hjumps⟩, fun hch ↦ ?_⟩
    exact (hst.changed hch).imp_right fun ⟨q, hq, hq'⟩ ↦ ⟨q, hbb q hq, hq, hq'⟩
  | false =>
    simp only [Bool.false_eq_true, if_false]
    have hno : ∀ q, b ∉ st.func.succsOf q := fun q hq ↦ by simpa using hst.left hleft q hq
    obtain ⟨-, -, eb, heb, -⟩ := hop_eq_some (hst.hop hb)
    have hsame : ∀ q, q ≠ b → (unlink st.func b c).succsOf q = st.func.succsOf q :=
      fun q hq ↦ by rw [succsOf_unlink heb, if_neg hq]
    refine ⟨⟨hst.tidied.unlink (hst.hop hb), hst.typed.unlink b c, ?_, hst.entry, ?_,
      fun q ↦ (isEmptyBlock_unlink ..).trans (hst.empty q), .inr ?_, fun q hq ↦ ?_,
      fun q hq ↦ ?_⟩, fun hch ↦ ?_⟩
    · exact hst.preserves.trans (unlink_preserves c (hst.entry ▸ hentry) hno)
    · simp only [unlink, MirFunc.length_modifyBlock]
      exact hst.length
    · rw [succsOf_unlink heb, if_pos rfl]
    · rw [hsame q hq]
      exact hst.succs q
    · rw [hsame q (hbb q (by simp [hq]))]
      exact hjumps q hq
    · refine (hst.changed hch).imp_right ?_
      rintro ⟨q, hq, hq'⟩
      exact ⟨q, hbb q hq, hq, by rw [hsame q (hbb q hq), hq']⟩

/-! ### The blocks ahead -/

/-- Following the jumps of empty blocks leads from `x` to `y`. -/
def Ahead (f : MirFunc) : BlockId → BlockId → Prop :=
  Relation.ReflTransGen fun x y ↦ hop f x = some y

open Classical in
/-- The empty blocks that lie ahead of a block, itself included. -/
noncomputable def ahead (f : MirFunc) (x : BlockId) : Finset BlockId :=
  (Finset.range f.blocks.length).filter fun y ↦ (hop f y).isSome ∧ Ahead f x y

theorem mem_ahead {f : MirFunc} {x y : BlockId} :
    y ∈ ahead f x ↔ y < f.blocks.length ∧ (hop f y).isSome ∧ Ahead f x y := by
  simp [ahead]

/-- What lies ahead of the target of an edge, summed over the edges out of a block. -/
noncomputable def aheadOut (f : MirFunc) (q : BlockId) : ℕ :=
  ((f.succsOf q).map fun s ↦ (ahead f s).card).sum

noncomputable def aheadSum (f : MirFunc) : ℕ := ∑ q ∈ Finset.range f.blocks.length, aheadOut f q

namespace BlockThreaded

variable {f g : MirFunc} {b c : BlockId}

/-- The jumps left after the block is done; none of them leads to it. -/
theorem hop_cases (h : BlockThreaded f g b c) (hb : hop f b = some c) {x y : BlockId}
    (hx : hop g x = some y) : y ≠ b ∧ (hop f x = some y ∨ hop f x = some b ∧ y = c) := by
  obtain ⟨hempty, hsuccs, hyx⟩ := hop_iff_succsOf.1 hx
  obtain ⟨-, hbsuccs, hcb⟩ := hop_iff_succsOf.1 hb
  rw [h.empty] at hempty
  by_cases hxb : x = b
  · subst hxb
    rcases h.self with hself | hself <;> rw [hself] at hsuccs
    · obtain rfl : c = y := by simpa using hsuccs
      exact ⟨hyx, .inl hb⟩
    · cases hsuccs
  · rcases h.succs x hxb with hsame | ⟨hmem, hmap⟩
    · rw [hsame] at hsuccs
      refine ⟨fun hyb ↦ ?_, .inl (hop_iff_succsOf.2 ⟨hempty, hsuccs, hyx⟩)⟩
      subst hyb
      have hjump := h.jumps x hsuccs
      rw [hsame, hsuccs] at hjump
      exact hcb (by simpa using hjump.symm)
    · rw [hmap] at hsuccs
      obtain ⟨s, hs, hsy⟩ : ∃ s, f.succsOf x = [s] ∧ redirect b c s = y := by
        simpa using List.map_eq_singleton_iff.1 hsuccs
      obtain rfl : b = s := by simpa [hs] using hmem
      obtain rfl : c = y := by simpa [redirect] using hsy
      exact ⟨hcb, .inr ⟨hop_iff_succsOf.2 ⟨hempty, hs, fun e ↦ hxb e.symm⟩, rfl⟩⟩

theorem ahead_subset (h : BlockThreaded f g b c) (hb : hop f b = some c) (x : BlockId) :
    ahead g x ⊆ ahead f x := by
  intro y hy
  obtain ⟨hlt, hsome, hxy⟩ := mem_ahead.1 hy
  refine mem_ahead.2 ⟨h.length ▸ hlt, ?_, ?_⟩
  · obtain ⟨z, hz⟩ := Option.isSome_iff_exists.1 hsome
    rcases (h.hop_cases hb hz).2 with hz | ⟨hz, -⟩ <;> simp [hz]
  · clear hy hlt hsome
    induction hxy with
    | refl => exact .refl
    | tail _ huv ih =>
      rcases (h.hop_cases hb huv).2 with huv | ⟨hub, rfl⟩
      · exact .tail ih huv
      · exact .tail (.tail ih hub) hb

/-- Past the block, there is one empty block less ahead. -/
theorem card_ahead_lt (h : BlockThreaded f g b c) (hb : hop f b = some c) :
    (ahead g c).card < (ahead f b).card := by
  have hcb : c ≠ b := (hop_eq_some hb).2.1
  refine Finset.card_lt_card ⟨fun y hy ↦ ?_, fun hsub ↦ ?_⟩
  · obtain ⟨hlt, hsome, hcy⟩ := mem_ahead.1 (h.ahead_subset hb c hy)
    exact mem_ahead.2 ⟨hlt, hsome, .head hb hcy⟩
  · have hlt : b < f.blocks.length := by
      obtain ⟨-, -, eb, heb, -⟩ := hop_eq_some hb
      exact (List.getElem?_eq_some_iff.1 heb).1
    have hmem : b ∈ ahead g c := hsub (mem_ahead.2 ⟨hlt, by simp [hb], .refl⟩)
    rcases Relation.ReflTransGen.cases_tail (mem_ahead.1 hmem).2.2 with heq | ⟨u, -, hu⟩
    · exact hcb heq.symm
    · exact (h.hop_cases hb hu).1 rfl

theorem card_ahead_redirect (h : BlockThreaded f g b c) (hb : hop f b = some c) (s : BlockId) :
    (ahead g (redirect b c s)).card ≤ (ahead f s).card := by
  unfold redirect
  split
  · rename_i hs
    exact hs ▸ (h.card_ahead_lt hb).le
  · exact Finset.card_le_card (h.ahead_subset hb s)

theorem aheadOut_le (h : BlockThreaded f g b c) (hb : hop f b = some c) (q : BlockId) :
    aheadOut g q ≤ aheadOut f q := by
  have hsame : g.succsOf q = f.succsOf q → aheadOut g q ≤ aheadOut f q := by
    intro heq
    rw [aheadOut, aheadOut, heq]
    exact List.sum_le_sum fun s _ ↦ Finset.card_le_card (h.ahead_subset hb s)
  by_cases hqb : q = b
  · subst hqb
    rcases h.self with hself | hself
    · exact hsame (hself.trans (hop_iff_succsOf.1 hb).2.1.symm)
    · simp [aheadOut, hself]
  · rcases h.succs q hqb with heq | ⟨-, hmap⟩
    · exact hsame heq
    · rw [aheadOut, aheadOut, hmap, List.map_map]
      exact List.sum_le_sum fun s _ ↦ h.card_ahead_redirect hb s

theorem aheadOut_lt (h : BlockThreaded f g b c) (hb : hop f b = some c) {q : BlockId}
    (hq : b ∈ f.succsOf q) (hmap : g.succsOf q = (f.succsOf q).map (redirect b c)) :
    aheadOut g q < aheadOut f q := by
  rw [aheadOut, aheadOut, hmap, List.map_map]
  refine List.sum_lt_sum _ _ (fun s _ ↦ h.card_ahead_redirect hb s) ⟨b, hq, ?_⟩
  rw [Function.comp_apply, redirect, if_pos rfl]
  exact h.card_ahead_lt hb

theorem aheadSum_le (h : BlockThreaded f g b c) (hb : hop f b = some c) :
    aheadSum g ≤ aheadSum f := by
  rw [aheadSum, aheadSum, h.length]
  exact Finset.sum_le_sum fun q _ ↦ h.aheadOut_le hb q

theorem aheadSum_lt (h : BlockThreaded f g b c) (hb : hop f b = some c) {q : BlockId}
    (hq : b ∈ f.succsOf q) (hmap : g.succsOf q = (f.succsOf q).map (redirect b c)) :
    aheadSum g < aheadSum f := by
  have hlt : q < f.blocks.length := by
    by_contra hge
    have hnone : f.block? q = none := List.getElem?_eq_none (not_lt.1 hge)
    simp [MirFunc.succsOf, hnone] at hq
  rw [aheadSum, aheadSum, h.length]
  exact Finset.sum_lt_sum (fun q _ ↦ h.aheadOut_le hb q)
    ⟨q, Finset.mem_range.2 hlt, h.aheadOut_lt hb hq hmap⟩

end BlockThreaded

/-! ### The loop -/

/-- What holds of the function, and of the flag for a change, while a round goes over the blocks
of `f`. -/
structure SweepInv (f : MirFunc) (st : MirFunc × Bool) : Prop where
  tidied : Tidied st.1
  typed : TrapTyped st.1
  preserves : Preserves f st.1
  length : st.1.blocks.length = f.blocks.length
  sum_le : aheadSum st.1 ≤ aheadSum f
  sum_lt : st.2 = true → aheadSum st.1 < aheadSum f

theorem threadBlock_inv {f : MirFunc} {st : MirFunc × Bool} (h : SweepInv f st) (b : BlockId) :
    SweepInv f (threadBlock st b) := by
  cases hb : hop st.1 b with
  | none => simpa only [threadBlock, hb] using h
  | some c =>
    obtain ⟨hthr, hch⟩ := threadBlock_spec h.tidied h.typed hb st.2
    refine ⟨hthr.tidied, hthr.typed, h.preserves.trans hthr.preserves,
      hthr.length.trans h.length, (hthr.aheadSum_le hb).trans h.sum_le, fun hc ↦ ?_⟩
    rcases hch hc with hc | ⟨q, -, hq, hmap⟩
    · exact (hthr.aheadSum_le hb).trans_lt (h.sum_lt hc)
    · exact (hthr.aheadSum_lt hb hq hmap).trans_le h.sum_le

theorem threadSweep_spec {f : MirFunc} (hf : Tidied f) (hty : TrapTyped f) :
    SweepInv f (threadSweep f) := by
  have hstart : SweepInv f (f, false) := ⟨hf, hty, .refl f, rfl, le_rfl, fun h ↦ (by cases h)⟩
  unfold threadSweep
  generalize List.range f.blocks.length = l
  generalize (f, false) = st at hstart
  induction l generalizing st with
  | nil => exact hstart
  | cons b l ih => exact ih _ (threadBlock_inv hstart b)

/-- **Threading ends and keeps the runs.** -/
theorem thread_preserves {f : MirFunc} (hf : Tidied f) (hty : TrapTyped f) :
    ∃ n g, (∀ fuel ≥ n, repeatUntil threadSweep fuel f = some g) ∧ Tidied g ∧ TrapTyped g ∧
      Preserves f g ∧ g.blocks.length = f.blocks.length := by
  let I (g : MirFunc) : Prop :=
    Tidied g ∧ TrapTyped g ∧ Preserves f g ∧ g.blocks.length = f.blocks.length
  have hI : ∀ g, I g → I (threadSweep g).1 := by
    rintro g ⟨hg, hgty, hpres, hlen⟩
    have h := threadSweep_spec hg hgty
    exact ⟨h.tidied, h.typed, hpres.trans h.preserves, h.length.trans hlen⟩
  obtain ⟨g, hg⟩ := repeatUntil_terminates hI aheadSum
    (fun g hg ↦ (threadSweep_spec hg.1 hg.2.1).sum_lt) ⟨hf, hty, .refl f, rfl⟩
    (Nat.lt_succ_self (aheadSum f))
  obtain ⟨s, hs, -, rfl⟩ := repeatUntil_spec hI ⟨hf, hty, .refl f, rfl⟩ hg
  exact ⟨_, _, fun fuel hle ↦ repeatUntil_mono hle hg, hI s hs⟩

end CoilLang.Mir
