import CoilLang.Mir.TidyLoop

/-!
# Laying out the reachable blocks

The last step of `tidy` finds the reachable blocks and numbers them as they are laid out. The search
ends because a block puts its successors on the stack only once (`reachLoop_terminates`), and what it
finds is closed under edges (`reachLoop_closed`). A run never leaves a closed set of blocks, so
the renumbered function takes the same steps (`relayout_preserves`).

`tidy_preserves` puts the three steps together: **tidying ends and keeps the runs**.
-/

namespace CoilLang.Mir

variable {σ π : Type}

/-! ### The reachable blocks -/

section
variable {f : MirFunc} {n : ℕ} {stack reach out : List BlockId}

theorem reachLoop_mono {m : ℕ} (hnm : n ≤ m) (h : reachLoop f n stack reach = some out) :
    reachLoop f m stack reach = some out := by
  induction n generalizing m stack reach with
  | zero =>
    cases stack with
    | nil => rw [reachLoop] at h ⊢; exact h
    | cons b stack => cases h
  | succ n ih =>
    cases stack with
    | nil => rw [reachLoop] at h ⊢; exact h
    | cons b stack =>
      obtain ⟨m, rfl⟩ : ∃ k, m = k + 1 := ⟨m - 1, by omega⟩
      unfold reachLoop at h ⊢
      split at h
      · rename_i hb
        rw [if_pos hb]
        exact ih (by omega) h
      · rename_i hb
        rw [if_neg hb]
        exact ih (by omega) h

/-- The edges out of blocks not yet reached. -/
def unreachedEdges (f : MirFunc) (reach : List BlockId) : ℕ :=
  ∑ b ∈ (Finset.range f.blocks.length).filter (· ∉ reach), (f.succsOf b).length

theorem unreachedEdges_cons {b : BlockId} (hb : b ∉ reach) :
    unreachedEdges f (b :: reach) + (f.succsOf b).length ≤ unreachedEdges f reach := by
  by_cases hlt : b < f.blocks.length
  · have hins : (Finset.range f.blocks.length).filter (· ∉ reach) =
        insert b ((Finset.range f.blocks.length).filter (· ∉ b :: reach)) := by
      ext x
      simp only [Finset.mem_filter, Finset.mem_range, Finset.mem_insert, List.mem_cons, not_or]
      by_cases hx : x = b <;> simp [hx, hlt, hb]
    rw [unreachedEdges, unreachedEdges, hins, Finset.sum_insert (by simp)]
    omega
  · have hnone : f.block? b = none := List.getElem?_eq_none (not_lt.1 hlt)
    have hnil : f.succsOf b = [] := by simp [MirFunc.succsOf, hnone]
    rw [hnil, List.length_nil, Nat.add_zero]
    refine Finset.sum_le_sum_of_subset fun x hx ↦ ?_
    simp only [Finset.mem_filter, List.mem_cons, not_or] at hx ⊢
    exact ⟨hx.1, hx.2.2⟩

theorem reachLoop_terminates (h : stack.length + unreachedEdges f reach ≤ n) :
    ∃ out, reachLoop f n stack reach = some out := by
  induction n generalizing stack reach with
  | zero =>
    obtain rfl : stack = [] := List.eq_nil_of_length_eq_zero (by omega)
    exact ⟨reach, by rw [reachLoop]⟩
  | succ n ih =>
    cases stack with
    | nil => exact ⟨reach, by rw [reachLoop]⟩
    | cons b stack =>
      unfold reachLoop
      rw [List.length_cons] at h
      split
      · exact ih (by omega)
      · rename_i hb
        have := unreachedEdges_cons (f := f) hb
        exact ih (by rw [List.length_append, List.length_reverse]; omega)

/-- Everything on the stack is reached in the end, and what is reached is closed under edges. -/
theorem reachLoop_closed (h : reachLoop f n stack reach = some out)
    (hcl : ∀ b ∈ reach, ∀ s ∈ f.succsOf b, s ∈ reach ∨ s ∈ stack) :
    (∀ b, b ∈ reach ∨ b ∈ stack → b ∈ out) ∧ ∀ b ∈ out, ∀ s ∈ f.succsOf b, s ∈ out := by
  induction n generalizing stack reach with
  | zero =>
    cases stack with
    | nil =>
      rw [reachLoop] at h
      cases h
      exact ⟨by simp, fun b hb s hs ↦ by simpa using hcl b hb s hs⟩
    | cons b stack => cases h
  | succ n ih =>
    cases stack with
    | nil =>
      rw [reachLoop] at h
      cases h
      exact ⟨by simp, fun b hb s hs ↦ by simpa using hcl b hb s hs⟩
    | cons b stack =>
      unfold reachLoop at h
      split at h
      · rename_i hb
        have hpop : ∀ {x}, x ∈ reach ∨ x ∈ b :: stack → x ∈ reach ∨ x ∈ stack := by
          rintro x (hx | hx)
          · exact .inl hx
          · rcases List.mem_cons.1 hx with rfl | hx
            · exact .inl hb
            · exact .inr hx
        obtain ⟨hout, hcl'⟩ := ih h fun x hx s hs ↦ hpop (hcl x hx s hs)
        exact ⟨fun x hx ↦ hout x (hpop hx), hcl'⟩
      · have hpush : ∀ {x}, x ∈ reach ∨ x ∈ b :: stack →
            x ∈ b :: reach ∨ x ∈ (f.succsOf b).reverse ++ stack := by
          rintro x (hx | hx)
          · exact .inl (List.mem_cons_of_mem _ hx)
          · rcases List.mem_cons.1 hx with rfl | hx
            · exact .inl List.mem_cons_self
            · exact .inr (List.mem_append_right _ hx)
        obtain ⟨hout, hcl'⟩ := ih h fun x hx s hs ↦ by
          rcases List.mem_cons.1 hx with rfl | hx
          · exact .inr (List.mem_append_left _ (List.mem_reverse.2 hs))
          · exact hpush (hcl x hx s hs)
        exact ⟨fun x hx ↦ hout x (hpush hx), hcl'⟩

theorem mem_layoutOf {order : List BlockId} {x : BlockId} :
    x ∈ layoutOf f order reach ↔ x ∈ reach ∧ (x ∈ order ∨ ∃ b ∈ f.blocks, b.id = x) := by
  have hfold : ∀ (bs : List MirBlock) (layout : List BlockId),
      x ∈ bs.foldl (fun layout b ↦
        if b.id ∈ reach ∧ b.id ∉ layout then layout ++ [b.id] else layout) layout ↔
      x ∈ layout ∨ x ∈ reach ∧ ∃ b ∈ bs, b.id = x := by
    intro bs
    induction bs with
    | nil => simp
    | cons b bs ih =>
      intro layout
      rw [List.foldl_cons, ih]
      split
      · rename_i hb
        simp only [List.mem_append, List.mem_cons, List.not_mem_nil, or_false, exists_eq_or_imp]
        constructor
        · rintro ((hx | rfl) | ⟨hr, hx⟩)
          · exact .inl hx
          · exact .inr ⟨hb.1, .inl rfl⟩
          · exact .inr ⟨hr, .inr hx⟩
        · rintro (hx | ⟨hr, rfl | hx⟩)
          · exact .inl (.inl hx)
          · exact .inl (.inr rfl)
          · exact .inr ⟨hr, hx⟩
      · rename_i hb
        simp only [List.mem_cons, exists_eq_or_imp]
        constructor
        · rintro (hx | ⟨hr, hx⟩)
          · exact .inl hx
          · exact .inr ⟨hr, .inr hx⟩
        · rintro (hx | ⟨hr, rfl | hx⟩)
          · exact .inl hx
          · exact .inl (by simpa [hr] using hb)
          · exact .inr ⟨hr, hx⟩
  rw [layoutOf, hfold, List.mem_filter, decide_eq_true_eq]
  tauto

end

/-! ### Renumbering -/

section
variable {f : MirFunc} {layout : List BlockId}

/-- The blocks laid out hold the entry, and every block an edge leads to. -/
structure LaysOut (f : MirFunc) (layout : List BlockId) : Prop where
  block : ∀ b ∈ layout, ∃ blk, f.block? b = some blk
  id : ∀ {b : BlockId} {blk : MirBlock}, f.block? b = some blk → blk.id = b
  entry : ∀ {blk : MirBlock}, f.block? f.entry = some blk → f.entry ∈ layout
  succs : ∀ b ∈ layout, ∀ s ∈ f.succsOf b, ∀ {blk : MirBlock}, f.block? s = some blk → s ∈ layout

theorem relayout_block? {b : BlockId} (hb : b ∈ layout) {blk : MirBlock}
    (hblk : f.block? b = some blk) :
    (relayout f layout).block? (layout.idxOf b) = some (relayoutBlock layout blk) := by
  simp [MirFunc.block?, relayout, List.getElem?_idxOf hb, show f.blocks[b]? = some blk from hblk]

theorem phiArg_relayoutInst {p : BlockId} (hp : p ∈ layout) (i : MirInst) :
    phiArg (some (layout.idxOf p)) (relayoutInst layout i) = phiArg (some p) i := by
  cases i with
  | phi d ty args =>
    have hfind : ∀ args : List (BlockId × ValueId),
        (((args.filter (·.1 ∈ layout)).map fun a ↦ (layout.idxOf a.1, a.2)).find?
          (·.1 = layout.idxOf p)).map Prod.snd = (args.find? (·.1 = p)).map Prod.snd := by
      intro args
      induction args with
      | nil => rfl
      | cons a args ih =>
        by_cases ha : a.1 ∈ layout
        · by_cases hap : a.1 = p
          · simp [hap, hp]
          · have hne : layout.idxOf a.1 ≠ layout.idxOf p := fun h ↦ hap ((List.idxOf_inj ha).1 h)
            simpa [ha, hap, hne] using ih
        · have hap : a.1 ≠ p := fun h ↦ ha (h ▸ hp)
          simpa [ha, hap] using ih
    simp only [relayoutInst, phiArg, Option.bind_some, find?_sortArgs]
    exact hfind args
  | _ => rfl

theorem execTerm_mapTargets (h : BlockId → BlockId) (b : BlockId) (m : Mem σ)
    (t : Option Terminator) :
    execTerm (π := π) (h b) m (t.map (Terminator.mapTargets h)) =
      (execTerm b m t).map (fun s ↦ ⟨h s.block, s.pred.map h, s.mem⟩) id := by
  rcases t with _ | _ | ⟨c, t, n⟩ | _ | _
  case some.br =>
    simp only [Option.map_some, Terminator.mapTargets, execTerm, Sum.map_inl]
    split <;> rfl
  all_goals rfl

/-- The same run with the blocks renumbered; it is in a block laid out, if it is in a block. -/
def LayoutRel (f : MirFunc) (layout : List BlockId) (s t : State σ) : Prop :=
  t = ⟨layout.idxOf s.block, s.pred.map layout.idxOf, s.mem⟩ ∧
    (∀ {blk : MirBlock}, f.block? s.block = some blk → s.block ∈ layout) ∧
    ∀ p, s.pred = some p → p ∈ layout

theorem relayout_preserves (hl : LaysOut f layout) : Preserves f (relayout f layout) := by
  refine Preserves.of_lockstep fun σ π W env w ↦
    ⟨LayoutRel f layout, ⟨rfl, hl.entry, fun p hp ↦ (by cases hp)⟩, ?_⟩
  rintro s t ⟨rfl, hblock, hpred⟩
  refine ⟨rfl, fun hs ↦ ?_⟩
  obtain ⟨blk, hblk, hready⟩ := exists_ready hs
  have hmem := hblock hblk
  have harg : ∀ i ∈ blk.phis,
      phiArg (s.pred.map layout.idxOf) (relayoutInst layout i) = phiArg s.pred i := by
    intro i _
    cases hp : s.pred with
    | none => cases i <;> rfl
    | some p => exact phiArg_relayoutInst (hpred p hp) i
  have hstep' : step W (relayout f layout) ⟨layout.idxOf s.block, s.pred.map layout.idxOf, s.mem⟩ =
      leave (layout.idxOf s.block) (relayoutBlock layout blk).term (bodyOf W blk s) :=
    step_eq_leave_of_phiMap (phiMap_relayoutInst layout) (relayout_block? hmem hblk) rfl hready
      harg rfl
  rw [step_eq_leave hblk hready, hstep']
  cases hbody : bodyOf W blk s with
  | error r => rfl
  | ok m =>
    have hterm := execTerm_mapTargets (π := π) layout.idxOf s.block m blk.term
    simp only [leave, relayoutBlock]
    rw [hterm]
    cases hex : execTerm (π := π) s.block m blk.term with
    | inr r => rfl
    | inl s' =>
      have hstep : step W f s = .inl s' := by
        rw [step_eq_leave hblk hready, hbody, leave, hex]
      obtain ⟨hp, b, hb, hsucc⟩ := step_onEdge hstep
      refine ⟨rfl, fun h ↦ hl.succs _ hmem _ (MirFunc.succsOf_eq hb ▸ hsucc) h, fun p hp' ↦ ?_⟩
      rw [hp] at hp'
      cases hp'
      exact hmem

theorem TrapTyped.relayout (hf : TrapTyped f) (hl : LaysOut f layout) :
    TrapTyped (relayout f layout) := by
  refine hf.of_phiMap rfl fun x b' hb' ↦ ?_
  obtain ⟨b, hb, rfl⟩ : ∃ b, layout[x]? = some b ∧
      relayoutBlock layout ((f.block? b).getD ⟨b, [], none⟩) = b' := by
    simpa [MirFunc.block?, Mir.relayout] using hb'
  obtain ⟨blk, hblk⟩ := hl.block b (List.mem_of_getElem? hb)
  exact ⟨b, blk, relayoutInst layout, hblk, phiMap_relayoutInst layout, by rw [hblk]; rfl⟩

theorem laysOut_layoutOf (hf : Tidied f) {fuel : ℕ} {order reach : List BlockId}
    (hreach : reachLoop f fuel [f.entry] [] = some reach)
    (horder : ∀ b ∈ order, b < f.blocks.length) : LaysOut f (layoutOf f order reach) := by
  obtain ⟨hall, hcl⟩ := reachLoop_closed hreach (by simp)
  have hblock : ∀ {b blk}, b ∈ reach → f.block? b = some blk → b ∈ layoutOf f order reach :=
    fun hb hblk ↦ mem_layoutOf.2 ⟨hb, .inr ⟨_, List.mem_of_getElem? hblk, hf.id hblk⟩⟩
  refine ⟨fun b hb ↦ ?_, hf.id, hblock (hall _ (by simp)), fun b hb s hs blk hblk ↦ ?_⟩
  · rcases (mem_layoutOf.1 hb).2 with ho | ⟨blk, hblk, rfl⟩
    · exact ⟨_, List.getElem?_eq_getElem (horder b ho)⟩
    · obtain ⟨i, hi⟩ := List.mem_iff_getElem?.1 hblk
      exact ⟨blk, by rw [hf.id hi]; exact hi⟩
  · exact hblock (hcl b (mem_layoutOf.1 hb).1 s hs) hblk

end

/-! ### All of it -/

theorem foldl_tidyArms {f : MirFunc} (hf : Tidied f) (hty : TrapTyped f) (l : List BlockId) :
    Tidied (l.foldl tidyArms f) ∧ TrapTyped (l.foldl tidyArms f) ∧
      Preserves f (l.foldl tidyArms f) ∧ (l.foldl tidyArms f).blocks.length = f.blocks.length := by
  induction l generalizing f with
  | nil => exact ⟨hf, hty, .refl f, rfl⟩
  | cons b l ih =>
    obtain ⟨h₁, h₂, h₃, h₄⟩ := ih (hf.tidyArms b) (hty.tidyArms b)
    refine ⟨h₁, h₂, (tidyArms_preserves f b).trans h₃, h₄.trans ?_⟩
    unfold tidyArms
    split
    · split
      · exact MirFunc.length_modifyBlock ..
      · rfl
    · rfl

/-- **Tidying ends and keeps the runs.** -/
theorem tidy_preserves {f : MirFunc} (hf : Tidied f) (hty : TrapTyped f) {order : List BlockId}
    (horder : ∀ b ∈ order, b < f.blocks.length) :
    ∃ n g, (∀ fuel ≥ n, tidy fuel f order = some g) ∧ TrapTyped g ∧ Preserves f g := by
  obtain ⟨hf₁, hty₁, hpres₁, hlen₁⟩ := foldl_tidyArms hf hty (List.range f.blocks.length)
  obtain ⟨n₂, g₂, hg₂, hf₂, hty₂, hpres₂, hlen₂⟩ := thread_preserves hf₁ hty₁
  obtain ⟨reach, hreach⟩ : ∃ out, reachLoop g₂ ([g₂.entry].length + unreachedEdges g₂ [])
      [g₂.entry] [] = some out := reachLoop_terminates le_rfl
  have hl : LaysOut g₂ (layoutOf g₂ order reach) :=
    laysOut_layoutOf hf₂ hreach (by rw [hlen₂, hlen₁]; exact horder)
  refine ⟨max n₂ ([g₂.entry].length + unreachedEdges g₂ []), relayout g₂ (layoutOf g₂ order reach),
    fun fuel hle ↦ ?_, hty₂.relayout hl,
    (hpres₁.trans hpres₂).trans (relayout_preserves hl)⟩
  rw [ge_iff_le, max_le_iff] at hle
  rw [tidy, hg₂ fuel hle.1, Option.bind_some, reachLoop_mono hle.2 hreach]
  rfl

end CoilLang.Mir
