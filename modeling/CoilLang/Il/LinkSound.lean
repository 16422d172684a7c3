import CoilLang.Il.LinkPick

/-!
# What linking keeps

The flat stream is the parts of the module in order, each op under the ids of `finalOp` (`intoFlat_eq`). Its
labels are distinct **exactly when** those of each part are and the prologue and the epilogue, which keep
their ids, share none; then a reference reaches the label it picked. So the stream is linked exactly when no
reference is captured (`linked_iff`).
-/

namespace CoilLang.Il

open LabelMap

/-! ### Places in a stream -/

theorem code_append (a b : List IlOp) : code (a ++ b) = code a ++ code b := List.filter_append a b

theorem emits_append (a b : List IlOp) : emits (a ++ b) = emits a + emits b := by
  rw [emits, code_append, List.length_append]
  rfl

theorem code_flatMap {α : Type} (qs : List α) (f : α → List IlOp) :
    code (qs.flatMap f) = qs.flatMap fun q ↦ code (f q) := by
  induction qs with
  | nil => rfl
  | cons q qs ih => rw [List.flatMap_cons, List.flatMap_cons, code_append, ih]

theorem boundLabelIds_flatMap {α : Type} (qs : List α) (f : α → List IlOp) :
    boundLabelIds (qs.flatMap f) = qs.flatMap fun q ↦ boundLabelIds (f q) := by
  induction qs with
  | nil => rfl
  | cons q qs ih => rw [List.flatMap_cons, List.flatMap_cons, boundLabelIds_append, ih]

theorem bindPc?_append (a b : List IlOp) (l : ℕ) :
    bindPc? (a ++ b) l = (bindPc? a l).or ((bindPc? b l).map (emits a + ·)) := by
  induction a with
  | nil =>
    have hzero : (fun pc ↦ emits [] + pc) = id := funext fun pc ↦ Nat.zero_add pc
    rw [List.nil_append, hzero, Option.map_id]
    rfl
  | cons op a ih =>
    rw [List.cons_append, bindPc?, bindPc?, ih]
    have hcons : emits (op :: a) = emits [op] + emits a := emits_append [op] a
    split
    · rfl
    · rw [Option.map_or, Option.map_map, hcons]
      congr 2
      funext pc
      exact (Nat.add_assoc _ _ _).symm

theorem bindPc?_eq_none {ops : List IlOp} {l : ℕ} (h : l ∉ boundLabelIds ops) : bindPc? ops l = none := by
  induction ops with
  | nil => rfl
  | cons op ops ih =>
    have hop : op.bindLabel ≠ some l := fun hl ↦
      h (List.mem_filterMap.mpr ⟨op, List.mem_cons_self, hl⟩)
    have hops : l ∉ boundLabelIds ops := fun hl ↦ by
      obtain ⟨op', hmem, hl⟩ := List.mem_filterMap.mp hl
      exact h (List.mem_filterMap.mpr ⟨op', List.mem_cons_of_mem _ hmem, hl⟩)
    rw [bindPc?, if_neg hop, ih hops]
    rfl

/-- Renaming the labels of a stretch one to one moves none. -/
theorem bindPc?_map {f : IlOp → IlOp} {φ : ℕ → ℕ} {ops : List IlOp} {l : ℕ}
    (hcode : ∀ op, (f op).emitsCode = op.emitsCode) (hlabel : ∀ op, (f op).bindLabel = op.bindLabel.map φ)
    (hinj : ∀ l' ∈ boundLabelIds ops, φ l' = φ l → l' = l) :
    bindPc? (ops.map f) (φ l) = bindPc? ops l := by
  induction ops with
  | nil => rfl
  | cons op ops ih =>
    have hemits : emits [f op] = emits [op] := by
      rw [emits, emits, code, code, List.filter_cons, List.filter_cons, hcode]
      split <;> rfl
    have hops : bindPc? (ops.map f) (φ l) = bindPc? ops l := by
      refine ih fun l' hl' ↦ hinj l' ?_
      obtain ⟨op', hmem, hl'⟩ := List.mem_filterMap.mp hl'
      exact List.mem_filterMap.mpr ⟨op', List.mem_cons_of_mem _ hmem, hl'⟩
    have hiff : (f op).bindLabel = some (φ l) ↔ op.bindLabel = some l := by
      rw [hlabel, Option.map_eq_some_iff]
      constructor
      · rintro ⟨l', hl', heq⟩
        rw [hl', hinj l' (List.mem_filterMap.mpr ⟨op, List.mem_cons_self, hl'⟩) heq]
      · intro hl
        exact ⟨l, hl, rfl⟩
    rw [List.map_cons, bindPc?, bindPc?, hops, hemits]
    exact if_congr hiff rfl rfl

theorem code_map {f : IlOp → IlOp} (hcode : ∀ op, (f op).emitsCode = op.emitsCode) (ops : List IlOp) :
    code (ops.map f) = (code ops).map f := by
  rw [code, code, List.filter_map]
  congr 1
  exact List.filter_congr fun op _ ↦ hcode op

theorem boundLabelIds_map {f : IlOp → IlOp} {φ : ℕ → ℕ} (hlabel : ∀ op, (f op).bindLabel = op.bindLabel.map φ)
    (ops : List IlOp) : boundLabelIds (ops.map f) = (boundLabelIds ops).map φ := by
  rw [boundLabelIds, boundLabelIds, List.filterMap_map, List.map_filterMap]
  exact List.filterMap_congr fun op _ ↦ hlabel op

namespace IlModule

/-! ### The parts in order -/

theorem flatMap_allParts {α : Type} (m : IlModule) (f : Part → List α) :
    m.allParts.flatMap f = f .prologue ++
      ((List.range m.chunks.length).flatMap fun i ↦ f (.body i) ++ f (.glue i)) ++ f .epilogue := by
  rw [allParts, List.cons_append, List.flatMap_cons, List.flatMap_append, List.flatMap_assoc, List.append_assoc]
  simp

theorem mem_allParts {m : IlModule} {q : Part} : q ∈ m.allParts ↔ ∀ i, q.chunk? = some i → i < m.chunks.length := by
  cases q <;> simp [allParts, Part.chunk?]

theorem nodup_allParts (m : IlModule) : m.allParts.Nodup := by
  have hchunks : ((List.range m.chunks.length).flatMap fun i ↦ [Part.body i, Part.glue i]).Nodup := by
    refine List.nodup_flatMap.mpr ⟨fun i _ ↦ by simp, ?_⟩
    refine List.nodup_range.imp fun {i j} hij ↦ ?_
    show List.Disjoint _ _
    intro q hq hq'
    simp only [List.mem_cons, List.not_mem_nil, or_false] at hq hq'
    rcases hq with rfl | rfl <;> rcases hq' with hq' | hq' <;> cases hq' <;> exact hij rfl
  rw [allParts, List.cons_append, List.nodup_cons, List.nodup_append]
  refine ⟨by simp, hchunks, by simp, ?_⟩
  intro q hq q' hq'
  rw [List.mem_singleton.mp hq']
  rintro rfl
  simp at hq

theorem stream_eq (m : IlModule) : m.stream = m.allParts.flatMap m.part := by
  rw [flatMap_allParts, stream, flatMap_eq_range]
  congr 2
  refine List.flatMap_congr fun i hi ↦ ?_
  have hi : i < m.chunks.length := List.mem_range.mp hi
  rw [part, part, List.getElem?_eq_getElem hi]
  rfl

theorem emits_chunks (m : IlModule) {i : ℕ} (hi : i ≤ m.chunks.length) :
    m.chunkBase i = emits (m.prologue ++ (List.range i).flatMap fun j ↦ m.part (.body j) ++ m.part (.glue j)) := by
  rw [chunkBase, emits_append]
  congr 1
  induction i with
  | zero => rfl
  | succ i ih =>
    have hlt : i < m.chunks.length := hi
    have hpart : m.part (.body i) ++ m.part (.glue i) = m.chunks[i].body ++ m.chunks[i].glue := by
      rw [part, part, List.getElem?_eq_getElem hlt]
      rfl
    rw [List.take_add_one, List.getElem?_eq_getElem hlt, List.map_append, List.sum_append, ih hlt.le, List.range_succ,
      List.flatMap_append, emits_append]
    simp [hpart]

/-- The code before a part is that of the parts before it. -/
theorem base_eq {m : IlModule} {q : Part} (hq : q ∈ m.allParts) :
    ∃ before after, m.allParts = before ++ q :: after ∧ m.base q = emits (before.flatMap m.part) := by
  have hsplit : ∀ {i : ℕ}, i < m.chunks.length → ∃ after,
      m.allParts = (.prologue :: (List.range i).flatMap fun j ↦ [Part.body j, Part.glue j]) ++
        .body i :: .glue i :: after := by
    intro i hi
    obtain ⟨n, hn⟩ := Nat.exists_eq_add_of_lt hi
    refine ⟨((List.range n).map (i + 1 + ·)).flatMap (fun j ↦ [Part.body j, Part.glue j]) ++ [.epilogue], ?_⟩
    have hrange : m.chunks.length = i + 1 + n := by omega
    rw [allParts, hrange, List.range_add, List.range_succ, List.flatMap_append, List.flatMap_append]
    simp
  have hbefore : ∀ i, ((List.range i).flatMap fun j ↦ [Part.body j, Part.glue j]).flatMap m.part =
      (List.range i).flatMap fun j ↦ m.part (.body j) ++ m.part (.glue j) := by
    intro i
    rw [List.flatMap_assoc]
    simp
  have hlt := mem_allParts.mp hq
  cases q with
  | prologue => exact ⟨[], _, rfl, rfl⟩
  | body i =>
    have hi := hlt i rfl
    obtain ⟨after, hafter⟩ := hsplit hi
    refine ⟨_, _, hafter, ?_⟩
    rw [base, m.emits_chunks hi.le, List.flatMap_cons, hbefore]
    rfl
  | glue i =>
    have hi := hlt i rfl
    obtain ⟨after, hafter⟩ := hsplit hi
    refine ⟨(.prologue :: (List.range i).flatMap fun j ↦ [.body j, .glue j]) ++ [.body i], after,
      by rw [hafter]; simp, ?_⟩
    rw [base, m.emits_chunks hi.le, List.flatMap_append, List.flatMap_cons, hbefore, emits_append _ ([Part.body i].flatMap _)]
    simp [part]
  | epilogue =>
    refine ⟨.prologue :: (List.range m.chunks.length).flatMap fun i ↦ [.body i, .glue i], [], rfl, ?_⟩
    rw [base, m.emits_chunks le_rfl, List.flatMap_cons, hbefore]
    rfl

/-! ### Moving the trailing labels -/

theorem getElem?_chunks_eq (m : IlModule) (i : ℕ) :
    m.chunks[i]? = m.funcs[i]?.map fun f ↦ ⟨f.entry, f.ops, m.glue.getD i []⟩ := by
  rw [chunks, List.getElem?_mapIdx]

/-- The labels that the last body takes from the epilogue. -/
def taken (m : IlModule) : List IlOp :=
  match m.funcs.getLast? with
  | none => []
  | some last => (moved last.ops m.epilogue).1

theorem absorb_funcs (m : IlModule) (i : ℕ) :
    m.absorbTrailingLabels.funcs[i]? = m.funcs[i]?.map fun f ↦
      if i + 1 = m.funcs.length then { f with ops := f.ops ++ m.taken } else f := by
  rw [absorbTrailingLabels, taken]
  cases hlast : m.funcs.getLast? with
  | none =>
    rw [List.getLast?_eq_none_iff.mp hlast]
    rfl
  | some last =>
    obtain ⟨fs, hfs⟩ := List.getLast?_eq_some_iff.mp hlast
    rw [hfs]
    dsimp only
    rw [List.dropLast_concat, List.length_append, List.length_singleton]
    rcases Nat.lt_trichotomy i fs.length with hi | rfl | hi
    · rw [List.getElem?_append_left hi, List.getElem?_append_left hi, List.getElem?_eq_getElem hi]
      simp [hi.ne]
    · simp
    · rw [List.getElem?_eq_none (by simp; omega), List.getElem?_eq_none (by simp; omega)]
      rfl

theorem absorb_rest (m : IlModule) :
    m.absorbTrailingLabels.prologue = m.prologue ∧ m.absorbTrailingLabels.glue = m.glue ∧
      code m.absorbTrailingLabels.epilogue = code m.epilogue := by
  rw [absorbTrailingLabels]
  cases m.funcs.getLast? with
  | none => exact ⟨rfl, rfl, rfl⟩
  | some last =>
    refine ⟨rfl, rfl, ?_⟩
    show code (moved last.ops m.epilogue).2 = _
    rw [moved, List.partition_eq_filter_filter, code, code, List.filter_filter]
    refine List.filter_congr fun op _ ↦ ?_
    cases op <;> rfl

theorem code_taken (m : IlModule) : code m.taken = [] := by
  rw [taken]
  cases m.funcs.getLast? with
  | none => rfl
  | some last =>
    refine List.filter_eq_nil_iff.mpr fun op hop ↦ ?_
    have hop : op ∈ (moved last.ops m.epilogue).1 := hop
    rw [moved, List.partition_eq_filter_filter] at hop
    have hlabel := (List.mem_filter.mp hop).2
    cases op <;> first | exact Bool.false_ne_true | cases hlabel

theorem absorb_length (m : IlModule) : m.absorbTrailingLabels.chunks.length = m.chunks.length := by
  have hfuncs : m.absorbTrailingLabels.funcs.length = m.funcs.length := by
    rw [absorbTrailingLabels]
    cases hlast : m.funcs.getLast? with
    | none => rfl
    | some last =>
      obtain ⟨fs, hfs⟩ := List.getLast?_eq_some_iff.mp hlast
      simp [hfs]
  rw [chunks, chunks, List.length_mapIdx, List.length_mapIdx, hfuncs]

theorem absorb_allParts (m : IlModule) : m.absorbTrailingLabels.allParts = m.allParts := by
  rw [allParts, allParts, absorb_length]

/-- Moving labels changes no code. -/
theorem code_absorb (m : IlModule) (q : Part) : code (m.absorbTrailingLabels.part q) = code (m.part q) := by
  obtain ⟨hpro, hglue, hepi⟩ := m.absorb_rest
  cases q with
  | prologue => rw [part, hpro, part]
  | epilogue => exact hepi
  | body i =>
    rw [part, part, getElem?_chunks_eq, getElem?_chunks_eq, absorb_funcs]
    cases m.funcs[i]? with
    | none => rfl
    | some f =>
      by_cases hi : i + 1 = m.funcs.length
      · simp [hi, code_append, code_taken]
      · simp [hi]
  | glue i =>
    rw [part, part, getElem?_chunks_eq, getElem?_chunks_eq, absorb_funcs, hglue]
    cases m.funcs[i]? with
    | none => rfl
    | some f => rfl

theorem emits_flatMap_congr {qs : List Part} {f g : Part → List IlOp} (h : ∀ q, code (f q) = code (g q)) :
    emits (qs.flatMap f) = emits (qs.flatMap g) := by
  rw [emits, emits, code_flatMap, code_flatMap]
  congr 2
  exact funext h

theorem absorb_base {m : IlModule} {q : Part} (hq : q ∈ m.allParts) : m.absorbTrailingLabels.base q = m.base q := by
  obtain ⟨before, after, hsplit, hbase⟩ := base_eq hq
  obtain ⟨before', after', hsplit', hbase'⟩ := base_eq (m := m.absorbTrailingLabels) (by rwa [absorb_allParts])
  rw [absorb_allParts, hsplit] at hsplit'
  have hnodup : (before ++ q :: after).Nodup := hsplit ▸ m.nodup_allParts
  have hbefore : before = before' := by
    have hnot : q ∉ before := fun hmem ↦
      (List.nodup_append.mp hnodup).2.2 q hmem q List.mem_cons_self rfl
    have hnot' : q ∉ after := (List.nodup_cons.mp (List.nodup_append.mp hnodup).2.1).1
    exact (List.append_cons_inj_of_notMem hnot hnot').mp hsplit' |>.1
  rw [hbase, hbase', ← hbefore]
  exact emits_flatMap_congr m.code_absorb

/-! ### The stream that linking writes -/

theorem le_maxCodeLabel {ops : List IlOp} {op : IlOp} (hop : op ∈ ops) {t : ℕ} (ht : codeLabelId op = some t) :
    t ≤ Il.maxCodeLabel ops := by
  have hmem : t ∈ ops.filterMap codeLabelId := List.mem_filterMap.mpr ⟨op, hop, ht⟩
  rw [Il.maxCodeLabel]
  generalize ops.filterMap codeLabelId = ts at hmem ⊢
  induction ts with
  | nil => cases hmem
  | cons t' ts ih =>
    rw [List.foldr_cons]
    rcases List.mem_cons.mp hmem with rfl | hmem
    · exact le_max_left _ _
    · exact (ih hmem).trans (le_max_right _ _)

theorem le_foldl_max {α : Type} (f : α → ℕ) (xs : List α) (n : ℕ) :
    n ≤ xs.foldl (fun n x ↦ max n (f x)) n ∧ ∀ x ∈ xs, f x ≤ xs.foldl (fun n x ↦ max n (f x)) n := by
  induction xs generalizing n with
  | nil => exact ⟨le_rfl, fun x hx ↦ (by cases hx)⟩
  | cons x xs ih =>
    obtain ⟨hle, hall⟩ := ih (max n (f x))
    refine ⟨(le_max_left _ _).trans hle, fun y hy ↦ ?_⟩
    rcases List.mem_cons.mp hy with rfl | hy
    · exact (le_max_right _ _).trans hle
    · exact hall y hy

theorem le_maxCodeLabel_part (m : IlModule) (q : Part) {op : IlOp} (hop : op ∈ m.part q) {t : ℕ}
    (ht : codeLabelId op = some t) : t ≤ m.maxCodeLabel := by
  have hbodies := le_foldl_max (fun f : IlFuncBody ↦ Il.maxCodeLabel f.ops) m.funcs (Il.maxCodeLabel m.prologue)
  have hgaps := le_foldl_max Il.maxCodeLabel m.glue
    (m.funcs.foldl (fun n f ↦ max n (Il.maxCodeLabel f.ops)) (Il.maxCodeLabel m.prologue))
  have hle := le_maxCodeLabel hop ht
  refine hle.trans ?_
  cases q with
  | prologue => exact (hbodies.1.trans hgaps.1).trans (le_max_left _ _)
  | epilogue => exact le_max_right _ _
  | body i =>
    rw [part, getElem?_chunks_eq] at hop hle ⊢
    cases hf : m.funcs[i]? with
    | none =>
      rw [hf] at hop
      cases hop
    | some f => exact ((hbodies.2 f (List.mem_of_getElem? hf)).trans hgaps.1).trans (le_max_left _ _)
  | glue i =>
    rw [part, getElem?_chunks_eq] at hop hle ⊢
    cases hf : m.funcs[i]? with
    | none =>
      rw [hf] at hop
      cases hop
    | some f =>
      rw [hf] at hop
      have hop : op ∈ m.glue.getD i [] := hop
      rw [List.getD_eq_getElem?_getD] at hop
      show Il.maxCodeLabel (m.glue.getD i []) ≤ _
      rw [List.getD_eq_getElem?_getD]
      cases hg : m.glue[i]? with
      | none =>
        rw [hg] at hop
        cases hop
      | some g => exact (hgaps.2 g (List.mem_of_getElem? hg)).trans (le_max_left _ _)

/-- The tables of a module whose fresh ids fit. -/
theorem exists_linkedBy (hash : HashOrder) {m : IlModule}
    (hfit : m.maxCodeLabel + (m.chunks.map Chunk.minted).sum ≤ u32Max) :
    ∃ segs, m.LinkedBy (m.maxCodeLabel + 1)
      (m.chunks.foldl (linkChunk hash) { next := satSucc m.maxCodeLabel }) segs := by
  have hraw : ∀ q, ∀ op ∈ m.part q, ∀ t, codeLabelId op = some t → t < m.maxCodeLabel + 1 :=
    fun q op hop t ht ↦ Nat.lt_succ_of_le (m.le_maxCodeLabel_part q hop ht)
  have hchunk : ∀ c ∈ m.chunks, ∀ op ∈ c.body ++ c.glue, ∀ t, codeLabelId op = some t → t < m.maxCodeLabel + 1 := by
    intro c hc op hop t ht
    obtain ⟨i, hi⟩ := List.mem_iff_getElem?.mp hc
    rcases List.mem_append.mp hop with hop | hop
    · exact hraw (.body i) op (by rw [part, hi]; exact hop) t ht
    · exact hraw (.glue i) op (by rw [part, hi]; exact hop) t ht
  have hzero : mintedBy [] = 0 := rfl
  obtain ⟨segs, hsegs, hinv⟩ := foldl_linkChunk_inv hash m.chunks (linking_inv_nil (m.maxCodeLabel + 1) rfl)
    (by rw [hzero]; omega) hchunk
  exact ⟨segs, hinv, hsegs, hraw⟩

theorem bindLabel_patchCall (maps : List LabelMap) (entries : LabelMap) (here : List ℕ) (op : IlOp) :
    (patchCall maps entries here op).bindLabel = op.bindLabel := by
  cases op with
  | entry kind arity t retWords =>
    rw [patchCall]
    split
    · rfl
    · split
      · split <;> rfl
      · rfl
  | _ => rfl

theorem bindLabel_patchJump (prior entries : LabelMap) (flatIds here : List ℕ) (op : IlOp) :
    (patchJump prior entries flatIds here op).bindLabel = op.bindLabel := by
  cases op with
  | jump kind t hint =>
    rw [patchJump]
    split
    · rfl
    · split
      · rfl
      · split
        · rfl
        · split
          · split <;> rfl
          · rfl
  | _ => rfl

/-- Calls and jumps are patched apart. -/
theorem patch_comm (maps : List LabelMap) (callEntries : LabelMap) (prior entries : LabelMap)
    (flatIds here : List ℕ) (op : IlOp) :
    patchJump prior entries flatIds here (patchCall maps callEntries here op) =
      patchCall maps callEntries here (patchJump prior entries flatIds here op) := by
  cases op with
  | entry kind arity t retWords =>
    show patchJump _ _ _ _ (patchCall _ _ _ _) = patchCall _ _ _ (.entry kind arity t retWords)
    rw [patchCall]
    split
    · rfl
    · split
      · split <;> rfl
      · rfl
  | jump kind t hint =>
    show patchJump _ _ _ _ (.jump kind t hint) = _
    rw [patchJump]
    split
    · rfl
    · split
      · rfl
      · split
        · rfl
        · split
          · split <;> rfl
          · rfl
  | _ => rfl

theorem boundLabelIds_calls (maps : List LabelMap) (entries : LabelMap) (ops : List IlOp) :
    boundLabelIds (remapCrossFunctionEntryCallTargets maps entries ops) = boundLabelIds ops := by
  rw [remapCrossFunctionEntryCallTargets, boundLabelIds, boundLabelIds, List.filterMap_map]
  exact List.filterMap_congr fun op _ ↦ bindLabel_patchCall _ _ _ op

theorem boundLabelIds_jumps (prior entries : LabelMap) (flatIds : List ℕ) (ops : List IlOp) :
    boundLabelIds (remapCrossFunctionJumpTargets prior entries flatIds ops) = boundLabelIds ops := by
  rw [remapCrossFunctionJumpTargets, boundLabelIds, boundLabelIds, List.filterMap_map]
  exact List.filterMap_congr fun op _ ↦ bindLabel_patchJump _ _ _ _ op

theorem calls_jumps (maps : List LabelMap) (callEntries : LabelMap) (prior entries : LabelMap)
    (flatIds : List ℕ) (ops : List IlOp) :
    remapCrossFunctionEntryCallTargets maps callEntries (remapCrossFunctionJumpTargets prior entries flatIds ops) =
      ops.map fun op ↦ patchCall maps callEntries (boundLabelIds ops)
        (patchJump prior entries flatIds (boundLabelIds ops) op) := by
  rw [remapCrossFunctionEntryCallTargets, boundLabelIds_jumps, remapCrossFunctionJumpTargets, List.map_map]
  rfl

theorem jumps_calls (maps : List LabelMap) (callEntries : LabelMap) (prior entries : LabelMap)
    (flatIds : List ℕ) (ops : List IlOp) :
    remapCrossFunctionJumpTargets prior entries flatIds (remapCrossFunctionEntryCallTargets maps callEntries ops) =
      ops.map fun op ↦ patchCall maps callEntries (boundLabelIds ops)
        (patchJump prior entries flatIds (boundLabelIds ops) op) := by
  rw [remapCrossFunctionJumpTargets, boundLabelIds_calls, remapCrossFunctionEntryCallTargets, List.map_map]
  exact List.map_congr_left fun op _ ↦ patch_comm _ _ _ _ _ _ op

/-- The flat stream: each part under its final ids. -/
def final (m : IlModule) (segs : List Seg) (q : Part) : List IlOp := (m.part q).map (m.finalOp segs q)

/-- **The linker follows the order of its tables.** -/
theorem intoFlat_eq (hash : HashOrder) {m : IlModule} (hfit : m.Fits) :
    ∃ s segs, m.absorbTrailingLabels.LinkedBy (m.absorbTrailingLabels.maxCodeLabel + 1) s segs ∧
      (m.intoFlat hash).1 = m.allParts.flatMap (m.absorbTrailingLabels.final segs) := by
  obtain ⟨segs, h⟩ := exists_linkedBy hash hfit
  refine ⟨_, segs, h, ?_⟩
  rw [intoFlat, ← m.absorb_allParts]
  generalize m.absorbTrailingLabels = m at h ⊢
  generalize m.chunks.foldl (linkChunk hash) { next := satSucc m.maxCodeLabel } = s at h ⊢
  dsimp only
  rw [flatMap_allParts, jumps_calls, calls_jumps, h.inv.segments, List.map_map, ← List.flatMap_def, flatMap_eq_range,
    h.length_eq]
  have hkept : ∀ q : Part, q.chunk? = none → m.final segs q = (m.part q).map fun op ↦
      patchCall s.maps s.entries (boundLabelIds (m.part q))
        (patchJump (LinkedBy.mergedPrior m s) (s.jumpEntries 0 m.chunks []) (LinkedBy.mergedPrior m s).values
          (boundLabelIds (m.part q)) op) :=
    fun q hq ↦ List.map_congr_left fun op hop ↦ (h.patch_kept hq hop).symm
  rw [hkept .prologue rfl, hkept .epilogue rfl]
  congr 2
  refine List.flatMap_congr fun i hi ↦ ?_
  have hi : i < segs.length := by rw [h.length_eq]; exact List.mem_range.mp hi
  have hg : segs[i]? = some segs[i] := List.getElem?_eq_getElem hi
  rw [hg]
  generalize segs[i] = g at hg
  show remapCrossFunctionEntryCallTargets _ _ (remapCrossFunctionJumpTargets _ _ _ g.ops) = _
  rw [calls_jumps]
  nth_rewrite 3 [Seg.ops]
  rw [List.map_append, List.map_map, List.map_map, final, final, h.part_body hg, h.part_glue hg]
  congr 1
  · refine List.map_congr_left fun op hop ↦ ?_
    refine h.patch_remapOp hg (q := .body i) rfl (fun t ↦ ?_) (fun l ↦ by rw [flatId, hg]; rfl)
      (by rwa [h.part_body hg])
    rw [LinkedBy.ownBinder_body, ← h.map_get, hg]
    rfl
  · refine List.map_congr_left fun op hop ↦ ?_
    exact h.patch_remapOp hg (q := .glue i) rfl (fun t ↦ h.glueMap_get hg t) (fun l ↦ by rw [flatId, hg]; rfl)
      (by rwa [h.part_glue hg])

/-! ### Labels of the stream -/

theorem emitsCode_finalOp (m : IlModule) (segs : List Seg) (q : Part) (op : IlOp) :
    (m.finalOp segs q op).emitsCode = op.emitsCode := by
  cases op <;> rfl

theorem bindLabel_finalOp (m : IlModule) (segs : List Seg) (q : Part) (op : IlOp) :
    (m.finalOp segs q op).bindLabel = op.bindLabel.map (flatId segs q) := by
  cases op <;> rfl

theorem eraseTarget_finalOp (m : IlModule) (segs : List Seg) (q : Part) {op : IlOp} (hop : op.emitsCode) :
    (m.finalOp segs q op).eraseTarget = op.eraseTarget := by
  cases op with
  | label l => cases hop
  | _ => rfl

theorem target?_finalOp (m : IlModule) (segs : List Seg) (q : Part) {op : IlOp} {l : ℕ} (hl : op.target? = some l) :
    (m.finalOp segs q op).target? = some (((m.pick q op l).map (idOf segs)).getD l) := by
  cases op with
  | jump kind t hint =>
    cases hl
    rfl
  | entry kind arity t retWords =>
    cases hl
    rfl
  | _ => cases hl

theorem boundLabelIds_final (m : IlModule) (segs : List Seg) (q : Part) :
    boundLabelIds (m.final segs q) = (boundLabelIds (m.part q)).map (flatId segs q) :=
  boundLabelIds_map (m.bindLabel_finalOp segs q) _

theorem code_final (m : IlModule) (segs : List Seg) (q : Part) :
    code (m.final segs q) = (code (m.part q)).map (m.finalOp segs q) :=
  code_map (m.emitsCode_finalOp segs q) _

theorem mem_allParts_of_binds {m : IlModule} {q : Part} {l : ℕ} (hb : m.binds l q = true) : q ∈ m.allParts := by
  have hmem := of_decide_eq_true hb
  refine mem_allParts.mpr fun i hi ↦ ?_
  by_contra hle
  have hnone : m.chunks[i]? = none := List.getElem?_eq_none (Nat.le_of_not_lt hle)
  cases q with
  | prologue => cases hi
  | epilogue => cases hi
  | body j =>
    cases hi
    rw [part, hnone] at hmem
    cases hmem
  | glue j =>
    cases hi
    rw [part, hnone] at hmem
    cases hmem

variable {m : IlModule} {start : ℕ} {s : Linking} {segs : List Seg}

namespace LinkedBy

variable (h : m.LinkedBy start s segs)
include h

/-- Only labels of the prologue and the epilogue can share a flat id. -/
theorem flatId_inj (q q' : Part) {l l' : ℕ} (hb : m.binds l q = true) (hb' : m.binds l' q' = true)
    (heq : flatId segs q l = flatId segs q' l') :
    l = l' ∧ (q = q' ∨ q.chunk? = none ∧ q'.chunk? = none) := by
  have hkept : ∀ (q : Part) (l : ℕ), q.chunk? = none → flatId segs q l = l := by
    intro q l hq
    cases q <;> first | rfl | cases hq
  cases hq : q.chunk? with
  | none =>
    cases hq' : q'.chunk? with
    | none => exact ⟨by rwa [hkept q l hq, hkept q' l' hq'] at heq, .inr ⟨rfl, rfl⟩⟩
    | some j =>
      have hle := h.le_idOf (b := (q', l')) hq' hb'
      have hlt := h.bound_lt hb
      rw [hkept q l hq] at heq
      rw [idOf, ← heq] at hle
      omega
  | some i =>
    obtain ⟨g, hg, -, hhas⟩ := h.idOf_has (b := (q, l)) hq hb
    cases hq' : q'.chunk? with
    | none =>
      have hle := h.le_idOf (b := (q, l)) hq hb
      have hlt := h.bound_lt hb'
      rw [idOf, heq, hkept q' l' hq'] at hle
      omega
    | some j =>
      obtain ⟨g', hg', -, hhas'⟩ := h.idOf_has (b := (q', l')) hq' hb'
      rw [idOf, ← heq] at hhas'
      obtain rfl := h.seg_apart hg hg' hhas hhas'
      rw [hg] at hg'
      cases hg'
      have hok := h.ok hg
      have hmem := of_decide_eq_true hb
      have hmem' := of_decide_eq_true hb'
      have hget : ∀ (map : LabelMap) (l : ℕ), (map.get l).isSome → map.get l = some ((map.get l).getD l) := by
        intro map l hl
        obtain ⟨v, hv⟩ := Option.isSome_iff_exists.mp hl
        rw [hv]
        rfl
      cases q with
      | prologue => cases hq
      | epilogue => cases hq
      | body i =>
        cases hq
        rw [h.part_body hg] at hmem
        have hv := hget _ _ ((hok.dom l).mpr (.inl hmem))
        cases q' with
        | prologue => cases hq'
        | epilogue => cases hq'
        | body j =>
          cases hq'
          rw [h.part_body hg] at hmem'
          have hv' := hget _ _ ((hok.dom l').mpr (.inl hmem'))
          simp only [flatId, hg, Option.bind_some] at heq
          rw [← heq] at hv'
          exact ⟨hok.inj l l' _ hv hv', .inl rfl⟩
        | glue j =>
          cases hq'
          rw [h.part_glue hg] at hmem'
          have hv' := hget _ _ ((hok.glueDom l').mpr (.inr hmem'))
          simp only [flatId, hg, Option.bind_some] at heq
          rw [← heq] at hv'
          obtain ⟨rfl, hnot⟩ := hok.cross l l' _ hv hv'
          exact absurd ⟨hmem, hmem'⟩ hnot
      | glue i =>
        cases hq
        rw [h.part_glue hg] at hmem
        have hv := hget _ _ ((hok.glueDom l).mpr (.inr hmem))
        cases q' with
        | prologue => cases hq'
        | epilogue => cases hq'
        | body j =>
          cases hq'
          rw [h.part_body hg] at hmem'
          have hv' := hget _ _ ((hok.dom l').mpr (.inl hmem'))
          simp only [flatId, hg, Option.bind_some] at heq
          rw [← heq] at hv'
          obtain ⟨rfl, hnot⟩ := hok.cross l' l _ hv' hv
          exact absurd ⟨hmem', hmem⟩ hnot
        | glue j =>
          cases hq'
          rw [h.part_glue hg] at hmem'
          have hv' := hget _ _ ((hok.glueDom l').mpr (.inr hmem'))
          simp only [flatId, hg, Option.bind_some] at heq
          rw [← heq] at hv'
          exact ⟨hok.glueInj l l' _ hv hv', .inl rfl⟩

/-- No flat id is bound in two parts. -/
theorem parts_apart (hapart : ∀ l, m.binds l .prologue → ¬ m.binds l .epilogue) {q q' : Part} (hne : q ≠ q') :
    List.Disjoint (boundLabelIds (m.final segs q)) (boundLabelIds (m.final segs q')) := by
  intro v hv hv'
  rw [boundLabelIds_final, List.mem_map] at hv hv'
  obtain ⟨l, hl, rfl⟩ := hv
  obtain ⟨l', hl', heq⟩ := hv'
  obtain ⟨rfl, hq | ⟨hq, hq'⟩⟩ := h.flatId_inj q q' (decide_eq_true hl) (decide_eq_true hl') heq.symm
  · exact hne hq
  · cases q with
    | body i => cases hq
    | glue i => cases hq
    | prologue =>
      cases q' with
      | body i => cases hq'
      | glue i => cases hq'
      | prologue => exact hne rfl
      | epilogue => exact hapart l (decide_eq_true hl) (decide_eq_true hl')
    | epilogue =>
      cases q' with
      | body i => cases hq'
      | glue i => cases hq'
      | prologue => exact hapart l (decide_eq_true hl') (decide_eq_true hl)
      | epilogue => exact hne rfl

theorem nodup_iff : (boundLabelIds (m.allParts.flatMap (m.final segs))).Nodup ↔
    (∀ q ∈ m.allParts, (boundLabelIds (m.part q)).Nodup) ∧ ∀ l, m.binds l .prologue → ¬ m.binds l .epilogue := by
  rw [boundLabelIds_flatMap, List.nodup_flatMap]
  constructor
  · rintro ⟨hnodup, hdisj⟩
    refine ⟨fun q hq ↦ ?_, fun l hl hl' ↦ ?_⟩
    · have := hnodup q hq
      rw [boundLabelIds_final] at this
      exact this.of_map
    · rw [allParts, List.cons_append, List.pairwise_cons] at hdisj
      have := hdisj.1 .epilogue (by simp)
      change List.Disjoint (boundLabelIds _) (boundLabelIds _) at this
      rw [boundLabelIds_final, boundLabelIds_final] at this
      exact this (List.mem_map.mpr ⟨l, of_decide_eq_true hl, rfl⟩) (List.mem_map.mpr ⟨l, of_decide_eq_true hl', rfl⟩)
  · rintro ⟨hnodup, hapart⟩
    refine ⟨fun q hq ↦ ?_, m.nodup_allParts.pairwise_of_forall_ne fun q _ q' _ hne ↦ h.parts_apart hapart hne⟩
    rw [boundLabelIds_final]
    refine (hnodup q hq).map_on fun l hl l' hl' heq ↦ ?_
    exact (h.flatId_inj q q (decide_eq_true hl) (decide_eq_true hl') heq).1

omit h in
theorem bindPc?_isSome {ops : List IlOp} {l : ℕ} (hl : l ∈ boundLabelIds ops) : ∃ pc, bindPc? ops l = some pc := by
  induction ops with
  | nil => cases hl
  | cons op ops ih =>
    rw [bindPc?]
    split
    · exact ⟨0, rfl⟩
    · rename_i hop
      obtain ⟨op', hmem, hl'⟩ := List.mem_filterMap.mp hl
      rcases List.mem_cons.mp hmem with rfl | hmem
      · exact absurd hl' hop
      · obtain ⟨pc, hpc⟩ := ih (List.mem_filterMap.mpr ⟨op', hmem, hl'⟩)
        exact ⟨_, by rw [hpc]; rfl⟩

/-- A bound label stands in the stream where it stands in its part. -/
theorem bindPc?_final (hapart : ∀ l, m.binds l .prologue → ¬ m.binds l .epilogue) {b : Part × ℕ}
    (hb : m.binds b.2 b.1 = true) :
    bindPc? (m.allParts.flatMap (m.final segs)) (idOf segs b) = m.pcIn b.1 b.2 := by
  obtain ⟨q, l⟩ := b
  obtain ⟨before, after, hsplit, hbase⟩ := base_eq (mem_allParts_of_binds hb)
  have hnodup : (before ++ q :: after).Nodup := hsplit ▸ m.nodup_allParts
  have hbefore : bindPc? (before.flatMap (m.final segs)) (flatId segs q l) = none := by
    refine bindPc?_eq_none fun hmem ↦ ?_
    rw [boundLabelIds_flatMap, List.mem_flatMap] at hmem
    obtain ⟨q', hq', hv⟩ := hmem
    have hne : q' ≠ q := (List.nodup_append.mp hnodup).2.2 q' hq' q List.mem_cons_self
    refine h.parts_apart hapart hne hv ?_
    rw [boundLabelIds_final]
    exact List.mem_map.mpr ⟨l, of_decide_eq_true hb, rfl⟩
  have hhere : bindPc? (m.final segs q) (flatId segs q l) = bindPc? (m.part q) l :=
    bindPc?_map (m.emitsCode_finalOp segs q) (m.bindLabel_finalOp segs q) fun l' hl' heq ↦
      (h.flatId_inj q q (decide_eq_true hl') hb heq).1
  have hemits : emits (before.flatMap (m.final segs)) = emits (before.flatMap m.part) := by
    rw [emits, emits, code_flatMap, code_flatMap, List.length_flatMap, List.length_flatMap]
    congr 2
    funext q
    rw [code_final, List.length_map]
  obtain ⟨pc, hpc⟩ := bindPc?_isSome (of_decide_eq_true hb)
  show bindPc? _ (flatId segs q l) = m.pcIn q l
  rw [hsplit, List.flatMap_append, List.flatMap_cons, bindPc?_append, hbefore, Option.none_or, bindPc?_append, hhere,
    pcIn, hpc, hemits, hbase]
  rfl

omit h in
theorem kept_eq_none_of_pick {q : Part} {op : IlOp} {l : ℕ} (hp : m.pick q op l = none) : m.kept l = none := by
  rw [pick] at hp
  split at hp
  · rw [pickJump] at hp
    simp only [Option.or_eq_none_iff] at hp
    exact hp.2.2.1
  · rw [pickCall, Option.or_eq_none_iff] at hp
    obtain ⟨-, hp⟩ := hp
    split at hp
    · split at hp
      · exact hp
      · cases hp
    · split at hp
      · cases hp
      · exact hp

omit h in
theorem kept_binds {l : ℕ} {b : Part × ℕ} (hb : m.kept l = some b) : m.binds b.2 b.1 = true := by
  rw [kept] at hb
  split at hb
  · rename_i hp
    cases hb
    exact hp
  · split at hb
    · rename_i hp
      cases hb
      exact hp
    · cases hb

omit h in
theorem pick_binds {q : Part} {op : IlOp} {l : ℕ} {b : Part × ℕ} (hp : m.pick q op l = some b) :
    m.binds b.2 b.1 = true := by
  have hin : ∀ {is : List ℕ}, is.findSome? (m.inChunk l) = some b → m.binds b.2 b.1 = true := by
    intro is hb
    obtain ⟨i, -, hi⟩ := List.exists_of_findSome?_eq_some hb
    exact (inChunk_spec hi).2.1
  rw [pick] at hp
  split at hp
  · rw [pickJump] at hp
    rcases Option.or_eq_some_iff.mp hp with hp | ⟨-, hp⟩
    · exact (ownBinder_spec hp).2.1
    rcases Option.or_eq_some_iff.mp hp with hp | ⟨-, hp⟩
    · exact hin hp
    rcases Option.or_eq_some_iff.mp hp with hp | ⟨-, hp⟩
    · exact kept_binds hp
    rcases Option.or_eq_some_iff.mp hp with hp | ⟨-, hp⟩
    · obtain ⟨i, hi⟩ := jumpEntry_spec hp
      exact (inChunk_spec hi).2.1
    · exact hin hp
  · rw [pickCall] at hp
    rcases Option.or_eq_some_iff.mp hp with hp | ⟨-, hp⟩
    · exact (ownBinder_spec hp).2.1
    split at hp
    · rename_i hc
      split at hp
      · exact kept_binds hp
      · cases hp
        exact (callEntry_spec hc).2
    · split at hp
      · rename_i b' hf
        cases hp
        have hmem : b ∈ (List.range m.chunks.length).filterMap (m.inChunk l) := by
          rw [hf]
          exact List.mem_singleton_self b
        obtain ⟨i, -, hi⟩ := List.mem_filterMap.mp hmem
        exact (inChunk_spec hi).2.1
      · exact kept_binds hp

/-- A reference that picks no label names an id that the stream does not bind. -/
theorem bindPc?_unpicked {q : Part} {op : IlOp} {l : ℕ} (hl : l < start) (hp : m.pick q op l = none) :
    bindPc? (m.allParts.flatMap (m.final segs)) l = none := by
  refine bindPc?_eq_none fun hmem ↦ ?_
  rw [boundLabelIds_flatMap, List.mem_flatMap] at hmem
  obtain ⟨q', -, hv⟩ := hmem
  rw [boundLabelIds_final, List.mem_map] at hv
  obtain ⟨l', hl', heq⟩ := hv
  have hkept := kept_eq_none_of_pick hp
  cases hq : q'.chunk? with
  | some i =>
    have hle := h.le_idOf (b := (q', l')) hq (decide_eq_true hl')
    rw [idOf, heq] at hle
    omega
  | none =>
    rw [← Option.not_isSome_iff_eq_none, ← mem_kept, List.mem_append] at hkept
    cases q' with
    | body i => cases hq
    | glue i => cases hq
    | prologue =>
      cases heq
      exact hkept (.inl hl')
    | epilogue =>
      cases heq
      exact hkept (.inr hl')

/-- Where a reference of part `q` ends. -/
theorem bindPc?_target (hapart : ∀ l, m.binds l .prologue → ¬ m.binds l .epilogue) {q : Part} {op : IlOp} {l : ℕ}
    (hl : l < start) :
    bindPc? (m.allParts.flatMap (m.final segs)) (((m.pick q op l).map (idOf segs)).getD l) =
      (m.pick q op l).bind fun b ↦ m.pcIn b.1 b.2 := by
  cases hp : m.pick q op l with
  | some b => exact h.bindPc?_final hapart (pick_binds hp)
  | none => exact h.bindPc?_unpicked hl hp

end LinkedBy

/-! ### The whole link -/

theorem getElem?_code_final (m : IlModule) (segs : List Seg) {q : Part} (hq : q ∈ m.allParts) {n : ℕ} {op : IlOp}
    (hop : (code (m.part q))[n]? = some op) :
    (code (m.allParts.flatMap (m.final segs)))[m.base q + n]? = some (m.finalOp segs q op) := by
  obtain ⟨before, after, hsplit, hbase⟩ := base_eq hq
  have hemits : (code (before.flatMap (m.final segs))).length = m.base q := by
    rw [hbase, emits, code_flatMap, code_flatMap, List.length_flatMap, List.length_flatMap]
    congr 2
    funext q
    rw [code_final, List.length_map]
  rw [hsplit, List.flatMap_append, List.flatMap_cons, code_append, code_append,
    List.getElem?_append_right (by omega), hemits, Nat.add_sub_cancel_left, code_final,
    List.getElem?_append_left (by
      rw [List.length_map]
      exact (List.getElem?_eq_some_iff.mp hop).1),
    List.getElem?_map, hop]
  rfl

theorem sameCode_final (m : IlModule) (segs : List Seg) :
    (code (m.allParts.flatMap (m.final segs))).map IlOp.eraseTarget =
      (code (m.allParts.flatMap m.part)).map IlOp.eraseTarget := by
  rw [code_flatMap, code_flatMap, List.map_flatMap, List.map_flatMap]
  refine List.flatMap_congr fun q _ ↦ ?_
  rw [code_final, List.map_map]
  exact List.map_congr_left fun op hop ↦ m.eraseTarget_finalOp segs q (List.mem_filter.mp hop).2

/-- **Exactly when linking keeps every label's meaning.** The parts bind distinct labels, the prologue and the
epilogue share none, and the order of the tables sends each reference to the place it means. -/
theorem linked_iff (hash : HashOrder) (m : IlModule) (hfit : m.Fits) : m.Linked (m.intoFlat hash).1 ↔ m.Clean := by
  obtain ⟨s, segs, h, hout⟩ := intoFlat_eq hash hfit
  rw [hout, ← m.absorb_allParts]
  have hnodup := h.nodup_iff
  have hops : ∀ {q : Part} {op : IlOp} {l : ℕ}, op ∈ m.part q → op.target? = some l →
      op ∈ code (m.absorbTrailingLabels.part q) := by
    intro q op l hop hl
    rw [code_absorb]
    exact List.mem_filter.mpr ⟨hop, IlOp.emitsCode_of_target? hl⟩
  have hlt : ∀ {q : Part} {op : IlOp} {l : ℕ}, op ∈ code (m.absorbTrailingLabels.part q) → op.target? = some l →
      l < m.absorbTrailingLabels.maxCodeLabel + 1 := by
    intro q op l hop hl
    refine h.raw q op (List.mem_filter.mp hop).1 l ?_
    cases op <;> first | exact hl | cases hl
  constructor
  · intro hlinked
    obtain ⟨hdistinct, hapart⟩ := hnodup.mp hlinked.once
    refine ⟨fun q hq ↦ hdistinct q (by rwa [absorb_allParts]), hapart, fun q hq op hop l pc hl hpc ↦ ?_⟩
    have hcode := hops hop hl
    obtain ⟨n, hn⟩ := List.mem_iff_getElem?.mp hcode
    obtain ⟨op', l', hop', hl', hbind⟩ := hlinked.reaches q hq n op l pc (by rwa [← code_absorb]) hl hpc
    have hfinal := getElem?_code_final _ segs (by rwa [absorb_allParts]) hn
    rw [absorb_base hq, hop'] at hfinal
    cases hfinal
    rw [target?_finalOp _ _ _ hl] at hl'
    cases hl'
    rwa [h.bindPc?_target hapart (hlt hcode hl)] at hbind
  · intro hclean
    have hapart := hclean.apart
    refine ⟨hnodup.mpr ⟨fun q hq ↦ hclean.distinct q (by rwa [absorb_allParts] at hq), hapart⟩, ?_, ?_⟩
    · rw [sameCode_final, stream_eq, absorb_allParts, code_flatMap, code_flatMap]
      congr 2
      exact funext m.code_absorb
    · intro q hq n op l pc hn hl hpc
      have hop : op ∈ m.part q := (List.mem_filter.mp (List.mem_of_getElem? hn)).1
      rw [← code_absorb] at hn
      refine ⟨_, _, ?_, target?_finalOp m.absorbTrailingLabels segs q hl, ?_⟩
      · rw [← absorb_base hq]
        exact getElem?_code_final _ segs (by rwa [absorb_allParts]) hn
      · rw [h.bindPc?_target hapart (hlt (List.mem_of_getElem? hn) hl)]
        exact hclean.uncaptured q hq op hop l pc hl hpc

/-- The order of insertion. -/
def inOrder : HashOrder := ⟨id, fun l ↦ List.Perm.refl l⟩

/-- Two functions with a private label `7` each; the first calls the second. -/
def twoLoops : IlModule where
  prologue := [.entry .call 0 1 0]
  funcs := [⟨some 1, [.label 1, .label 7, .entry .call 0 2 0, .jump .jumpIfTrue 7 {}, .return 0]⟩,
    ⟨some 2, [.label 2, .label 7, .jump .jumpIfTrue 7 {}, .return 0]⟩]
  glue := []
  epilogue := []

theorem twoLoops_linked : twoLoops.Fits ∧ twoLoops.Linked (twoLoops.intoFlat inOrder).1 := by
  have hfit : twoLoops.Fits := by decide
  refine ⟨hfit, (linked_iff inOrder twoLoops hfit).mpr ⟨by decide, fun l hl ↦ ?_, ?_⟩⟩
  · cases of_decide_eq_true hl
  · have hall : ∀ q ∈ twoLoops.allParts, ∀ op ∈ twoLoops.part q, ∀ l ∈ op.target?.toList,
        ∀ pc ∈ (twoLoops.meant q l).toList,
        ((twoLoops.absorbTrailingLabels.pick q op l).bind fun b ↦ twoLoops.absorbTrailingLabels.pcIn b.1 b.2) =
          some pc := by decide
    intro q hq op hop l pc hl hpc
    exact hall q hq op hop l (Option.mem_toList.mpr hl) pc (Option.mem_toList.mpr hpc)

/-- A jump in the glue behind the second function to the entry of the third. -/
def capturedJump : IlModule where
  funcs := [⟨some 0, [.label 0, .label 5, .return 0]⟩, ⟨some 1, [.label 1, .return 0]⟩,
    ⟨some 5, [.label 5, .return 0]⟩]
  glue := [[], [.jump .unconditional 5 {}]]

/-- The jump ends in the first function, which uses `5` for a label of its own. -/
theorem capturedJump_not_linked : capturedJump.Fits ∧ ¬ capturedJump.Linked (capturedJump.intoFlat inOrder).1 := by
  refine ⟨by decide, fun hlinked ↦ ?_⟩
  obtain ⟨op, l, hop, hl, hbind⟩ := hlinked.reaches (.glue 1) (by decide) 0 (.jump .unconditional 5 {}) 5 3 (by decide)
    rfl (by decide)
  have hout : (code (capturedJump.intoFlat inOrder).1)[capturedJump.base (.glue 1) + 0]? =
      some (.jump .unconditional 7 {}) := by decide
  rw [hout] at hop
  cases hop
  cases hl
  revert hbind
  decide

end IlModule

end CoilLang.Il
