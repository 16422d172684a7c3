import CoilLang.Il.LinkInvariant

/-!
# The linker follows the order of its tables

After linking, each label has a flat id: a fresh one in a body or in glue, its own in the prologue and the
epilogue (`flatId`). The flat stream is the module with every label under its flat id and **every reference
under the flat id of the label it picks** (`link_eq`).
-/

namespace CoilLang.Il

open LabelMap

/-- The id of label `l` of part `q` in the flat stream. -/
def flatId (segs : List Seg) : Part → ℕ → ℕ
  | .body i, l => (segs[i]?.bind fun g ↦ g.map.get l).getD l
  | .glue i, l => (segs[i]?.bind fun g ↦ g.glueMap.get l).getD l
  | .prologue, l | .epilogue, l => l

/-- The id of a label that was picked, in part `q` under the name `l`. -/
def idOf (segs : List Seg) (b : Part × ℕ) : ℕ := flatId segs b.1 b.2

/-! ### Lists by index -/

theorem findSome?_congr {α β : Type} {l : List α} {f g : α → Option β} (h : ∀ a ∈ l, f a = g a) :
    l.findSome? f = l.findSome? g := by
  induction l with
  | nil => rfl
  | cons a l ih =>
    rw [List.findSome?_cons, List.findSome?_cons, h a List.mem_cons_self,
      ih fun b hb ↦ h b (List.mem_cons_of_mem _ hb)]

theorem map_some_eq_range {α : Type} (l : List α) : l.map some = (List.range l.length).map fun i ↦ l[i]? := by
  refine List.ext_getElem? fun i ↦ ?_
  rw [List.getElem?_map, List.getElem?_map]
  rcases Nat.lt_or_ge i l.length with hi | hi
  · rw [List.getElem?_range hi, List.getElem?_eq_getElem hi]
    simp [hi]
  · rw [List.getElem?_eq_none hi, List.getElem?_eq_none (by simpa using hi)]
    rfl

theorem findSome?_eq_range {α β : Type} (l : List α) (f : α → Option β) :
    l.findSome? f = (List.range l.length).findSome? fun i ↦ l[i]?.bind f := by
  have hmap : l.findSome? f = (l.map some).findSome? (·.bind f) := by
    rw [List.findSome?_map]
    rfl
  rw [hmap, map_some_eq_range, List.findSome?_map]
  rfl

theorem reverse_findSome?_eq_range {α β : Type} (l : List α) (f : α → Option β) :
    l.reverse.findSome? f = (List.range l.length).reverse.findSome? fun i ↦ l[i]?.bind f := by
  have hmap : l.reverse.findSome? f = (l.map some).reverse.findSome? (·.bind f) := by
    rw [← List.map_reverse, List.findSome?_map]
    rfl
  rw [hmap, map_some_eq_range, ← List.map_reverse, List.findSome?_map]
  rfl

theorem filterMap_eq_range {α β : Type} (l : List α) (f : α → Option β) :
    l.filterMap f = (List.range l.length).filterMap fun i ↦ l[i]?.bind f := by
  have hmap : l.filterMap f = (l.map some).filterMap (·.bind f) := by
    rw [List.filterMap_map]
    rfl
  rw [hmap, map_some_eq_range, List.filterMap_map]
  rfl

theorem flatMap_eq_range {α β : Type} (l : List α) (f : α → List β) :
    l.flatMap f = (List.range l.length).flatMap fun i ↦ (l[i]?.map f).getD [] := by
  have hmap : l.flatMap f = (l.map some).flatMap fun o ↦ (o.map f).getD [] := by
    rw [List.flatMap_map]
    rfl
  rw [hmap, map_some_eq_range, List.flatMap_map]

namespace IlModule

/-- An op of part `q` in the flat stream. -/
def finalOp (m : IlModule) (segs : List Seg) (q : Part) : IlOp → IlOp
  | .label l => .label (flatId segs q l)
  | .jump kind t hint => .jump kind (((m.pickJump q t).map (idOf segs)).getD t) hint
  | .entry kind arity t retWords => .entry kind arity (((m.pickCall q t).map (idOf segs)).getD t) retWords
  | op => op

/-- The tables `s` of all chunks of `m`. -/
structure LinkedBy (m : IlModule) (start : ℕ) (s : Linking) (segs : List Seg) : Prop where
  inv : s.Inv start segs
  chunks : segs.map Seg.chunk = m.chunks
  raw : ∀ q, ∀ op ∈ m.part q, ∀ t, codeLabelId op = some t → t < start

variable {m : IlModule} {start : ℕ} {s : Linking} {segs : List Seg}

namespace LinkedBy

variable (h : m.LinkedBy start s segs)
include h

theorem length_eq : segs.length = m.chunks.length := by
  rw [← h.chunks, List.length_map]

theorem getElem?_chunks (i : ℕ) : m.chunks[i]? = segs[i]?.map Seg.chunk := by
  rw [← h.chunks, List.getElem?_map]

theorem part_body {i : ℕ} {g : Seg} (hg : segs[i]? = some g) : m.part (.body i) = g.chunk.body := by
  rw [part, h.getElem?_chunks, hg]
  rfl

theorem part_glue {i : ℕ} {g : Seg} (hg : segs[i]? = some g) : m.part (.glue i) = g.chunk.glue := by
  rw [part, h.getElem?_chunks, hg]
  rfl

theorem binds_body {i : ℕ} {g : Seg} (hg : segs[i]? = some g) (l : ℕ) :
    m.binds l (.body i) = decide (l ∈ boundLabelIds g.chunk.body) := by
  rw [binds, h.part_body hg]

theorem binds_glue {i : ℕ} {g : Seg} (hg : segs[i]? = some g) (l : ℕ) :
    m.binds l (.glue i) = decide (l ∈ boundLabelIds g.chunk.glue) := by
  rw [binds, h.part_glue hg]

theorem ok {i : ℕ} {g : Seg} (hg : segs[i]? = some g) : g.Ok :=
  h.inv.ok g (List.mem_of_getElem? hg)

theorem part_none {i : ℕ} (hg : segs[i]? = none) : m.part (.body i) = [] ∧ m.part (.glue i) = [] := by
  have hnone : m.chunks[i]? = none := by rw [h.getElem?_chunks, hg]; rfl
  rw [part, part, hnone]
  exact ⟨rfl, rfl⟩

/-- The body's map is the id of what the chunk binds, the body's label first. -/
theorem map_get (i l : ℕ) : (segs[i]?.bind fun g ↦ g.map.get l) = (m.inChunk l i).map (idOf segs) := by
  rw [inChunk]
  cases hg : segs[i]? with
  | none =>
    obtain ⟨hb, hgl⟩ := h.part_none hg
    rw [binds, binds, hb, hgl]
    rfl
  | some g =>
    have hok := h.ok hg
    rw [h.binds_body hg, h.binds_glue hg, Option.bind_some]
    by_cases hb : l ∈ boundLabelIds g.chunk.body
    · obtain ⟨v, hv⟩ := Option.isSome_iff_exists.mp ((hok.dom l).mpr (.inl hb))
      simp [hb, idOf, flatId, hg, hv]
    · by_cases hgl : l ∈ boundLabelIds g.chunk.glue
      · obtain ⟨v, hv⟩ := Option.isSome_iff_exists.mp ((hok.dom l).mpr (.inr hgl))
        have hsame := hok.same l fun hboth ↦ hb hboth.1
        simp [hb, hgl, idOf, flatId, hg, hsame, hv]
      · have hnone : g.map.get l = none := by
          rw [← Option.not_isSome_iff_eq_none, hok.dom]
          exact fun hor ↦ hor.elim hb hgl
        simp [hb, hgl, hnone]

/-- The glue's map is the id of what the chunk binds, the glue's label first. -/
theorem glueMap_get {i : ℕ} {g : Seg} (hg : segs[i]? = some g) (l : ℕ) :
    g.glueMap.get l = (m.ownBinder (.glue i) l).map (idOf segs) := by
  have hok := h.ok hg
  rw [ownBinder, Part.own, List.find?, h.binds_glue hg]
  by_cases hgl : l ∈ boundLabelIds g.chunk.glue
  · obtain ⟨v, hv⟩ := Option.isSome_iff_exists.mp ((hok.glueDom l).mpr (.inr hgl))
    simp [hgl, idOf, flatId, hg, hv]
  · rw [List.find?, h.binds_body hg]
    by_cases hb : l ∈ boundLabelIds g.chunk.body
    · obtain ⟨v, hv⟩ := Option.isSome_iff_exists.mp ((hok.dom l).mpr (.inl hb))
      have hsame := hok.same l fun hboth ↦ hgl hboth.2
      simp [hgl, hb, idOf, flatId, hg, hsame, hv]
    · have hnone : g.glueMap.get l = none := by
        rw [← Option.not_isSome_iff_eq_none, hok.glueDom]
        exact fun hor ↦ hor.elim hb hgl
      simp [hgl, hb, hnone]

omit h in
theorem ownBinder_body (i l : ℕ) : m.ownBinder (.body i) l = m.inChunk l i := by
  rw [ownBinder, Part.own, inChunk]
  cases hb : m.binds l (.body i) <;> cases hg : m.binds l (.glue i) <;> simp [hb, hg]

theorem priorOf_take (i : ℕ) (hi : i ≤ segs.length) (l : ℕ) :
    priorOf (segs.take i) l = ((List.range i).findSome? (m.inChunk l)).map (idOf segs) := by
  rw [priorOf, findSome?_eq_range, List.length_take, Nat.min_eq_left hi, List.map_findSome?]
  refine findSome?_congr fun j hj ↦ ?_
  rw [List.getElem?_take_of_lt (List.mem_range.mp hj)]
  exact h.map_get j l

theorem priorOf_eq (l : ℕ) :
    priorOf segs l = ((List.range m.chunks.length).findSome? (m.inChunk l)).map (idOf segs) := by
  rw [← h.length_eq, ← h.priorOf_take segs.length le_rfl, List.take_length]

/-! ### The entries -/

theorem ownerOf_cases (l i : ℕ) :
    (s.ownerOf l i = none ∧ m.inChunk l i = none) ∨
      ∃ map b, s.ownerOf l i = some map ∧ m.inChunk l i = some b ∧ map.get l = some (idOf segs b) := by
  rw [Linking.ownerOf, inChunk, h.inv.bodyBound, h.inv.glueBound, h.inv.maps, h.inv.glueMaps]
  simp only [List.getD_eq_getElem?_getD, List.getElem?_map]
  cases hg : segs[i]? with
  | none =>
    obtain ⟨hb, hgl⟩ := h.part_none hg
    rw [binds, binds, hb, hgl]
    exact .inl ⟨rfl, rfl⟩
  | some g =>
    have hok := h.ok hg
    rw [h.binds_body hg, h.binds_glue hg]
    simp only [Option.map_some, Option.getD_some, decide_eq_true_eq]
    by_cases hb : l ∈ boundLabelIds g.chunk.body
    · obtain ⟨v, hv⟩ := Option.isSome_iff_exists.mp ((hok.dom l).mpr (.inl hb))
      rw [if_pos hb, if_pos hb]
      exact .inr ⟨_, _, rfl, rfl, by simp [idOf, flatId, hg, hv]⟩
    · rw [if_neg hb, if_neg hb]
      by_cases hgl : l ∈ boundLabelIds g.chunk.glue
      · obtain ⟨v, hv⟩ := Option.isSome_iff_exists.mp ((hok.glueDom l).mpr (.inr hgl))
        rw [if_pos hgl, if_pos hgl]
        exact .inr ⟨_, _, rfl, rfl, by simp [idOf, flatId, hg, hv]⟩
      · rw [if_neg hgl, if_neg hgl]
        exact .inl ⟨rfl, rfl⟩

theorem jumpEntry_eq (k l : ℕ) : s.jumpEntry k l =
    ((if k = 0 then [k] else [k, k - 1]).findSome? (m.inChunk l)).map (idOf segs) := by
  rw [Linking.jumpEntry]
  generalize (if k = 0 then [k] else [k, k - 1]) = candidates
  induction candidates with
  | nil => rfl
  | cons i candidates ih =>
    rw [List.findSome?_cons, List.findSome?_cons]
    rcases h.ownerOf_cases l i with ⟨ho, hi⟩ | ⟨map, b, ho, hi, hget⟩
    · rw [ho, hi]
      exact ih
    · rw [ho, hi]
      exact hget

omit h in
theorem get_jumpEntries (cs : List Chunk) (k : ℕ) (t : LabelMap) (l : ℕ) :
    (s.jumpEntries k cs t).get l =
      ((List.range cs.length).reverse.findSome? fun j ↦
        if (cs[j]?.bind Chunk.entry) = some l then s.jumpEntry (k + j) l else none).or (t.get l) := by
  induction cs generalizing k t with
  | nil => rfl
  | cons c cs ih =>
    have hfirst : (if c.entry = some l then c.entry.bind (s.jumpEntry k) else none) =
        if c.entry = some l then s.jumpEntry k l else none := by
      split
      · rename_i he
        rw [he, Option.bind_some]
      · rfl
    rw [Linking.jumpEntries, ih, get_recordEntry, hfirst, List.length_cons, List.range_succ_eq_map, List.reverse_cons,
      List.findSome?_append, ← List.map_reverse, List.findSome?_map, Option.or_assoc]
    congr 1
    · refine findSome?_congr fun j _ ↦ ?_
      simp [Nat.add_assoc, Nat.add_comm 1]
    · simp

theorem jumpEntries_eq (l : ℕ) : (s.jumpEntries 0 m.chunks []).get l = (m.jumpEntry l).map (idOf segs) := by
  rw [get_jumpEntries, get_nil, Option.or_none, IlModule.jumpEntry, List.map_findSome?]
  refine findSome?_congr fun k _ ↦ ?_
  rw [Nat.zero_add, h.jumpEntry_eq, Function.comp_apply, entryOf]
  split
  · rfl
  · rfl

theorem firstLabel_eq {i : ℕ} {g : Seg} (hg : segs[i]? = some g) :
    g.firstLabel = (m.firstLabel i).map (idOf segs) := by
  have hok := h.ok hg
  rw [Seg.firstLabel, IlModule.firstLabel, h.part_body hg, h.part_glue hg, Option.map_or, Option.map_map,
    Option.map_map]
  congr 1
  · cases hids : (boundLabelIds g.chunk.body).head? with
    | none => rfl
    | some l =>
      obtain ⟨v, hv⟩ := Option.isSome_iff_exists.mp ((hok.dom l).mpr (.inl (List.mem_of_head? hids)))
      simp [idOf, flatId, hg, hv]
  · cases hids : (boundLabelIds g.chunk.glue).head? with
    | none => rfl
    | some l =>
      obtain ⟨v, hv⟩ := Option.isSome_iff_exists.mp ((hok.glueDom l).mpr (.inr (List.mem_of_head? hids)))
      simp [idOf, flatId, hg, hv]

theorem entries_eq (l : ℕ) : s.entries.get l = (m.callEntry l).map (idOf segs) := by
  rw [h.inv.entries, callEntry, Option.map_or, List.map_findSome?, List.map_findSome?, ← h.length_eq,
    reverse_findSome?_eq_range, findSome?_eq_range segs]
  congr 1
  · refine findSome?_congr fun k hk ↦ ?_
    have hk : k < segs.length := by simpa using hk
    obtain ⟨g, hg⟩ : ∃ g, segs[k]? = some g := ⟨_, List.getElem?_eq_getElem hk⟩
    have hentry : m.entryOf k = g.chunk.entry := by
      rw [entryOf, h.getElem?_chunks, hg]
      rfl
    have hmap := h.map_get k l
    rw [hg, Option.bind_some] at hmap ⊢
    rw [Seg.entryId, Function.comp_apply, hentry]
    split
    · rw [Option.map_or, ← hmap, ← h.firstLabel_eq hg]
    · rfl
  · refine findSome?_congr fun k hk ↦ ?_
    have hk : k < segs.length := List.mem_range.mp hk
    obtain ⟨g, hg⟩ : ∃ g, segs[k]? = some g := ⟨_, List.getElem?_eq_getElem hk⟩
    have hok := h.ok hg
    rw [hg, Option.bind_some, Seg.glueId, Function.comp_apply, h.binds_glue hg]
    by_cases hgl : l ∈ boundLabelIds g.chunk.glue
    · obtain ⟨v, hv⟩ := Option.isSome_iff_exists.mp ((hok.glueDom l).mpr (.inr hgl))
      simp [hgl, idOf, flatId, hg, hv]
    · simp [hgl]

theorem maps_eq (l : ℕ) : s.maps.filterMap (·.get l) =
    ((List.range m.chunks.length).filterMap (m.inChunk l)).map (idOf segs) := by
  rw [h.inv.maps, List.filterMap_map, filterMap_eq_range, h.length_eq, List.map_filterMap]
  refine List.filterMap_congr fun i _ ↦ ?_
  exact h.map_get i l

/-! ### Ids of picked labels -/

omit h in
theorem inChunk_spec {l i : ℕ} {b : Part × ℕ} (hb : m.inChunk l i = some b) :
    b.1.chunk? = some i ∧ m.binds b.2 b.1 = true ∧ b.2 = l := by
  rw [inChunk] at hb
  split at hb
  · rename_i hbody
    cases hb
    exact ⟨rfl, hbody, rfl⟩
  · split at hb
    · rename_i hglue
      cases hb
      exact ⟨rfl, hglue, rfl⟩
    · cases hb

omit h in
theorem firstLabel_spec {i : ℕ} {b : Part × ℕ} (hb : m.firstLabel i = some b) :
    b.1.chunk? = some i ∧ m.binds b.2 b.1 = true := by
  rw [IlModule.firstLabel] at hb
  rcases Option.or_eq_some_iff.mp hb with hb | ⟨-, hb⟩
  · obtain ⟨l, hl, rfl⟩ := Option.map_eq_some_iff.mp hb
    exact ⟨rfl, decide_eq_true (List.mem_of_head? hl)⟩
  · obtain ⟨l, hl, rfl⟩ := Option.map_eq_some_iff.mp hb
    exact ⟨rfl, decide_eq_true (List.mem_of_head? hl)⟩

omit h in
theorem callEntry_spec {l : ℕ} {b : Part × ℕ} (hb : m.callEntry l = some b) :
    (∃ i, b.1.chunk? = some i) ∧ m.binds b.2 b.1 = true := by
  rw [callEntry] at hb
  rcases Option.or_eq_some_iff.mp hb with hb | ⟨-, hb⟩
  · obtain ⟨k, -, hk⟩ := List.exists_of_findSome?_eq_some hb
    split at hk
    · rcases Option.or_eq_some_iff.mp hk with hk | ⟨-, hk⟩
      · exact ⟨⟨k, (inChunk_spec hk).1⟩, (inChunk_spec hk).2.1⟩
      · exact ⟨⟨k, (firstLabel_spec hk).1⟩, (firstLabel_spec hk).2⟩
    · cases hk
  · obtain ⟨k, -, hk⟩ := List.exists_of_findSome?_eq_some hb
    split at hk
    · rename_i hglue
      cases hk
      exact ⟨⟨k, rfl⟩, hglue⟩
    · cases hk

omit h in
theorem jumpEntry_spec {l : ℕ} {b : Part × ℕ} (hb : m.jumpEntry l = some b) : ∃ i, m.inChunk l i = some b := by
  rw [IlModule.jumpEntry] at hb
  obtain ⟨k, -, hk⟩ := List.exists_of_findSome?_eq_some hb
  split at hk
  · obtain ⟨i, -, hi⟩ := List.exists_of_findSome?_eq_some hk
    exact ⟨i, hi⟩
  · cases hk

omit h in
theorem kept_spec {l : ℕ} {b : Part × ℕ} (hb : m.kept l = some b) : idOf segs b = l ∧ b.2 = l := by
  rw [kept] at hb
  split at hb
  · cases hb
    exact ⟨rfl, rfl⟩
  · split at hb
    · cases hb
      exact ⟨rfl, rfl⟩
    · cases hb

/-- The id of a label in a chunk is one of its segment's. -/
theorem idOf_has {b : Part × ℕ} {i : ℕ} (hi : b.1.chunk? = some i) (hb : m.binds b.2 b.1 = true) :
    ∃ g, segs[i]? = some g ∧ idOf segs b ∈ boundLabelIds g.ops ∧ g.Has (idOf segs b) := by
  obtain ⟨q, l⟩ := b
  have hmem := of_decide_eq_true hb
  cases hg : segs[i]? with
  | none =>
    obtain ⟨hbody, hglue⟩ := h.part_none hg
    cases q with
    | body j =>
      cases hi
      rw [hbody] at hmem
      cases hmem
    | glue j =>
      cases hi
      rw [hglue] at hmem
      cases hmem
    | prologue => cases hi
    | epilogue => cases hi
  | some g =>
    have hok := h.ok hg
    have hops : boundLabelIds g.ops =
        (boundLabelIds g.chunk.body).map (fun l ↦ (g.map.get l).getD l) ++
          (boundLabelIds g.chunk.glue).map fun l ↦ (g.glueMap.get l).getD l := by
      rw [Seg.ops, boundLabelIds_append, boundLabelIds_remap, boundLabelIds_remap]
    refine ⟨g, rfl, ?_, ?_⟩
    · rw [hops, List.mem_append, List.mem_map, List.mem_map]
      cases q with
      | body j =>
        cases hi
        rw [h.part_body hg] at hmem
        exact .inl ⟨l, hmem, by simp [idOf, flatId, hg]⟩
      | glue j =>
        cases hi
        rw [h.part_glue hg] at hmem
        exact .inr ⟨l, hmem, by simp [idOf, flatId, hg]⟩
      | prologue => cases hi
      | epilogue => cases hi
    · cases q with
      | body j =>
        cases hi
        rw [h.part_body hg] at hmem
        obtain ⟨v, hv⟩ := Option.isSome_iff_exists.mp ((hok.dom l).mpr (.inl hmem))
        exact .inl ⟨l, by simp [idOf, flatId, hg, hv]⟩
      | glue j =>
        cases hi
        rw [h.part_glue hg] at hmem
        obtain ⟨v, hv⟩ := Option.isSome_iff_exists.mp ((hok.glueDom l).mpr (.inr hmem))
        exact .inr ⟨l, by simp [idOf, flatId, hg, hv]⟩
      | prologue => cases hi
      | epilogue => cases hi

theorem le_idOf {b : Part × ℕ} {i : ℕ} (hi : b.1.chunk? = some i) (hb : m.binds b.2 b.1 = true) :
    start ≤ idOf segs b := by
  obtain ⟨g, hg, -, hhas⟩ := h.idOf_has hi hb
  exact (h.inv.range g (List.mem_of_getElem? hg) _ hhas).1

theorem bound_lt {q : Part} {l : ℕ} (hb : m.binds l q = true) : l < start := by
  obtain ⟨op, hop, hl⟩ := List.mem_filterMap.mp (of_decide_eq_true hb)
  refine h.raw q op hop l ?_
  cases op <;> first | exact hl | cases hl

/-- A fresh id is not an old one. -/
theorem inChunk_fresh {v : ℕ} (hv : start ≤ v) (i : ℕ) : m.inChunk v i = none := by
  cases hi : m.inChunk v i with
  | none => rfl
  | some b =>
    obtain ⟨-, hb, hbl⟩ := inChunk_spec hi
    have := h.bound_lt hb
    omega

theorem seg_apart {i j : ℕ} {g g' : Seg} (hg : segs[i]? = some g) (hg' : segs[j]? = some g') {v : ℕ}
    (hv : g.Has v) (hv' : g'.Has v) : i = j := by
  obtain ⟨hi, rfl⟩ := List.getElem?_eq_some_iff.mp hg
  obtain ⟨hj, rfl⟩ := List.getElem?_eq_some_iff.mp hg'
  rcases Nat.lt_trichotomy i j with hlt | heq | hgt
  · exact absurd hv' (List.pairwise_iff_getElem.mp h.inv.apart i j hi hj hlt v hv)
  · exact heq
  · exact absurd hv (List.pairwise_iff_getElem.mp h.inv.apart j i hj hi hgt v hv')

theorem has_of_mem_ops {i : ℕ} {g : Seg} (hg : segs[i]? = some g) {v : ℕ} (hv : v ∈ boundLabelIds g.ops) :
    g.Has v := by
  have hok := h.ok hg
  rw [Seg.ops, boundLabelIds_append, boundLabelIds_remap, boundLabelIds_remap, List.mem_append, List.mem_map,
    List.mem_map] at hv
  rcases hv with ⟨l, hl, rfl⟩ | ⟨l, hl, rfl⟩
  · obtain ⟨v, hv⟩ := Option.isSome_iff_exists.mp ((hok.dom l).mpr (.inl hl))
    exact .inl ⟨l, by rw [hv]; rfl⟩
  · obtain ⟨v, hv⟩ := Option.isSome_iff_exists.mp ((hok.glueDom l).mpr (.inr hl))
    exact .inr ⟨l, by rw [hv]; rfl⟩

/-! ### References -/

/-- The merged map at the end. -/
def mergedPrior (m : IlModule) (s : Linking) : LabelMap :=
  keepIds (boundLabelIds m.prologue ++ boundLabelIds m.epilogue) s.prior

/-- What `here` holds for a segment of part `q`: the ids of its own chunk, or its own old ids. -/
structure Here (m : IlModule) (start : ℕ) (segs : List Seg) (q : Part) (here : List ℕ) : Prop where
  chunk : ∀ (b : Part × ℕ) (j : ℕ), m.binds b.2 b.1 = true → b.1.chunk? = some j →
    (idOf segs b ∈ here ↔ q.chunk? = some j)
  old : ∀ t < start, t ∈ here → m.ownBinder q t ≠ none

theorem get_prior (l : ℕ) : (mergedPrior m s).get l =
    if l ∈ boundLabelIds m.prologue ++ boundLabelIds m.epilogue then some l
    else ((List.range m.chunks.length).findSome? (m.inChunk l)).map (idOf segs) := by
  rw [mergedPrior, get_keepIds, h.inv.prior, h.priorOf_eq]

omit h in
theorem mem_kept {l : ℕ} :
    l ∈ boundLabelIds m.prologue ++ boundLabelIds m.epilogue ↔ (m.kept l).isSome := by
  rw [List.mem_append, kept]
  by_cases hp : l ∈ boundLabelIds m.prologue
  · simp [hp, binds, part]
  · by_cases he : l ∈ boundLabelIds m.epilogue <;> simp [hp, he, binds, part]

theorem firstChunk_le {l : ℕ} {is : List ℕ} {b : Part × ℕ} (hb : is.findSome? (m.inChunk l) = some b) :
    start ≤ idOf segs b := by
  obtain ⟨i, -, hi⟩ := List.exists_of_findSome?_eq_some hb
  obtain ⟨hq, hbound, -⟩ := inChunk_spec hi
  exact h.le_idOf hq hbound

theorem mem_flatIds {t : ℕ} (ht : t < start) : t ∈ (mergedPrior m s).values ↔ (m.kept t).isSome := by
  rw [mem_values, ← mem_kept]
  constructor
  · rintro ⟨k, hk⟩
    rw [h.get_prior] at hk
    split at hk
    · cases hk
      assumption
    · obtain ⟨b, hb, rfl⟩ := Option.map_eq_some_iff.mp hk
      have := h.firstChunk_le hb
      omega
  · intro hmem
    exact ⟨t, by rw [h.get_prior, if_pos hmem]⟩

/-- A jump that already has a fresh id keeps it. -/
theorem patchJump_fresh {v : ℕ} (hv : start ≤ v) (here : List ℕ) (kind : IlJumpKind) (hint : FuseHint) :
    patchJump (mergedPrior m s) (s.jumpEntries 0 m.chunks []) (mergedPrior m s).values here (.jump kind v hint) =
      .jump kind v hint := by
  have hnone : ∀ is : List ℕ, is.findSome? (m.inChunk v) = none := fun is ↦
    List.findSome?_eq_none_iff.mpr fun i _ ↦ h.inChunk_fresh hv i
  have hentry : (s.jumpEntries 0 m.chunks []).get v = none := by
    rw [h.jumpEntries_eq]
    cases hj : m.jumpEntry v with
    | none => rfl
    | some b =>
      obtain ⟨i, hi⟩ := jumpEntry_spec hj
      rw [h.inChunk_fresh hv] at hi
      cases hi
  have hprior : (mergedPrior m s).get v = none := by
    rw [h.get_prior, hnone, if_neg]
    · rfl
    · intro hmem
      rcases List.mem_append.mp hmem with hmem | hmem
      · have := h.bound_lt (q := .prologue) (decide_eq_true hmem)
        omega
      · have := h.bound_lt (q := .epilogue) (decide_eq_true hmem)
        omega
  rw [patchJump, hentry, hprior]
  split
  · rfl
  · split <;> rfl

/-- A jump to a label of another part. -/
theorem patchJump_foreign {q : Part} {here : List ℕ} (hhere : Here m start segs q here) {t : ℕ} (ht : t < start)
    (hown : m.ownBinder q t = none) (hchunk : ∀ i, q.chunk? = some i → m.inChunk t i = none)
    (kind : IlJumpKind) (hint : FuseHint) :
    patchJump (mergedPrior m s) (s.jumpEntries 0 m.chunks []) (mergedPrior m s).values here (.jump kind t hint) =
      .jump kind ((((m.kept t).or <| (m.jumpEntry t).or <|
        (List.range m.chunks.length).findSome? (m.inChunk t)).map (idOf segs)).getD t) hint := by
  have hnot : t ∉ here := fun hmem ↦ hhere.old t ht hmem hown
  rw [patchJump, if_neg hnot]
  cases hk : m.kept t with
  | some b =>
    rw [if_pos ((h.mem_flatIds ht).mpr (by rw [hk]; rfl)), Option.some_or, Option.map_some, Option.getD_some,
      (kept_spec hk).1]
  | none =>
    have hflat : t ∉ (mergedPrior m s).values := fun hmem ↦ by
      have := (h.mem_flatIds ht).mp hmem
      rw [hk] at this
      cases this
    rw [if_neg hflat, h.jumpEntries_eq, Option.none_or]
    cases hj : m.jumpEntry t with
    | some b => rfl
    | none =>
      have hprior : (mergedPrior m s).get t =
          ((List.range m.chunks.length).findSome? (m.inChunk t)).map (idOf segs) := by
        rw [h.get_prior, if_neg]
        rw [mem_kept, hk]
        exact Bool.false_ne_true
      rw [hprior, Option.none_or]
      cases hf : (List.range m.chunks.length).findSome? (m.inChunk t) with
      | none => rfl
      | some b =>
        obtain ⟨i, -, hi⟩ := List.exists_of_findSome?_eq_some hf
        obtain ⟨hq, hbound, -⟩ := inChunk_spec hi
        have hle := h.le_idOf hq hbound
        have hout : idOf segs b ∉ here := by
          rw [hhere.chunk b i hbound hq]
          intro hqi
          rw [hchunk i hqi] at hi
          cases hi
        exact if_pos ⟨by omega, hout⟩

/-- A call of a label of another part. -/
theorem patchCall_foreign {q : Part} {here : List ℕ} (hhere : Here m start segs q here) {t : ℕ} (ht : t < start)
    (hown : m.ownBinder q t = none) (hchunk : ∀ i, q.chunk? = some i → m.inChunk t i = none)
    (kind : EntryKind) (arity retWords : UInt32) :
    patchCall s.maps s.entries here (.entry kind arity t retWords) =
      .entry kind arity (((m.pickCall q t).map (idOf segs)).getD t) retWords := by
  have hnot : t ∉ here := fun hmem ↦ hhere.old t ht hmem hown
  have hkept : ((m.kept t).map (idOf segs)).getD t = t := by
    cases hk : m.kept t with
    | none => rfl
    | some b => exact (kept_spec hk).1
  rw [patchCall, if_neg hnot, resolveCrossFunctionEntry, h.entries_eq, pickCall, hown, Option.none_or]
  cases hc : m.callEntry t with
  | some b =>
    obtain ⟨⟨i, hi⟩, hbound⟩ := callEntry_spec hc
    have hle := h.le_idOf hi hbound
    have hiff := hhere.chunk b i hbound hi
    show (if idOf segs b ≠ t ∧ idOf segs b ∉ here then _ else _) = _
    by_cases hq : b.1.chunk? = q.chunk?
    · rw [if_neg fun hand ↦ hand.2 (hiff.mpr (hq ▸ hi))]
      show _ = IlOp.entry kind arity (((if b.1.chunk? = q.chunk? then m.kept t else some b).map _).getD t) retWords
      rw [if_pos hq, hkept]
    · rw [if_pos ⟨by omega, fun hmem ↦ hq (hi.trans (hiff.mp hmem).symm)⟩]
      show _ = IlOp.entry kind arity (((if b.1.chunk? = q.chunk? then m.kept t else some b).map _).getD t) retWords
      rw [if_neg hq]
      rfl
  | none =>
    rw [Option.map_none]
    dsimp only
    rw [h.maps_eq]
    cases hf : (List.range m.chunks.length).filterMap (m.inChunk t) with
    | nil => exact congrArg (IlOp.entry kind arity · retWords) hkept.symm
    | cons b bs =>
      cases bs with
      | cons b' bs => exact congrArg (IlOp.entry kind arity · retWords) hkept.symm
      | nil =>
        have hb : b ∈ (List.range m.chunks.length).filterMap (m.inChunk t) := by
          rw [hf]
          exact List.mem_singleton_self b
        obtain ⟨i, -, hi⟩ := List.mem_filterMap.mp hb
        obtain ⟨hq, hbound, -⟩ := inChunk_spec hi
        have hle := h.le_idOf hq hbound
        have hout : idOf segs b ∉ here := by
          rw [hhere.chunk b i hbound hq]
          intro hqi
          rw [hchunk i hqi] at hi
          cases hi
        exact if_pos ⟨by omega, hout⟩

/-! ### Parts -/

omit h in
theorem ownBinder_spec {q : Part} {l : ℕ} {b : Part × ℕ} (hb : m.ownBinder q l = some b) :
    b.1.chunk? = q.chunk? ∧ m.binds b.2 b.1 = true ∧ b.2 = l := by
  rw [ownBinder] at hb
  obtain ⟨q', hq', rfl⟩ := Option.map_eq_some_iff.mp hb
  refine ⟨?_, List.find?_some hq', rfl⟩
  have hmem := List.mem_of_find?_eq_some hq'
  cases q <;> simp [Part.own] at hmem
  case prologue | epilogue => rw [hmem]
  all_goals
    rcases hmem with rfl | rfl <;> rfl

omit h in
theorem inChunk_none {q : Part} {t i : ℕ} (hown : m.ownBinder q t = none) (hq : q.chunk? = some i) :
    m.inChunk t i = none := by
  rw [ownBinder, Option.map_eq_none_iff, List.find?_eq_none] at hown
  have hboth : m.binds t (.body i) = false ∧ m.binds t (.glue i) = false := by
    cases q <;> simp [Part.chunk?] at hq
    all_goals
      subst hq
      simpa [Part.own, and_comm] using hown
  rw [inChunk, hboth.1, hboth.2]
  rfl

theorem here_ops {i : ℕ} {g : Seg} (hg : segs[i]? = some g) {q : Part} (hq : q.chunk? = some i) :
    Here m start segs q (boundLabelIds g.ops) := by
  refine ⟨fun b j hb hj ↦ ?_, fun t ht hmem ↦ ?_⟩
  · obtain ⟨g', hg', hmem, hhas⟩ := h.idOf_has hj hb
    rw [hq]
    constructor
    · intro hops
      rw [h.seg_apart hg hg' (h.has_of_mem_ops hg hops) hhas]
    · intro hij
      cases hij
      rw [hg] at hg'
      cases hg'
      exact hmem
  · have := (h.inv.range g (List.mem_of_getElem? hg) t (h.has_of_mem_ops hg hmem)).1
    omega

theorem here_kept {q : Part} (hq : q.chunk? = none) : Here m start segs q (boundLabelIds (m.part q)) := by
  refine ⟨fun b j hb hj ↦ ?_, fun t _ hmem ↦ ?_⟩
  · rw [hq]
    refine ⟨fun hmem ↦ ?_, fun hno ↦ by cases hno⟩
    have hlt := h.bound_lt (q := q) (decide_eq_true hmem)
    have hle := h.le_idOf hj hb
    omega
  · cases q with
    | prologue => simp [ownBinder, Part.own, binds, hmem]
    | epilogue => simp [ownBinder, Part.own, binds, hmem]
    | body i => cases hq
    | glue i => cases hq

/-- An op of a chunk, renamed by the map of its own side and patched. -/
theorem patch_remapOp {i : ℕ} {g : Seg} (hg : segs[i]? = some g) {q : Part} {map : LabelMap}
    (hq : q.chunk? = some i) (hown : ∀ t, map.get t = (m.ownBinder q t).map (idOf segs))
    (hlabel : ∀ l, flatId segs q l = (map.get l).getD l) {op : IlOp} (hop : op ∈ m.part q) :
    patchCall s.maps s.entries (boundLabelIds g.ops)
      (patchJump (mergedPrior m s) (s.jumpEntries 0 m.chunks []) (mergedPrior m s).values
        (boundLabelIds g.ops) (remapOp map g.prior op)) = m.finalOp segs q op := by
  have hhere := h.here_ops hg hq
  have hi : i ≤ segs.length := (List.getElem?_eq_some_iff.mp hg).1.le
  have hpick : ∀ (t : ℕ) (b : Part × ℕ), m.ownBinder q t = some b →
      start ≤ idOf segs b ∧ idOf segs b ∈ boundLabelIds g.ops := by
    intro t b hb
    obtain ⟨hchunk, hbound, -⟩ := ownBinder_spec hb
    rw [hq] at hchunk
    exact ⟨h.le_idOf hchunk hbound, (hhere.chunk b i hbound hchunk).mpr hq⟩
  have hchunk : ∀ t, m.ownBinder q t = none → ∀ j, q.chunk? = some j → m.inChunk t j = none :=
    fun t ht j hj ↦ inChunk_none ht hj
  cases op with
  | label l => exact congrArg IlOp.label (hlabel l).symm
  | jump kind t hint =>
    have ht : t < start := h.raw q _ hop t rfl
    rw [remapOp, finalOp, pickJump, hown, h.inv.priors i g hg, h.priorOf_take i hi, hq, Option.getD_some]
    cases ho : m.ownBinder q t with
    | some b =>
      show patchCall _ _ _ (patchJump _ _ _ _ (.jump kind (idOf segs b) hint)) = _
      rw [h.patchJump_fresh (hpick t b ho).1]
      rfl
    | none =>
      rw [Option.map_none, Option.none_or, Option.none_or]
      cases hf : (List.range i).findSome? (m.inChunk t) with
      | some b =>
        show patchCall _ _ _ (patchJump _ _ _ _ (.jump kind (idOf segs b) hint)) = _
        rw [h.patchJump_fresh (h.firstChunk_le hf)]
        rfl
      | none =>
        show patchCall _ _ _ (patchJump _ _ _ _ (.jump kind t hint)) = _
        rw [h.patchJump_foreign hhere ht ho (hchunk t ho)]
        rfl
  | entry kind arity t retWords =>
    have ht : t < start := h.raw q _ hop t rfl
    rw [remapOp, finalOp, hown]
    cases ho : m.ownBinder q t with
    | some b =>
      show patchCall _ _ _ (.entry kind arity (idOf segs b) retWords) = _
      rw [patchCall, if_pos (hpick t b ho).2, pickCall, ho]
      rfl
    | none => exact h.patchCall_foreign hhere ht ho (hchunk t ho) kind arity retWords
  | _ => rfl

/-- An op of the prologue or the epilogue. -/
theorem patch_kept {q : Part} (hq : q.chunk? = none) {op : IlOp} (hop : op ∈ m.part q) :
    patchCall s.maps s.entries (boundLabelIds (m.part q))
      (patchJump (mergedPrior m s) (s.jumpEntries 0 m.chunks []) (mergedPrior m s).values
        (boundLabelIds (m.part q)) op) = m.finalOp segs q op := by
  have hhere := h.here_kept hq
  have hchunk : ∀ t, ∀ j, q.chunk? = some j → m.inChunk t j = none := fun t j hj ↦ by
    rw [hq] at hj
    cases hj
  have hflat : ∀ l, flatId segs q l = l := by
    intro l
    cases q <;> first | rfl | cases hq
  have hself : ∀ (t : ℕ) (b : Part × ℕ), m.ownBinder q t = some b →
      idOf segs b = t ∧ t ∈ boundLabelIds (m.part q) := by
    intro t b hb
    rw [ownBinder] at hb
    obtain ⟨q', hq', rfl⟩ := Option.map_eq_some_iff.mp hb
    have hb : m.binds t q' = true := List.find?_some hq'
    have hbind := of_decide_eq_true hb
    have hmem := List.mem_of_find?_eq_some hq'
    cases q with
    | body i => cases hq
    | glue i => cases hq
    | prologue =>
      obtain rfl := List.mem_singleton.mp hmem
      exact ⟨rfl, hbind⟩
    | epilogue =>
      obtain rfl := List.mem_singleton.mp hmem
      exact ⟨rfl, hbind⟩
  cases op with
  | label l => exact congrArg IlOp.label (hflat l).symm
  | jump kind t hint =>
    have ht : t < start := h.raw q _ hop t rfl
    rw [finalOp, pickJump, hq]
    cases ho : m.ownBinder q t with
    | some b =>
      obtain ⟨hid, hmem⟩ := hself t b ho
      rw [patchJump, if_pos hmem, Option.some_or, Option.map_some, Option.getD_some, hid]
      rfl
    | none =>
      rw [h.patchJump_foreign hhere ht ho (hchunk t)]
      rfl
  | entry kind arity t retWords =>
    have ht : t < start := h.raw q _ hop t rfl
    rw [finalOp]
    cases ho : m.ownBinder q t with
    | some b =>
      obtain ⟨hid, hmem⟩ := hself t b ho
      show patchCall _ _ _ (.entry kind arity t retWords) = _
      rw [patchCall, if_pos hmem, pickCall, ho, Option.some_or, Option.map_some, Option.getD_some, hid]
    | none => exact h.patchCall_foreign hhere ht ho (hchunk t) kind arity retWords
  | _ => rfl

end LinkedBy

end IlModule

end CoilLang.Il
