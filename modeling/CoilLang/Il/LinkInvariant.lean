import CoilLang.Il.LinkMaps
import CoilLang.Il.LinkSpec

/-!
# The tables after all chunks

Linking one chunk adds a segment and keeps the invariant of the tables (`Linking.Inv.linkChunk`), so the
tables after all chunks are those of the segments.
-/

namespace CoilLang.Il

open LabelMap

/-- The id of `l` in the first segment that binds it. -/
def priorOf (segs : List Seg) (l : ℕ) : Option ℕ := segs.findSome? fun g ↦ g.map.get l

/-- The ids handed out so far. -/
def mintedBy (segs : List Seg) : ℕ := (segs.map fun g ↦ g.chunk.minted).sum

/-- The tables of the linker are those of the segments it has written, with fresh ids from `start` on. -/
structure Linking.Inv (start : ℕ) (s : Linking) (segs : List Seg) : Prop where
  next : s.next = min (start + mintedBy segs) u32Max
  ok : ∀ g ∈ segs, g.Ok
  range : ∀ g ∈ segs, ∀ v, g.Has v → start ≤ v ∧ v < start + mintedBy segs
  apart : segs.Pairwise fun g g' ↦ ∀ v, g.Has v → ¬ g'.Has v
  priors : ∀ (i : ℕ) (g : Seg), segs[i]? = some g → ∀ l, g.prior.get l = priorOf (segs.take i) l
  prior : ∀ l, s.prior.get l = priorOf segs l
  entries : ∀ l, s.entries.get l =
    (segs.reverse.findSome? (·.entryId l)).or (segs.findSome? (·.glueId l))
  maps : s.maps = segs.map Seg.map
  glueMaps : s.glueMaps = segs.map Seg.glueMap
  bodyBound : s.bodyBound = segs.map fun g ↦ boundLabelIds g.chunk.body
  glueBound : s.glueBound = segs.map fun g ↦ boundLabelIds g.chunk.glue
  segments : s.segments = segs.map Seg.ops

variable {start : ℕ} {s : Linking} {segs : List Seg}

theorem linking_inv_nil (start : ℕ) {next : ℕ} (h : next = min start u32Max) :
    Linking.Inv start { next } [] where
  next := h
  ok _ h := by cases h
  range _ h := by cases h
  apart := List.Pairwise.nil
  priors _ _ h := by cases h
  prior _ := rfl
  entries _ := rfl
  maps := rfl
  glueMaps := rfl
  bodyBound := rfl
  glueBound := rfl
  segments := rfl

theorem priorOf_has {v l : ℕ} (h : priorOf segs l = some v) : ∃ g ∈ segs, g.map.get l = some v :=
  List.exists_of_findSome?_eq_some h

theorem mintedBy_append (segs : List Seg) (g : Seg) : mintedBy (segs ++ [g]) = mintedBy segs + g.chunk.minted := by
  simp [mintedBy]

theorem get_recordEntry (entries : LabelMap) (entry new : Option ℕ) (l : ℕ) :
    (recordEntry entries entry new).get l = (if entry = some l then new else none).or (entries.get l) := by
  cases entry with
  | none => rfl
  | some old =>
    cases new with
    | none =>
      split <;> rfl
    | some new =>
      refine get_insert.trans ?_
      by_cases hl : old = l
      · simp [hl]
      · simp [hl, Ne.symm hl]

theorem entryId_eq (g : Seg) (l : ℕ) :
    g.entryId l = if g.chunk.entry = some l then (g.chunk.entry.bind g.map.get).or g.firstLabel else none := by
  rw [Seg.entryId]
  split
  · rename_i he
    rw [he, Option.bind_some]
  · rfl

/-- What linking a chunk computes, in terms of its segment. -/
theorem linkChunk_eq (hash : HashOrder) {lo : ℕ} {c : Chunk} (hnext : s.next = min lo u32Max)
    (hfit : lo + c.minted ≤ u32Max + 1) (hprior : ∀ l v, s.prior.get l = some v → v < lo)
    (hraw : ∀ op ∈ c.body ++ c.glue, ∀ t, codeLabelId op = some t → t < lo) :
    ∃ g : Seg, g.chunk = c ∧ g.prior = s.prior ∧ g.Ok ∧ (∀ v, g.Has v → lo ≤ v ∧ v < lo + c.minted) ∧
      linkChunk hash s c =
        { next := min (lo + c.minted) u32Max
          prior := mergeRemapLabels s.prior g.map
          entries := glueEntries g.glueMap c.glue <|
            recordEntry s.entries c.entry ((c.entry.bind g.map.get).or g.firstLabel)
          maps := s.maps ++ [g.map]
          glueMaps := s.glueMaps ++ [g.glueMap]
          bodyBound := s.bodyBound ++ [boundLabelIds c.body]
          glueBound := s.glueBound ++ [boundLabelIds c.glue]
          segments := s.segments ++ [g.ops] } := by
  have hcard : (boundLabelIds (c.body ++ c.glue)).toFinset.card =
      (boundLabelIds (c.body ++ c.glue)).dedup.length := List.card_toFinset _
  have hminted : c.minted = (boundLabelIds (c.body ++ c.glue)).dedup.length + c.shared.length := rfl
  have hids : lo + (boundLabelIds (c.body ++ c.glue)).toFinset.card ≤ u32Max + 1 := by omega
  obtain ⟨map, hmap, hremap⟩ := remapLabelSpace_spec (c.body ++ c.glue) s.prior hids
  have hlen : lo + map.length + c.shared.length = lo + c.minted := by
    rw [hmap.card]
    omega
  have hwalk := hash.perm c.shared
  have hnone : Split map (lo + map.length) [] map :=
    ⟨fun _ _ ↦ rfl, fun _ h ↦ (by cases h), fun _ h ↦ (by cases h)⟩
  obtain ⟨glueMap, hsplit, hglue⟩ := foldl_splitGlue (hash.walk c.shared) hmap hnone
    (hwalk.nodup_iff.mpr (nodup_shared c))
    (fun l hl ↦ by
      rw [boundLabelIds_append, List.mem_append]
      exact .inl (mem_shared.mp (hwalk.mem_iff.mp hl)).1)
    hprior (fun op hop ↦ hraw op (List.mem_append_right _ hop))
    (by rw [List.nil_append, hwalk.length_eq]; omega)
  obtain ⟨hok, hrange⟩ := hmap.segOk hwalk hsplit s.prior
  refine ⟨⟨c, map, glueMap, s.prior⟩, rfl, rfl, hok, fun v hv ↦ hlen ▸ hrange v hv, ?_⟩
  have hbody : ((c.body ++ c.glue).map (remapOp map s.prior)).take c.body.length =
      c.body.map (remapOp map s.prior) := by
    rw [List.map_append, List.take_left' (List.length_map _)]
  have hrest : ((c.body ++ c.glue).map (remapOp map s.prior)).drop c.body.length =
      c.glue.map (remapOp map s.prior) := by
    rw [List.map_append, List.drop_left' (List.length_map _)]
  have hfirst := hok.firstLabelId_ops
  have hops : c.body.map (remapOp map s.prior) ++ c.glue.map (remapOp glueMap s.prior) =
      Seg.ops ⟨c, map, glueMap, s.prior⟩ := rfl
  rw [List.length_nil, Nat.add_zero, List.nil_append, hwalk.length_eq, hlen] at hglue
  rw [linkChunk, hnext, hremap]
  dsimp only
  rw [hrest, hglue]
  dsimp only
  rw [hbody, hops, hfirst]

/-- **Linking a chunk adds its segment.** -/
theorem Linking.Inv.linkChunk (hash : HashOrder) (h : s.Inv start segs) {c : Chunk}
    (hfit : start + mintedBy segs + c.minted ≤ u32Max + 1)
    (hraw : ∀ op ∈ c.body ++ c.glue, ∀ t, codeLabelId op = some t → t < start) :
    ∃ g : Seg, g.chunk = c ∧ (Il.linkChunk hash s c).Inv start (segs ++ [g]) := by
  obtain ⟨g, rfl, hgp, hok, hrange, heq⟩ := linkChunk_eq hash h.next hfit
    (fun l v hv ↦ by
      rw [h.prior] at hv
      obtain ⟨g, hg, hv⟩ := priorOf_has hv
      exact (h.range g hg v (.inl ⟨l, hv⟩)).2)
    (fun op hop t ht ↦ Nat.lt_of_lt_of_le (hraw op hop t ht) (Nat.le_add_right _ _))
  refine ⟨g, rfl, ?_⟩
  rw [heq]
  have hminted := mintedBy_append segs g
  refine ⟨?_, ?_, ?_, ?_, ?_, ?_, ?_, ?_, ?_, ?_, ?_, ?_⟩
  · rw [hminted, Nat.add_assoc]
  · intro g' hg'
    rcases List.mem_append.mp hg' with hg' | hg'
    · exact h.ok g' hg'
    · rwa [List.mem_singleton.mp hg']
  · intro g' hg' v hv
    rw [hminted]
    rcases List.mem_append.mp hg' with hg' | hg'
    · have := h.range g' hg' v hv
      omega
    · rw [List.mem_singleton.mp hg'] at hv
      have := hrange v hv
      omega
  · refine List.pairwise_append.mpr ⟨h.apart, List.pairwise_singleton _ _, fun g' hg' g'' hg'' v hv hv' ↦ ?_⟩
    rw [List.mem_singleton.mp hg''] at hv'
    have := h.range g' hg' v hv
    have := hrange v hv'
    omega
  · intro i g' hg' l
    rcases Nat.lt_or_ge i segs.length with hi | hi
    · rw [List.getElem?_append_left hi] at hg'
      rw [List.take_append_of_le_length hi.le]
      exact h.priors i g' hg' l
    · rw [List.getElem?_append_right hi] at hg'
      have hi0 : i - segs.length = 0 := by
        have := (List.getElem?_eq_some_iff.mp hg').1
        rw [List.length_singleton] at this
        omega
      rw [hi0] at hg'
      cases hg'
      have hi' : i = segs.length := by omega
      rw [hi', List.take_left' rfl, hgp]
      exact h.prior l
  · intro l
    show (mergeRemapLabels s.prior g.map).get l = _
    rw [get_mergeRemapLabels, h.prior, priorOf, priorOf, List.findSome?_append]
    simp
  · intro l
    show (glueEntries g.glueMap g.chunk.glue _).get l = _
    rw [get_glueEntries _ fun l hl ↦ (hok.glueDom l).mpr (.inr hl)]
    rw [get_recordEntry, ← entryId_eq, h.entries, List.reverse_append, List.findSome?_append, List.findSome?_append, Option.or_assoc,
      Option.or_assoc, Option.or_assoc]
    simp [Seg.glueId]
  · rw [h.maps, List.map_append]
    rfl
  · rw [h.glueMaps, List.map_append]
    rfl
  · rw [h.bodyBound, List.map_append]
    rfl
  · rw [h.glueBound, List.map_append]
    rfl
  · rw [h.segments, List.map_append]
    rfl

theorem foldl_linkChunk_inv (hash : HashOrder) (cs : List Chunk) (h : s.Inv start segs)
    (hfit : start + mintedBy segs + (cs.map Chunk.minted).sum ≤ u32Max + 1)
    (hraw : ∀ c ∈ cs, ∀ op ∈ c.body ++ c.glue, ∀ t, codeLabelId op = some t → t < start) :
    ∃ segs', segs'.map Seg.chunk = segs.map Seg.chunk ++ cs ∧
      (cs.foldl (Il.linkChunk hash) s).Inv start segs' := by
  induction cs generalizing s segs with
  | nil => exact ⟨segs, (List.append_nil _).symm, h⟩
  | cons c cs ih =>
    rw [List.map_cons, List.sum_cons] at hfit
    obtain ⟨g, rfl, hg⟩ := h.linkChunk hash (by omega) (hraw c List.mem_cons_self)
    obtain ⟨segs', hsegs', hinv⟩ := ih hg (by rw [mintedBy_append]; omega)
      fun c hc ↦ hraw c (List.mem_cons_of_mem _ hc)
    refine ⟨segs', ?_, hinv⟩
    rw [hsegs', List.map_append, List.append_assoc]
    rfl

end CoilLang.Il
