import CoilLang.Il.Link
import Mathlib.Data.Finset.Card

/-!
# The tables of the linker

The ids that linking hands out are fresh: above every id of the module, and never handed out twice as long as
they stay ids. `Linking.Inv` says what the tables hold after some of the chunks in terms of one map for the
body and one for the glue of each (`Seg`).
-/

namespace CoilLang.Il

/-! ### Maps -/

namespace LabelMap

variable {m : LabelMap} {k v l : ℕ}

@[simp] theorem get_nil : get [] l = none := rfl

theorem get_cons (e : ℕ × ℕ) : get (e :: m) l = if l = e.1 then some e.2 else m.get l := by
  rw [get, List.lookup_cons]
  by_cases h : l = e.1
  · simp [h]
  · rw [if_neg h, beq_false_of_ne h]
    rfl

theorem get_insert : (m.insert k v).get l = if l = k then some v else m.get l := get_cons (k, v)

theorem get_orInsert : (m.orInsert k v).get l = (m.get l).or (if l = k then some v else none) := by
  rw [orInsert]
  by_cases hl : l = k
  · subst hl
    cases hk : m.get l <;> simp [hk, get_insert]
  · split <;> simp [hl, get_insert]

theorem mem_of_get (h : m.get k = some v) : (k, v) ∈ m := by
  induction m with
  | nil => cases h
  | cons e m ih =>
    rw [get_cons] at h
    split at h
    · rename_i hk
      cases h
      rw [hk]
      exact List.mem_cons_self
    · exact List.mem_cons_of_mem _ (ih h)

theorem mem_values : v ∈ m.values ↔ ∃ k, m.get k = some v := by
  rw [values, List.mem_filterMap]
  refine ⟨fun ⟨k, _, h⟩ ↦ ⟨k, h⟩, fun ⟨k, h⟩ ↦ ⟨k, ?_, h⟩⟩
  exact List.mem_map.mpr ⟨_, mem_of_get h, rfl⟩

end LabelMap

open LabelMap

variable {l : ℕ}

theorem get_mergeRemapLabels (prior map : LabelMap) :
    (mergeRemapLabels prior map).get l = (prior.get l).or (map.get l) := by
  rw [mergeRemapLabels]
  induction map generalizing prior with
  | nil => simp
  | cons e map ih =>
    rw [List.foldl_cons, ih, get_orInsert, get_cons, Option.or_assoc]
    split <;> simp

theorem get_glueEntries {glueMap : LabelMap} {glue : List IlOp} (entries : LabelMap)
    (hdom : ∀ l ∈ boundLabelIds glue, (glueMap.get l).isSome) :
    (glueEntries glueMap glue entries).get l =
      (entries.get l).or (if l ∈ boundLabelIds glue then glueMap.get l else none) := by
  rw [glueEntries]
  generalize boundLabelIds glue = ids at hdom ⊢
  induction ids generalizing entries with
  | nil => simp
  | cons old ids ih =>
    obtain ⟨new, hnew⟩ := Option.isSome_iff_exists.mp (hdom old List.mem_cons_self)
    rw [List.foldl_cons, ih _ fun l hl ↦ hdom l (List.mem_cons_of_mem _ hl)]
    simp only [hnew, get_orInsert, Option.or_assoc, List.mem_cons]
    by_cases hl : l = old
    · subst hl
      simp [hnew]
    · simp [hl]

theorem get_keepIds (ids : List ℕ) (prior : LabelMap) :
    (keepIds ids prior).get l = if l ∈ ids then some l else prior.get l := by
  rw [keepIds]
  induction ids generalizing prior with
  | nil => simp
  | cons id ids ih =>
    rw [List.foldl_cons, ih, get_insert]
    by_cases hl : l = id
    · simp [hl]
    · simp [hl]

/-! ### Fresh ids -/

theorem satSucc_min (n : ℕ) : satSucc (min n u32Max) = min (n + 1) u32Max := by
  rw [satSucc]
  omega

/-- A map of `ids` to consecutive fresh ids from `lo` on. -/
structure Minted (ids : List ℕ) (lo : ℕ) (map : LabelMap) : Prop where
  dom : ∀ l, (map.get l).isSome ↔ l ∈ ids
  card : map.length = ids.toFinset.card
  range : ∀ l v, map.get l = some v → lo ≤ v ∧ v < lo + map.length
  inj : ∀ l l' v, map.get l = some v → map.get l' = some v → l = l'

variable {lo : ℕ} {ids done : List ℕ} {map : LabelMap}

theorem minted_nil (lo : ℕ) : Minted [] lo [] :=
  ⟨by simp, rfl, fun _ _ h ↦ (by cases h), fun _ _ _ h ↦ (by cases h)⟩

theorem Minted.again (h : Minted ids lo map) (hl : l ∈ ids) : Minted (ids ++ [l]) lo map := by
  refine ⟨fun l' ↦ ?_, ?_, h.range, h.inj⟩
  · rw [h.dom, List.mem_append, List.mem_singleton]
    exact ⟨.inl, fun h' ↦ h'.elim id fun e ↦ e ▸ hl⟩
  · rw [h.card, List.toFinset_append]
    congr 1
    symm
    simpa using hl

theorem Minted.fresh (h : Minted ids lo map) (hl : l ∉ ids) :
    Minted (ids ++ [l]) lo (map.insert l (lo + map.length)) := by
  have hlen : (map.insert l (lo + map.length)).length = map.length + 1 := rfl
  refine ⟨fun l' ↦ ?_, ?_, fun l' v hv ↦ ?_, fun l₁ l₂ v h₁ h₂ ↦ ?_⟩
  · rw [get_insert, List.mem_append, List.mem_singleton, ← h.dom]
    split <;> simp_all
  · rw [hlen, h.card, List.toFinset_append, Finset.union_comm]
    exact (Finset.card_insert_of_notMem (by simpa using hl)).symm
  · rw [get_insert] at hv
    rw [hlen]
    split at hv
    · cases hv
      omega
    · have := h.range l' v hv
      omega
  · rw [get_insert] at h₁ h₂
    have hnew : ∀ l', map.get l' ≠ some (lo + map.length) := by
      intro l' hl'
      have := h.range l' _ hl'
      omega
    split at h₁ <;> split at h₂
    · rw [‹l₁ = l›, ‹l₂ = l›]
    · cases h₁
      exact absurd h₂ (hnew _)
    · cases h₂
      exact absurd h₁ (hnew _)
    · exact h.inj _ _ _ h₁ h₂

theorem foldl_mint (ids : List ℕ) (h : Minted done lo map)
    (hfit : lo + (done ++ ids).toFinset.card ≤ u32Max + 1) :
    ∃ map', Minted (done ++ ids) lo map' ∧
      ids.foldl mint (map, min (lo + map.length) u32Max) = (map', min (lo + map'.length) u32Max) := by
  induction ids generalizing done map with
  | nil => exact ⟨map, by rwa [List.append_nil], rfl⟩
  | cons id ids ih =>
    rw [List.append_cons] at hfit ⊢
    rw [List.foldl_cons]
    by_cases hid : id ∈ done
    · obtain ⟨map', h', heq⟩ := ih (h.again hid) hfit
      refine ⟨map', h', ?_⟩
      rw [mint, if_pos ((h.dom id).mpr hid)]
      exact heq
    · have h₁ := h.fresh hid
      obtain ⟨map', h', heq⟩ := ih h₁ hfit
      refine ⟨map', h', ?_⟩
      have hcard : (done ++ [id]).toFinset.card ≤ (done ++ [id] ++ ids).toFinset.card :=
        Finset.card_le_card (by rw [List.toFinset_append (l := done ++ [id])]; exact Finset.subset_union_left)
      have hlen : map.length + 1 = (done ++ [id]).toFinset.card := h₁.card
      have hnext : min (lo + map.length) u32Max = lo + map.length := by omega
      rw [mint, if_neg (by rw [h.dom]; exact hid), satSucc_min]
      rw [← heq, hnext]
      rfl

theorem remapOp_nil (op : IlOp) : remapOp [] [] op = op := by
  cases op <;> rfl

theorem remapLabelSpace_spec (ops : List IlOp) (prior : LabelMap)
    (hfit : lo + (boundLabelIds ops).toFinset.card ≤ u32Max + 1) :
    ∃ map, Minted (boundLabelIds ops) lo map ∧ remapLabelSpace ops (min lo u32Max) prior =
      (ops.map (remapOp map prior), map, min (lo + map.length) u32Max) := by
  obtain ⟨map, hmap, heq⟩ := foldl_mint (boundLabelIds ops) (minted_nil lo) hfit
  refine ⟨map, hmap, ?_⟩
  rw [remapLabelSpace]
  split
  · rename_i hops
    subst hops
    cases heq
    rfl
  · change (boundLabelIds ops).foldl mint ([], min lo u32Max) = _ at heq
    rw [heq]
    dsimp only
    split
    · rename_i hempty
      rw [hempty.1, hempty.2, List.map_congr_left fun op _ ↦ remapOp_nil op, List.map_id']
    · rfl

/-! ### Glue -/

/-- The map of the glue: the ids of `done` are taken from `hi` on. -/
structure Split (map : LabelMap) (hi : ℕ) (done : List ℕ) (glueMap : LabelMap) : Prop where
  same : ∀ l, l ∉ done → glueMap.get l = map.get l
  fresh : ∀ l ∈ done, ∃ v, glueMap.get l = some v ∧ hi ≤ v ∧ v < hi + done.length
  inj : ∀ l ∈ done, ∀ l' ∈ done, glueMap.get l = glueMap.get l' → l = l'

variable {hi : ℕ} {glueMap prior : LabelMap}

theorem Split.insert (h : Split map hi done glueMap) (l : ℕ) :
    Split map hi (done ++ [l]) (glueMap.insert l (hi + done.length)) := by
  have hne : ∀ l' ∈ done, glueMap.get l' ≠ some (hi + done.length) := by
    intro l' hl' heq
    obtain ⟨v, hv, -, hlt⟩ := h.fresh l' hl'
    rw [hv] at heq
    cases heq
    omega
  refine ⟨fun l' hl' ↦ ?_, fun l' hl' ↦ ?_, fun l₁ h₁ l₂ h₂ heq ↦ ?_⟩
  · rw [List.mem_append, List.mem_singleton, not_or] at hl'
    rw [get_insert, if_neg hl'.2, h.same l' hl'.1]
  · rw [get_insert, List.length_append, List.length_singleton]
    split
    · exact ⟨_, rfl, by omega, by omega⟩
    · rename_i hne
      obtain ⟨v, hv, hlo, hhi⟩ := h.fresh l' (by simpa [hne] using hl')
      exact ⟨v, hv, hlo, by omega⟩
  · have hdone : ∀ l' ∈ done ++ [l], l' ≠ l → l' ∈ done := fun l' h' hne' ↦ by simpa [hne'] using h'
    rw [get_insert, get_insert] at heq
    split at heq <;> split at heq
    · rw [‹l₁ = l›, ‹l₂ = l›]
    · exact absurd heq.symm (hne _ (hdone _ h₂ ‹_›))
    · exact absurd heq (hne _ (hdone _ h₁ ‹_›))
    · exact h.inj _ (hdone _ h₁ ‹_›) _ (hdone _ h₂ ‹_›) heq

/-- Renaming the id that stands for `old` moves `old` and nothing else. -/
theorem renameId_remapOp {old shared fresh : ℕ} {op : IlOp} (hold : glueMap.get old = some shared)
    (huniq : ∀ t, glueMap.get t = some shared → t = old) (hprior : ∀ t, prior.get t ≠ some shared)
    (hraw : ∀ t, codeLabelId op = some t → t ≠ shared) :
    renameId shared fresh (remapOp glueMap prior op) = remapOp (glueMap.insert old fresh) prior op := by
  have hown : ∀ t, codeLabelId op = some t →
      (if (glueMap.get t).getD t = shared then fresh else (glueMap.get t).getD t) =
        ((glueMap.insert old fresh).get t).getD t := by
    intro t ht
    rw [get_insert]
    by_cases hto : t = old
    · simp [hto, hold]
    · rw [if_neg hto, if_neg]
      intro heq
      cases hg : glueMap.get t with
      | none =>
        rw [hg] at heq
        exact hraw t ht heq
      | some v =>
        rw [hg] at heq
        exact hto (huniq t (hg.trans (congrArg some heq)))
  cases op with
  | label id => exact congrArg IlOp.label (hown id rfl)
  | entry kind arity t retWords => exact congrArg (IlOp.entry kind arity · retWords) (hown t rfl)
  | jump kind t hint =>
    refine congrArg (IlOp.jump kind · hint) ?_
    have ht := hown t rfl
    rw [get_insert] at ht ⊢
    by_cases hto : t = old
    · simp [hto, hold]
    · rw [if_neg hto] at ht ⊢
      cases hg : glueMap.get t with
      | some v =>
        rw [hg] at ht
        exact ht
      | none =>
        rw [if_neg]
        intro heq
        rw [Option.none_or] at heq
        cases hp : prior.get t with
        | none =>
          rw [hp] at heq
          exact hraw t rfl heq
        | some v =>
          rw [hp] at heq
          exact hprior t (hp.trans (congrArg some heq))
  | _ => rfl

theorem foldl_splitGlue (olds : List ℕ) (hmap : Minted ids lo map)
    (hsplit : Split map (lo + map.length) done glueMap) (hnodup : (done ++ olds).Nodup)
    (hsub : ∀ l ∈ olds, l ∈ ids) {glue : List IlOp} (hprior : ∀ l v, prior.get l = some v → v < lo)
    (hraw : ∀ op ∈ glue, ∀ t, codeLabelId op = some t → t < lo)
    (hfit : lo + map.length + (done ++ olds).length ≤ u32Max + 1) :
    ∃ glueMap', Split map (lo + map.length) (done ++ olds) glueMap' ∧
      olds.foldl (splitGlue map)
        (glueMap, glue.map (remapOp glueMap prior), min (lo + map.length + done.length) u32Max) =
      (glueMap', glue.map (remapOp glueMap' prior),
        min (lo + map.length + (done ++ olds).length) u32Max) := by
  induction olds generalizing done glueMap with
  | nil => exact ⟨glueMap, by rwa [List.append_nil], by rw [List.append_nil]; rfl⟩
  | cons old olds ih =>
    rw [List.append_cons] at hnodup hfit ⊢
    have hold : old ∉ done := by
      have := (List.nodup_append.mp (List.nodup_append.mp hnodup).1).2.2
      exact fun hmem ↦ this old hmem old List.mem_cons_self rfl
    obtain ⟨shared, hshared⟩ := Option.isSome_iff_exists.mp ((hmap.dom old).mpr (hsub old List.mem_cons_self))
    have hlt := hmap.range old shared hshared
    obtain ⟨glueMap', h', heq⟩ := ih (hsplit.insert old) hnodup
      (fun l hl ↦ hsub l (List.mem_cons_of_mem _ hl)) hfit
    refine ⟨glueMap', h', ?_⟩
    have hnext : min (lo + map.length + done.length) u32Max = lo + map.length + done.length := by
      rw [List.length_append, List.length_append, List.length_singleton] at hfit
      omega
    rw [List.foldl_cons, ← heq]
    congr 1
    rw [splitGlue, hshared]
    refine Prod.ext ?_ (Prod.ext ?_ ?_)
    · show glueMap.insert old (min _ _) = _
      rw [hnext]
    · show (glue.map (remapOp glueMap prior)).map (renameId shared (min _ _)) = _
      rw [hnext, List.map_map]
      refine List.map_congr_left fun op hop ↦ renameId_remapOp ((hsplit.same old hold).trans hshared) ?_ ?_ ?_
      · intro t ht
        by_cases htd : t ∈ done
        · obtain ⟨v, hv, hge, -⟩ := hsplit.fresh t htd
          rw [hv] at ht
          cases ht
          omega
        · rw [hsplit.same t htd] at ht
          exact hmap.inj _ _ _ ht hshared
      · intro t ht
        have := hprior t _ ht
        omega
      · intro t ht heq
        have := hraw op hop t ht
        omega
    · show satSucc (min _ _) = _
      rw [satSucc_min, List.length_append, List.length_singleton, Nat.add_assoc _ done.length]

/-! ### Segments -/

/-- A linked chunk: the maps of its body and of its glue, and the ids of the chunks before it. -/
structure Seg where
  chunk : Chunk
  map : LabelMap
  glueMap : LabelMap
  prior : LabelMap

namespace Seg

variable (g : Seg)

def ops : List IlOp :=
  g.chunk.body.map (remapOp g.map g.prior) ++ g.chunk.glue.map (remapOp g.glueMap g.prior)

/-- The flat ids of the segment. -/
def Has (v : ℕ) : Prop := (∃ l, g.map.get l = some v) ∨ ∃ l, g.glueMap.get l = some v

structure Ok : Prop where
  dom : ∀ l, (g.map.get l).isSome ↔ l ∈ boundLabelIds g.chunk.body ∨ l ∈ boundLabelIds g.chunk.glue
  glueDom : ∀ l, (g.glueMap.get l).isSome ↔ l ∈ boundLabelIds g.chunk.body ∨ l ∈ boundLabelIds g.chunk.glue
  same : ∀ l, ¬ (l ∈ boundLabelIds g.chunk.body ∧ l ∈ boundLabelIds g.chunk.glue) →
    g.glueMap.get l = g.map.get l
  inj : ∀ l l' v, g.map.get l = some v → g.map.get l' = some v → l = l'
  glueInj : ∀ l l' v, g.glueMap.get l = some v → g.glueMap.get l' = some v → l = l'
  cross : ∀ l l' v, g.map.get l = some v → g.glueMap.get l' = some v →
    l = l' ∧ ¬ (l ∈ boundLabelIds g.chunk.body ∧ l ∈ boundLabelIds g.chunk.glue)

def firstLabel : Option ℕ :=
  ((boundLabelIds g.chunk.body).head?.bind g.map.get).or
    ((boundLabelIds g.chunk.glue).head?.bind g.glueMap.get)

/-- What the segment records for calls of its function. -/
def entryId (l : ℕ) : Option ℕ :=
  if g.chunk.entry = some l then (g.map.get l).or g.firstLabel else none

def glueId (l : ℕ) : Option ℕ := if l ∈ boundLabelIds g.chunk.glue then g.glueMap.get l else none

end Seg

theorem boundLabelIds_append (ops ops' : List IlOp) :
    boundLabelIds (ops ++ ops') = boundLabelIds ops ++ boundLabelIds ops' := List.filterMap_append

theorem mem_shared {c : Chunk} :
    l ∈ c.shared ↔ l ∈ boundLabelIds c.body ∧ l ∈ boundLabelIds c.glue := by
  simp [Chunk.shared]

theorem nodup_shared (c : Chunk) : c.shared.Nodup := (List.nodup_dedup _).filter _

theorem Minted.segOk {c : Chunk} (hmap : Minted (boundLabelIds (c.body ++ c.glue)) lo map)
    {walked : List ℕ} (hwalk : walked.Perm c.shared) (hsplit : Split map (lo + map.length) walked glueMap)
    (prior : LabelMap) :
    Seg.Ok ⟨c, map, glueMap, prior⟩ ∧
      ∀ v, Seg.Has ⟨c, map, glueMap, prior⟩ v → lo ≤ v ∧ v < lo + map.length + c.shared.length := by
  have hdom : ∀ l, (map.get l).isSome ↔ l ∈ boundLabelIds c.body ∨ l ∈ boundLabelIds c.glue := by
    intro l
    rw [hmap.dom, boundLabelIds_append, List.mem_append]
  have hmem : ∀ l, l ∈ walked ↔ l ∈ boundLabelIds c.body ∧ l ∈ boundLabelIds c.glue :=
    fun l ↦ hwalk.mem_iff.trans mem_shared
  -- A label of the glue map is old, or one of the shared ones with an id past the map's.
  have hcases : ∀ l v, glueMap.get l = some v → (l ∉ walked ∧ map.get l = some v) ∨
      (l ∈ walked ∧ lo + map.length ≤ v ∧ v < lo + map.length + c.shared.length) := by
    intro l v hv
    by_cases hl : l ∈ walked
    · obtain ⟨v', hv', hge, hlt⟩ := hsplit.fresh l hl
      rw [hv] at hv'
      cases hv'
      rw [hwalk.length_eq] at hlt
      exact .inr ⟨hl, hge, hlt⟩
    · exact .inl ⟨hl, (hsplit.same l hl).symm.trans hv⟩
  refine ⟨⟨hdom, fun l ↦ ?_, fun l hl ↦ ?_, hmap.inj, fun l l' v h h' ↦ ?_, fun l l' v h h' ↦ ?_⟩, ?_⟩
  · show (glueMap.get l).isSome ↔ _
    by_cases hl : l ∈ walked
    · obtain ⟨v, hv, -⟩ := hsplit.fresh l hl
      rw [hv]
      exact ⟨fun _ ↦ .inl ((hmem l).mp hl).1, fun _ ↦ rfl⟩
    · rw [hsplit.same l hl]
      exact hdom l
  · exact hsplit.same l fun hw ↦ hl ((hmem l).mp hw)
  · rcases hcases l v h with ⟨-, h₁⟩ | ⟨h₁, hge, -⟩ <;> rcases hcases l' v h' with ⟨-, h₂⟩ | ⟨h₂, hge', -⟩
    · exact hmap.inj l l' v h₁ h₂
    · have := hmap.range l v h₁
      omega
    · have := hmap.range l' v h₂
      omega
    · exact hsplit.inj l h₁ l' h₂ (h.trans h'.symm)
  · have hlt := hmap.range l v h
    rcases hcases l' v h' with ⟨hnot, h₂⟩ | ⟨-, hge, -⟩
    · obtain rfl := hmap.inj l l' v h h₂
      exact ⟨rfl, fun hb ↦ hnot ((hmem l).mpr hb)⟩
    · omega
  · rintro v (⟨l, hl⟩ | ⟨l, hl⟩)
    · have := hmap.range l v hl
      omega
    · rcases hcases l v hl with ⟨-, h₁⟩ | ⟨-, hge, hlt⟩
      · have := hmap.range l v h₁
        omega
      · omega

theorem boundLabelIds_remap (map prior : LabelMap) (ops : List IlOp) :
    boundLabelIds (ops.map (remapOp map prior)) = (boundLabelIds ops).map fun l ↦ (map.get l).getD l := by
  rw [boundLabelIds, boundLabelIds, List.filterMap_map, List.map_filterMap]
  congr 1
  funext op
  cases op <;> rfl

theorem firstLabelId_eq (ops : List IlOp) : firstLabelId ops = (boundLabelIds ops).head? :=
  List.head?_filterMap.symm

theorem firstLabelId_remap (map prior : LabelMap) (ops : List IlOp)
    (hdom : ∀ l ∈ boundLabelIds ops, (map.get l).isSome) :
    firstLabelId (ops.map (remapOp map prior)) = (boundLabelIds ops).head?.bind map.get := by
  rw [firstLabelId_eq, boundLabelIds_remap, List.head?_map]
  cases hids : boundLabelIds ops with
  | nil => rfl
  | cons l ids =>
    obtain ⟨v, hv⟩ := Option.isSome_iff_exists.mp (hdom l (by rw [hids]; exact List.mem_cons_self))
    show some ((map.get l).getD l) = map.get l
    rw [hv]
    rfl

theorem Seg.Ok.firstLabelId_ops {g : Seg} (h : g.Ok) : firstLabelId g.ops = g.firstLabel := by
  have hbody := firstLabelId_remap g.map g.prior g.chunk.body fun l hl ↦ (h.dom l).mpr (.inl hl)
  have hglue := firstLabelId_remap g.glueMap g.prior g.chunk.glue fun l hl ↦ (h.glueDom l).mpr (.inr hl)
  rw [Seg.firstLabel, ← hbody, ← hglue]
  exact List.findSome?_append

end CoilLang.Il
