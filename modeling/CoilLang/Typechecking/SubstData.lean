import Mathlib.Data.List.Nodup
import Mathlib.Data.List.Dedup
import Mathlib.Data.Finset.Sort
import CoilLang.Typechecking.Subst

/-!
# The indexed data of a substitution

What a substitution is stored as: its bindings in insertion order with an index from variables to
positions, and two incrementally kept supersets. `users` lists the positions whose type mentioned a
variable, `stale` the positions whose type **may mention a bound variable**. A rewritten position stays
listed, so both only have to hold everything, never to be exact; `Tracked` says so.

The plain ordered map is the list of bindings, with `Subst.get` and `Subst.insert`. The data keeps it
in its `mappings` (`SubstData.mappings_insert`), and a type at a position that neither superset names
is left alone by a substitution that extends the data (`Tracked.applyTy_eq`).
-/

namespace CoilLang

/-! ### The plain ordered map -/

namespace Subst

/-- The variables of a substitution are bound once. -/
def Distinct (s : Subst) : Prop := s.dom.Nodup

@[simp] theorem dom_cons (b : TyVarId × Ty) (s : Subst) : dom (b :: s) = b.1 :: s.dom := rfl

@[simp] theorem dom_append (s t : Subst) : dom (s ++ t) = s.dom ++ t.dom := List.map_append

theorem mem_dom {s : Subst} {v : TyVarId} {t : Ty} (h : (v, t) ∈ s) : v ∈ s.dom :=
  List.mem_map.2 ⟨(v, t), h, rfl⟩

theorem get_eq_none_iff {s : Subst} {v : TyVarId} : s.get v = none ↔ v ∉ s.dom := by
  induction s with
  | nil => simp [dom]
  | cons b s ih =>
    obtain ⟨w, t⟩ := b
    rw [get_cons, dom_cons, List.mem_cons, not_or, ← ih]
    by_cases h : v = w <;> simp [h]

theorem get_of_mem {s : Subst} (hs : s.Distinct) {v : TyVarId} {t : Ty} (h : (v, t) ∈ s) :
    s.get v = some t := by
  induction s with
  | nil => cases h
  | cons b s ih =>
    obtain ⟨w, u⟩ := b
    obtain ⟨hw, hs⟩ := List.nodup_cons.1 hs
    rw [get_cons]
    rcases List.mem_cons.1 h with heq | hmem
    · cases heq
      rw [if_pos rfl]
    · rw [if_neg, ih hs hmem]
      rintro rfl
      exact hw (mem_dom hmem)

theorem mem_of_get {s : Subst} {v : TyVarId} {t : Ty} (h : s.get v = some t) : (v, t) ∈ s := by
  induction s with
  | nil => cases h
  | cons b s ih =>
    obtain ⟨w, u⟩ := b
    rw [get_cons] at h
    split at h
    · rename_i hv
      cases h
      rw [hv]
      exact List.mem_cons_self
    · exact List.mem_cons_of_mem _ (ih h)

theorem get_append (s t : Subst) (v : TyVarId) : (s ++ t).get v = (s.get v).or (t.get v) := by
  induction s with
  | nil => rfl
  | cons b s ih =>
    obtain ⟨w, u⟩ := b
    rw [List.cons_append, get_cons, get_cons, ih]
    split <;> rfl

theorem insert_of_notMem {s : Subst} {v : TyVarId} (h : v ∉ s.dom) (t : Ty) :
    s.insert v t = s ++ [(v, t)] := by
  induction s with
  | nil => rfl
  | cons b s ih =>
    obtain ⟨w, u⟩ := b
    rw [dom_cons, List.mem_cons, not_or] at h
    rw [insert, if_neg fun hw ↦ h.1 hw.symm, ih h.2, List.cons_append]

theorem insert_append_of_mem {s : Subst} {v : TyVarId} (h : v ∈ s.dom) (t : Ty) (r : Subst) :
    Subst.insert (s ++ r) v t = s.insert v t ++ r := by
  induction s with
  | nil => cases h
  | cons b s ih =>
    obtain ⟨w, u⟩ := b
    rw [List.cons_append, insert, insert]
    by_cases hw : w = v
    · rw [if_pos hw, if_pos hw, List.cons_append]
    · rw [if_neg hw, if_neg hw, ih ((List.mem_cons.1 h).resolve_left (Ne.symm hw)), List.cons_append]

theorem insert_append_of_notMem {s : Subst} {v : TyVarId} (h : v ∉ s.dom) (t : Ty) (r : Subst) :
    Subst.insert (s ++ r) v t = s ++ r.insert v t := by
  induction s with
  | nil => rfl
  | cons b s ih =>
    obtain ⟨w, u⟩ := b
    rw [dom_cons, List.mem_cons, not_or] at h
    rw [List.cons_append, insert, if_neg fun hw ↦ h.1 hw.symm, ih h.2, List.cons_append]

theorem dom_insert_of_mem {s : Subst} {v : TyVarId} (h : v ∈ s.dom) (t : Ty) :
    (s.insert v t).dom = s.dom := by
  induction s with
  | nil => cases h
  | cons b s ih =>
    obtain ⟨w, u⟩ := b
    rw [insert]
    by_cases hw : w = v
    · rw [if_pos hw, dom_cons, dom_cons, hw]
    · rw [if_neg hw, dom_cons, dom_cons, ih ((List.mem_cons.1 h).resolve_left (Ne.symm hw))]

theorem Distinct.insert {s : Subst} (hs : s.Distinct) (v : TyVarId) (t : Ty) :
    (s.insert v t).Distinct := by
  by_cases h : v ∈ s.dom
  · rwa [Distinct, dom_insert_of_mem h]
  · rw [insert_of_notMem h, Distinct, dom_append, List.nodup_append]
    refine ⟨hs, by simp [dom], fun a ha b hb ↦ ?_⟩
    rintro rfl
    obtain rfl : a = v := by simpa [dom] using hb
    exact h ha

theorem insert_eq_modify {s : Subst} (hs : s.Distinct) {pos : ℕ} {v : TyVarId} {u : Ty}
    (h : s[pos]? = some (v, u)) (t : Ty) : s.insert v t = s.modify pos fun b ↦ (b.1, t) := by
  induction s generalizing pos with
  | nil => cases h
  | cons b s ih =>
    obtain ⟨w, x⟩ := b
    obtain ⟨hw, hs⟩ := List.nodup_cons.1 hs
    cases pos with
    | zero =>
      cases h
      rw [insert, if_pos rfl, List.modify_zero_cons]
    | succ pos =>
      rw [List.getElem?_cons_succ] at h
      have hne : w ≠ v := by
        rintro rfl
        exact hw (mem_dom (List.mem_of_getElem? h))
      rw [insert, if_neg hne, ih hs h, List.modify_succ_cons]

/-- Remove the binding of `v`. -/
def erase (s : Subst) (v : TyVarId) : Subst := s.filter (·.1 ≠ v)

theorem Distinct.erase {s : Subst} (hs : s.Distinct) (v : TyVarId) : (s.erase v).Distinct :=
  hs.sublist (List.filter_sublist.map _)

theorem erase_of_notMem {s : Subst} {v : TyVarId} (h : v ∉ s.dom) : s.erase v = s := by
  refine List.filter_eq_self.2 fun b hb ↦ decide_eq_true ?_
  rintro rfl
  exact h (List.mem_map_of_mem hb)

theorem erase_eq_eraseIdx {s : Subst} (hs : s.Distinct) {pos : ℕ} {v : TyVarId} {u : Ty}
    (h : s[pos]? = some (v, u)) : s.erase v = s.eraseIdx pos := by
  induction s generalizing pos with
  | nil => cases h
  | cons b s ih =>
    obtain ⟨w, x⟩ := b
    obtain ⟨hw, hs⟩ := List.nodup_cons.1 hs
    cases pos with
    | zero =>
      cases h
      rw [erase, List.filter_cons_of_neg (by simp), List.eraseIdx_zero, List.tail_cons]
      exact erase_of_notMem hw
    | succ pos =>
      rw [List.getElem?_cons_succ] at h
      have hne : w ≠ v := by
        rintro rfl
        exact hw (mem_dom (List.mem_of_getElem? h))
      rw [erase, List.filter_cons_of_pos (by simpa using hne), List.eraseIdx_cons_succ, ← ih hs h]
      rfl

/-- `compose` of plain maps: the old bindings with `s₁` applied, then what only `s₁` binds. -/
def compose (s₁ s₂ : Subst) : Subst :=
  s₁.foldl (fun r b ↦ if (r.get b.1).isSome then r else r.insert b.1 b.2)
    (s₂.foldl (fun r b ↦ r.insert b.1 (applyTy s₁ b.2)) [])

/-- Inserting new bindings appends them. -/
theorem foldl_insert_eq_append {s r : Subst} (hr : (s ++ r).Distinct) :
    r.foldl (fun s b ↦ s.insert b.1 b.2) s = s ++ r := by
  induction r generalizing s with
  | nil => rw [List.foldl_nil, List.append_nil]
  | cons b r ih =>
    have hb : b.1 ∉ s.dom := by
      intro hmem
      rw [Distinct, dom_append] at hr
      exact (List.nodup_append.1 hr).2.2 _ hmem b.1 (by simp) rfl
    rw [List.foldl_cons, insert_of_notMem hb, ih (by simpa using hr), List.append_assoc,
      List.singleton_append]

theorem foldl_insert_map {f : Ty → Ty} (s : Subst) (hs : s.Distinct) :
    s.foldl (fun (r : Subst) b ↦ r.insert b.1 (f b.2)) [] = s.map fun b ↦ (b.1, f b.2) := by
  have hdom : Distinct ([] ++ s.map fun b ↦ (b.1, f b.2)) := by
    rwa [List.nil_append, Distinct, dom, List.map_map]
  have hrun := foldl_insert_eq_append hdom
  rwa [List.foldl_map] at hrun

/-- What an extension adds is appended, the bindings it already had are skipped. -/
theorem foldl_skip {r s : Subst} (hs : ∀ b ∈ s, b.1 ∈ r.dom) :
    s.foldl (fun r b ↦ if (r.get b.1).isSome then r else r.insert b.1 b.2) r = r := by
  induction s with
  | nil => rfl
  | cons b s ih =>
    have hb : (r.get b.1).isSome := by
      rw [← Option.ne_none_iff_isSome, ne_eq, get_eq_none_iff, not_not]
      exact hs b (by simp)
    rw [List.foldl_cons, if_pos hb]
    exact ih fun c hc ↦ hs c (by simp [hc])

theorem foldl_add {r s : Subst} (hs : (r ++ s).Distinct) :
    s.foldl (fun r b ↦ if (r.get b.1).isSome then r else r.insert b.1 b.2) r = r ++ s := by
  induction s generalizing r with
  | nil => rw [List.foldl_nil, List.append_nil]
  | cons b s ih =>
    have hb : b.1 ∉ r.dom := by
      intro hmem
      rw [Distinct, dom_append] at hs
      exact (List.nodup_append.1 hs).2.2 _ hmem b.1 (by simp) rfl
    rw [List.foldl_cons, get_eq_none_iff.2 hb, if_neg (by simp), insert_of_notMem hb,
      ih (by simpa using hs), List.append_assoc, List.singleton_append]

/-- **Composing an extension with what it extends** rewrites the old bindings and appends the new
ones. -/
theorem compose_extension {s ext : Subst} (h : (s ++ ext).Distinct) :
    compose (s ++ ext) s = s.map (fun b ↦ (b.1, applyTy (s ++ ext) b.2)) ++ ext := by
  have hs : s.Distinct := by
    rw [Distinct, dom_append] at h
    exact (List.nodup_append.1 h).1
  have hdom : dom (s.map fun b ↦ (b.1, applyTy (s ++ ext) b.2)) = s.dom := by
    rw [dom, List.map_map]
    rfl
  have hskip : ∀ b ∈ s, b.1 ∈ dom (s.map fun b ↦ (b.1, applyTy (s ++ ext) b.2)) := fun b hb ↦ by
    rw [hdom]
    exact List.mem_map_of_mem hb
  rw [compose, foldl_insert_map s hs, List.foldl_append, foldl_skip hskip, foldl_add]
  rw [Distinct, dom_append, hdom, ← dom_append]
  exact h

end Subst

/-! ### The data -/

/-- The bindings with their index. -/
structure SubstData where
  mappings : Subst
  index : TyVarId → Option ℕ
  /-- Variable to the positions whose type mentioned it (a superset). -/
  users : TyVarId → List ℕ
  /-- Positions whose type may mention a bound variable (a superset). -/
  stale : Finset ℕ

namespace SubstData

def empty : SubstData := ⟨[], fun _ ↦ none, fun _ ↦ [], ∅⟩

instance : Inhabited SubstData := ⟨empty⟩

/-- The free variables of the type at a position. -/
def freeAt (d : SubstData) (pos : ℕ) : List TyVarId :=
  match d.mappings[pos]? with
  | some b => b.2.ftv.dedup
  | none => []

def mentionsBound (d : SubstData) (t : Ty) : Bool := t.ftv.any fun v ↦ (d.index v).isSome

/-- Note what `mappings[pos]`, just written, mentions. -/
def track (d : SubstData) (pos : ℕ) : SubstData :=
  { d with
    stale := if (d.freeAt pos).any fun v ↦ (d.index v).isSome then insert pos d.stale else d.stale
    users := fun v ↦ if v ∈ d.freeAt pos then d.users v ++ [pos] else d.users v }

/-- Overwrite the type at a position. -/
def setTy (d : SubstData) (pos : ℕ) (t : Ty) : SubstData :=
  { d with mappings := d.mappings.modify pos fun b ↦ (b.1, t) }

def insert (d : SubstData) (v : TyVarId) (t : Ty) : SubstData :=
  match d.index v with
  | some pos => (d.setTy pos t).track pos
  | none =>
    let pos := d.mappings.length
    -- whatever mentions `v` now mentions a bound variable
    track ⟨d.mappings ++ [(v, t)], Function.update d.index v (some pos), d.users,
      d.stale ∪ (d.users v).toFinset⟩ pos

/-- The index of a list of bindings, a later position over an earlier one. -/
def indexOf (mappings : Subst) : TyVarId → Option ℕ :=
  mappings.zipIdx.foldl (fun index b ↦ Function.update index b.1.1 (some b.2)) fun _ ↦ none

def reindex (d : SubstData) : SubstData :=
  (List.range d.mappings.length).foldl track ⟨d.mappings, indexOf d.mappings, fun _ ↦ [], ∅⟩

/-- Remove the binding at the position the index has for `v`. -/
def remove (d : SubstData) (v : TyVarId) : SubstData :=
  match d.index v with
  | some pos =>
    reindex { d with
      mappings := d.mappings.eraseIdx pos
      index := Function.update d.index v none }
  | none => d

/-- A fresh substitution from the bindings `s₁`, looked up by `get₁`, and `s₂`. -/
def compose (get₁ : TyVarId → Option Ty) (s₁ s₂ : Subst) : SubstData :=
  s₁.foldl (fun r b ↦ if (r.index b.1).isSome then r else r.insert b.1 b.2)
    (s₂.foldl (fun r b ↦ r.insert b.1 (b.2.replace get₁)) empty)

/-! ### What the index keeps -/

/-- The index is right, and the two supersets hold every position they must of those in `S`. -/
structure TrackedOn (d : SubstData) (S : ℕ → Prop) : Prop where
  index : ∀ v pos, d.index v = some pos ↔ ∃ t, d.mappings[pos]? = some (v, t)
  users : ∀ pos b v, S pos → d.mappings[pos]? = some b → v ∈ b.2.ftv → pos ∈ d.users v
  stale : ∀ pos b v, S pos → d.mappings[pos]? = some b → v ∈ b.2.ftv → (d.index v).isSome →
    pos ∈ d.stale
  users_lt : ∀ v, ∀ pos ∈ d.users v, pos < d.mappings.length
  stale_lt : ∀ pos ∈ d.stale, pos < d.mappings.length

/-- The invariant of the data. -/
abbrev Tracked (d : SubstData) : Prop := TrackedOn d fun _ ↦ True

theorem TrackedOn.mono {d : SubstData} {S T : ℕ → Prop} (h : TrackedOn d S)
    (hT : ∀ pos < d.mappings.length, T pos → S pos) : TrackedOn d T :=
  ⟨h.index,
    fun pos b v hpos hb ↦ h.users pos b v (hT pos (List.getElem?_eq_some_iff.1 hb).1 hpos) hb,
    fun pos b v hpos hb ↦ h.stale pos b v (hT pos (List.getElem?_eq_some_iff.1 hb).1 hpos) hb,
    h.users_lt, h.stale_lt⟩

@[simp] theorem track_mappings (d : SubstData) (pos : ℕ) : (d.track pos).mappings = d.mappings := rfl

@[simp] theorem track_index (d : SubstData) (pos : ℕ) : (d.track pos).index = d.index := rfl

theorem mem_freeAt {d : SubstData} {pos : ℕ} {v : TyVarId} :
    v ∈ d.freeAt pos ↔ ∃ b, d.mappings[pos]? = some b ∧ v ∈ b.2.ftv := by
  unfold freeAt
  cases h : d.mappings[pos]? with
  | none => simp
  | some b => simp

theorem mem_track_users {d : SubstData} {pos q : ℕ} {v : TyVarId} :
    q ∈ (d.track pos).users v ↔ q ∈ d.users v ∨ (q = pos ∧ v ∈ d.freeAt pos) := by
  simp only [track]
  split
  · rename_i h
    simp [h]
  · rename_i h
    simp [h]

theorem mem_track_stale {d : SubstData} {pos q : ℕ} :
    q ∈ (d.track pos).stale ↔
      q ∈ d.stale ∨ (q = pos ∧ ∃ v ∈ d.freeAt pos, (d.index v).isSome) := by
  simp only [track]
  by_cases h : (d.freeAt pos).any fun v ↦ (d.index v).isSome
  · rw [if_pos h, Finset.mem_insert]
    have hex : ∃ v ∈ d.freeAt pos, (d.index v).isSome := by simpa using h
    rw [and_iff_left hex, or_comm]
  · rw [if_neg h]
    refine ⟨.inl, fun hq ↦ hq.resolve_right fun hex ↦ h ?_⟩
    simpa using hex.2

/-- Tracking a position puts it into the supersets that need it. -/
theorem TrackedOn.track {d : SubstData} {S : ℕ → Prop} (h : TrackedOn d S) {pos : ℕ}
    (hpos : pos < d.mappings.length) : TrackedOn (d.track pos) fun q ↦ S q ∨ q = pos := by
  refine ⟨h.index, fun q b v hq hb hv ↦ ?_, fun q b v hq hb hv hbound ↦ ?_, fun v q hq ↦ ?_,
    fun q hq ↦ ?_⟩
  · rw [mem_track_users]
    rcases hq with hq | rfl
    · exact .inl (h.users q b v hq hb hv)
    · exact .inr ⟨rfl, mem_freeAt.2 ⟨b, hb, hv⟩⟩
  · rw [mem_track_stale]
    rcases hq with hq | rfl
    · exact .inl (h.stale q b v hq hb hv hbound)
    · exact .inr ⟨rfl, v, mem_freeAt.2 ⟨b, hb, hv⟩, hbound⟩
  · rcases mem_track_users.1 hq with hq | ⟨rfl, -⟩
    · exact h.users_lt v q hq
    · exact hpos
  · rcases mem_track_stale.1 hq with hq | ⟨rfl, -⟩
    · exact h.stale_lt q hq
    · exact hpos

/-- What is tracked but for the position just written is tracked after that. -/
theorem TrackedOn.track_rest {d : SubstData} {pos : ℕ} (h : TrackedOn d (· ≠ pos))
    (hpos : pos < d.mappings.length) : (d.track pos).Tracked :=
  (h.track hpos).mono fun q _ _ ↦ (em (q = pos)).symm

namespace Tracked

variable {d : SubstData}

theorem empty : SubstData.empty.Tracked := by
  refine ⟨fun v pos ↦ ?_, fun pos b v _ h ↦ ?_, fun pos b v _ h ↦ ?_, fun v pos h ↦ ?_,
    fun pos h ↦ ?_⟩
  · simp [SubstData.empty]
  · simp [SubstData.empty] at h
  · simp [SubstData.empty] at h
  · cases h
  · cases h

theorem isSome_index (h : d.Tracked) {v : TyVarId} : (d.index v).isSome ↔ v ∈ d.mappings.dom := by
  rw [Option.isSome_iff_exists, Subst.dom, List.mem_map]
  constructor
  · rintro ⟨pos, hpos⟩
    obtain ⟨t, ht⟩ := (h.index v pos).1 hpos
    exact ⟨(v, t), List.mem_of_getElem? ht, rfl⟩
  · rintro ⟨⟨w, t⟩, hb, rfl⟩
    obtain ⟨pos, hpos⟩ := List.mem_iff_getElem?.1 hb
    exact ⟨pos, (h.index w pos).2 ⟨t, hpos⟩⟩

theorem index_eq_none (h : d.Tracked) {v : TyVarId} : d.index v = none ↔ v ∉ d.mappings.dom := by
  rw [← h.isSome_index, Option.not_isSome_iff_eq_none]

/-- A variable is at one position only. -/
theorem distinct (h : d.Tracked) : d.mappings.Distinct := by
  rw [Subst.Distinct, Subst.dom, List.nodup_iff_getElem?_ne_getElem?]
  intro i j hij hj heq
  rw [List.length_map] at hj
  rw [List.getElem?_map, List.getElem?_map, List.getElem?_eq_getElem (hij.trans hj),
    List.getElem?_eq_getElem hj, Option.map_some, Option.map_some, Option.some.injEq] at heq
  have hi : d.index d.mappings[i].1 = some i :=
    (h.index _ i).2 ⟨_, List.getElem?_eq_getElem (hij.trans hj)⟩
  have hj' : d.index d.mappings[j].1 = some j := (h.index _ j).2 ⟨_, List.getElem?_eq_getElem hj⟩
  rw [heq, hj', Option.some.injEq] at hi
  omega

/-- Looking up through the index. -/
theorem get_eq (h : d.Tracked) (v : TyVarId) :
    ((d.index v).bind fun pos ↦ d.mappings[pos]?).map Prod.snd = d.mappings.get v := by
  cases hv : d.index v with
  | none => exact (Subst.get_eq_none_iff.2 (h.index_eq_none.1 hv)).symm
  | some pos =>
    obtain ⟨t, ht⟩ := (h.index v pos).1 hv
    rw [Option.bind_some, ht, Option.map_some, Subst.get_of_mem h.distinct (List.mem_of_getElem? ht)]

/-- Overwriting a type leaves the variables where they are. -/
theorem getElem?_setTy (d : SubstData) (pos q : ℕ) (t : Ty) :
    (d.setTy pos t).mappings[q]? =
      if q = pos then d.mappings[q]?.map fun b ↦ (b.1, t) else d.mappings[q]? := by
  simp only [setTy, List.getElem?_modify]
  by_cases hq : q = pos
  · simp [hq]
  · simp [hq, show ¬pos = q from fun h ↦ hq h.symm]

theorem setTy (h : d.Tracked) {pos : ℕ} (hpos : pos < d.mappings.length) (t : Ty) :
    ((d.setTy pos t).track pos).Tracked := by
  have hother : ∀ q, q ≠ pos → (d.setTy pos t).mappings[q]? = d.mappings[q]? := fun q hq ↦ by
    rw [getElem?_setTy, if_neg hq]
  have hlen : (d.setTy pos t).mappings.length = d.mappings.length := List.length_modify ..
  refine TrackedOn.track_rest ⟨fun v q ↦ ?_, fun q b v hq hb ↦ ?_, fun q b v hq hb ↦ ?_, ?_, ?_⟩
    (hlen ▸ hpos)
  · rw [show (d.setTy pos t).index = d.index from rfl, h.index, getElem?_setTy]
    by_cases hq : q = pos
    · rw [if_pos hq]
      cases hb : d.mappings[q]? with
      | none => simp
      | some b => simp [Prod.ext_iff]
    · rw [if_neg hq]
  · exact h.users q b v trivial (hother q hq ▸ hb)
  · exact h.stale q b v trivial (hother q hq ▸ hb)
  · exact hlen ▸ h.users_lt
  · exact hlen ▸ h.stale_lt

theorem insert (h : d.Tracked) (v : TyVarId) (t : Ty) : (d.insert v t).Tracked := by
  unfold SubstData.insert
  cases hv : d.index v with
  | some pos =>
    obtain ⟨u, hu⟩ := (h.index v pos).1 hv
    exact h.setTy (List.getElem?_eq_some_iff.1 hu).1 t
  | none =>
    have hlen : (d.mappings ++ [(v, t)]).length = d.mappings.length + 1 := by simp
    have hold : ∀ q, q ≠ d.mappings.length → (d.mappings ++ [(v, t)])[q]? = d.mappings[q]? := by
      intro q hq
      rcases Nat.lt_or_ge q d.mappings.length with hlt | hge
      · exact List.getElem?_append_left hlt
      · rw [List.getElem?_eq_none (by omega), List.getElem?_eq_none hge]
    refine TrackedOn.track_rest ⟨fun w q ↦ ?_, fun q b w hq hb ↦ ?_, fun q b w hq hb hw hbound ↦ ?_,
      fun w q hq ↦ ?_, fun q hq ↦ ?_⟩ (by simp)
    · show Function.update d.index v (some d.mappings.length) w = some q ↔ _
      by_cases hq : q = d.mappings.length
      · subst hq
        simp only [List.getElem?_concat_length, Option.some.injEq, Prod.mk.injEq]
        by_cases hw : w = v
        · subst hw
          simp
        · rw [Function.update_of_ne hw, h.index]
          simp [Ne.symm hw]
      · simp only [hold q hq]
        by_cases hw : w = v
        · subst hw
          rw [Function.update_self, ← h.index, hv]
          simp [Ne.symm hq]
        · rw [Function.update_of_ne hw, h.index]
    · exact h.users q b w trivial (hold q hq ▸ hb)
    · rw [Finset.mem_union, List.mem_toFinset]
      by_cases hwv : w = v
      · subst hwv
        exact .inr (h.users q b w trivial (hold q hq ▸ hb) hw)
      · have hbound : (d.index w).isSome := by
          rwa [← Function.update_of_ne hwv (some d.mappings.length) d.index]
        exact .inl (h.stale q b w trivial (hold q hq ▸ hb) hw hbound)
    · rw [hlen]
      exact Nat.lt_succ_of_lt (h.users_lt w q hq)
    · rw [hlen]
      rcases Finset.mem_union.1 hq with hq | hq
      · exact Nat.lt_succ_of_lt (h.stale_lt q hq)
      · exact Nat.lt_succ_of_lt (h.users_lt v q (List.mem_toFinset.1 hq))

/-- The data keeps the plain ordered map. -/
theorem mappings_insert (h : d.Tracked) (v : TyVarId) (t : Ty) :
    (d.insert v t).mappings = d.mappings.insert v t := by
  unfold SubstData.insert
  cases hv : d.index v with
  | some pos =>
    obtain ⟨u, hu⟩ := (h.index v pos).1 hv
    exact (Subst.insert_eq_modify h.distinct hu t).symm
  | none => exact (Subst.insert_of_notMem (h.index_eq_none.1 hv) t).symm

/-- A run of inserts. -/
theorem foldl_insert (h : d.Tracked) (bs : Subst) :
    (bs.foldl (fun d b ↦ d.insert b.1 b.2) d).Tracked ∧
      (bs.foldl (fun d b ↦ d.insert b.1 b.2) d).mappings =
        bs.foldl (fun s b ↦ s.insert b.1 b.2) d.mappings := by
  induction bs generalizing d with
  | nil => exact ⟨h, rfl⟩
  | cons b bs ih =>
    have hrest := ih (h.insert b.1 b.2)
    rw [h.mappings_insert] at hrest
    exact hrest

end Tracked

/-! ### Building the index anew -/

theorem foldl_index_eq {m : Subst} (hm : m.Distinct) (n : ℕ) (init : TyVarId → Option ℕ)
    (v : TyVarId) (pos : ℕ) :
    (m.zipIdx n).foldl (fun (index : TyVarId → Option ℕ) b ↦ Function.update index b.1.1 (some b.2))
        init v = some pos ↔
      (∃ k t, m[k]? = some (v, t) ∧ pos = n + k) ∨ (v ∉ m.dom ∧ init v = some pos) := by
  induction m generalizing n init with
  | nil => simp [Subst.dom]
  | cons b m ih =>
    obtain ⟨w, u⟩ := b
    obtain ⟨hw, hm⟩ := List.nodup_cons.1 hm
    rw [List.zipIdx_cons, List.foldl_cons, ih hm]
    constructor
    · rintro (⟨k, t, hk, rfl⟩ | ⟨hv, hinit⟩)
      · exact .inl ⟨k + 1, t, hk, by omega⟩
      · by_cases hvw : v = w
        · subst hvw
          rw [Function.update_self, Option.some.injEq] at hinit
          exact .inl ⟨0, u, rfl, by omega⟩
        · rw [Function.update_of_ne hvw] at hinit
          refine .inr ⟨?_, hinit⟩
          rw [Subst.dom_cons, List.mem_cons, not_or]
          exact ⟨hvw, hv⟩
    · rintro (⟨k, t, hk, rfl⟩ | ⟨hv, hinit⟩)
      · cases k with
        | zero =>
          cases hk
          exact .inr ⟨hw, by rw [Function.update_self, Nat.add_zero]⟩
        | succ k => exact .inl ⟨k, t, hk, by omega⟩
      · rw [Subst.dom_cons, List.mem_cons, not_or] at hv
        exact .inr ⟨hv.2, by rw [Function.update_of_ne hv.1, hinit]⟩

theorem indexOf_eq {m : Subst} (hm : m.Distinct) (v : TyVarId) (pos : ℕ) :
    indexOf m v = some pos ↔ ∃ t, m[pos]? = some (v, t) := by
  rw [indexOf, foldl_index_eq hm]
  constructor
  · rintro (⟨k, t, hk, rfl⟩ | ⟨-, hnone⟩)
    · exact ⟨t, by rwa [Nat.zero_add]⟩
    · cases hnone
  · rintro ⟨t, ht⟩
    exact .inl ⟨pos, t, ht, (Nat.zero_add pos).symm⟩

/-- Tracking the positions one by one. -/
theorem TrackedOn.foldl_track {d : SubstData} {S : ℕ → Prop} (h : TrackedOn d S) (ps : List ℕ)
    (hps : ∀ pos ∈ ps, pos < d.mappings.length) :
    TrackedOn (ps.foldl SubstData.track d) (fun q ↦ S q ∨ q ∈ ps) ∧
      (ps.foldl SubstData.track d).mappings = d.mappings := by
  induction ps generalizing d S with
  | nil => exact ⟨h.mono fun q _ hq ↦ hq.resolve_right List.not_mem_nil, rfl⟩
  | cons pos ps ih =>
    obtain ⟨hon, hmap⟩ := ih (h.track (hps pos (by simp))) fun q hq ↦ hps q (by simp [hq])
    refine ⟨hon.mono fun q _ hq ↦ ?_, hmap⟩
    rw [List.mem_cons] at hq
    tauto

theorem tracked_reindex {d : SubstData} (hd : d.mappings.Distinct) :
    d.reindex.Tracked ∧ d.reindex.mappings = d.mappings := by
  have hstart : TrackedOn ⟨d.mappings, indexOf d.mappings, fun _ ↦ [], ∅⟩ fun _ ↦ False :=
    ⟨indexOf_eq hd, fun _ _ _ h ↦ h.elim, fun _ _ _ h ↦ h.elim,
      fun _ _ h ↦ (List.not_mem_nil h).elim, fun _ h ↦ (Finset.notMem_empty _ h).elim⟩
  obtain ⟨hon, hmap⟩ := hstart.foldl_track (List.range d.mappings.length)
    fun pos hpos ↦ List.mem_range.1 hpos
  refine ⟨hon.mono fun q hq _ ↦ .inr (List.mem_range.2 ?_), hmap⟩
  rwa [hmap] at hq

namespace Tracked

variable {d : SubstData}

theorem remove (h : d.Tracked) (v : TyVarId) :
    (d.remove v).Tracked ∧ (d.remove v).mappings = d.mappings.erase v := by
  unfold SubstData.remove
  cases hv : d.index v with
  | none => exact ⟨h, (Subst.erase_of_notMem (h.index_eq_none.1 hv)).symm⟩
  | some pos =>
    obtain ⟨u, hu⟩ := (h.index v pos).1 hv
    have herase := Subst.erase_eq_eraseIdx h.distinct hu
    obtain ⟨htr, hmap⟩ := tracked_reindex (d := { d with
      mappings := d.mappings.eraseIdx pos, index := Function.update d.index v none })
      (herase ▸ h.distinct.erase v)
    exact ⟨htr, hmap.trans herase.symm⟩

/-- Adding the bindings that are new. -/
theorem foldl_add (h : d.Tracked) (bs : Subst) :
    (bs.foldl (fun r b ↦ if (r.index b.1).isSome then r else r.insert b.1 b.2) d).Tracked ∧
      (bs.foldl (fun r b ↦ if (r.index b.1).isSome then r else r.insert b.1 b.2) d).mappings =
        bs.foldl (fun s b ↦ if (s.get b.1).isSome then s else s.insert b.1 b.2) d.mappings := by
  induction bs generalizing d with
  | nil => exact ⟨h, rfl⟩
  | cons b bs ih =>
    have hsome : (d.index b.1).isSome = (d.mappings.get b.1).isSome := by
      rw [Bool.eq_iff_iff, h.isSome_index, ← Option.ne_none_iff_isSome, ne_eq, Subst.get_eq_none_iff,
        not_not]
    rw [List.foldl_cons, List.foldl_cons, hsome]
    split
    · exact ih h
    · rw [← h.mappings_insert]
      exact ih (h.insert b.1 b.2)

end Tracked

/-- Composing builds the plain composition. -/
theorem tracked_compose (s₁ s₂ : Subst) :
    (compose s₁.get s₁ s₂).Tracked ∧ (compose s₁.get s₁ s₂).mappings = Subst.compose s₁ s₂ := by
  have hfirst := Tracked.empty.foldl_insert (s₂.map fun b ↦ (b.1, applyTy s₁ b.2))
  rw [List.foldl_map, List.foldl_map] at hfirst
  have hsecond := hfirst.1.foldl_add s₁
  rw [hfirst.2] at hsecond
  exact hsecond

/-! ### Absorbing an extension in place -/

/-- The positions to look at: the stale ones and the users of the new bindings. -/
def work (d : SubstData) (ext : Subst) : List ℕ :=
  (ext.foldl (fun w b ↦ w ∪ (d.users b.1).toFinset) d.stale).sort (· ≤ ·)

/-- The positions whose type changes, with their new types. -/
def updates (d : SubstData) (ext : Subst) (get : TyVarId → Option Ty) : List (ℕ × Ty) :=
  (d.work ext).filterMap fun pos ↦
    match d.mappings[pos]? with
    | some b => let t := b.2.replace get; if t ≠ b.2 then some (pos, t) else none
    | none => none

/-- Rewrite the positions, add the new bindings, and drop from `stale` what mentions no bound
variable. -/
def extend (d : SubstData) (ups : List (ℕ × Ty)) (ext : Subst) : SubstData :=
  let d := ups.foldl (fun d u ↦ (d.setTy u.1 u.2).track u.1) d
  let d := ext.foldl (fun d b ↦ d.insert b.1 b.2) d
  { d with stale := d.stale.filter fun pos ↦ d.mappings[pos]?.any fun b ↦ d.mentionsBound b.2 }

theorem mem_work {d : SubstData} {ext : Subst} {pos : ℕ} :
    pos ∈ d.work ext ↔ pos ∈ d.stale ∨ ∃ b ∈ ext, pos ∈ d.users b.1 := by
  rw [work, Finset.mem_sort]
  generalize d.stale = w
  induction ext generalizing w with
  | nil => simp
  | cons b ext ih =>
    rw [List.foldl_cons, ih, Finset.mem_union, List.mem_toFinset]
    simp only [List.mem_cons, exists_eq_or_imp, or_assoc]

/-- **A type that no superset names is left alone**: none of its variables is bound, by the data or by
the extension. -/
theorem Tracked.applyTy_eq {d : SubstData} (h : d.Tracked) {ext : Subst} {pos : ℕ} {b : TyVarId × Ty}
    (hb : d.mappings[pos]? = some b) (hpos : pos ∉ d.work ext) :
    applyTy (d.mappings ++ ext) b.2 = b.2 := by
  rw [mem_work, not_or] at hpos
  refine applyTy_of_forall fun v hv ↦ .inl (Subst.get_eq_none_iff.2 ?_)
  rw [Subst.dom_append, List.mem_append, not_or]
  constructor
  · intro hmem
    exact hpos.1 (h.stale pos b v trivial hb hv (h.isSome_index.2 hmem))
  · intro hmem
    obtain ⟨c, hc, rfl⟩ := List.mem_map.1 hmem
    exact hpos.2 ⟨c, hc, h.users pos b c.1 trivial hb hv⟩

/-- Overwriting types, one position after another. -/
theorem Tracked.foldl_setTy {d : SubstData} (h : d.Tracked) (ups : List (ℕ × Ty)) (F : ℕ → Ty)
    (hF : ∀ u ∈ ups, u.2 = F u.1) (hlt : ∀ u ∈ ups, u.1 < d.mappings.length) :
    (ups.foldl (fun d u ↦ (d.setTy u.1 u.2).track u.1) d).Tracked ∧
      ∀ q, (ups.foldl (fun d u ↦ (d.setTy u.1 u.2).track u.1) d).mappings[q]? =
        d.mappings[q]?.map fun b ↦ (b.1, if q ∈ ups.map Prod.fst then F q else b.2) := by
  induction ups generalizing d with
  | nil =>
    refine ⟨h, fun q ↦ ?_⟩
    simp
  | cons u ups ih =>
    have hlen : (d.setTy u.1 u.2).mappings.length = d.mappings.length := List.length_modify ..
    obtain ⟨htr, hget⟩ := ih (h.setTy (hlt u (by simp)) u.2) (fun w hw ↦ hF w (by simp [hw]))
      (fun w hw ↦ by
        rw [track_mappings, hlen]
        exact hlt w (by simp [hw]))
    refine ⟨htr, fun q ↦ ?_⟩
    rw [List.foldl_cons, hget, track_mappings, Tracked.getElem?_setTy]
    by_cases hq : q = u.1
    · subst hq
      rw [if_pos rfl, Option.map_map, ← hF u (by simp)]
      simp [Function.comp_def]
    · rw [if_neg hq]
      have hiff : q ∈ (u :: ups).map Prod.fst ↔ q ∈ ups.map Prod.fst := by
        rw [List.map_cons, List.mem_cons, or_iff_right hq]
      simp only [hiff]

/-- **Absorbing in place is composing.** -/
theorem Tracked.extend {d : SubstData} (h : d.Tracked) {ext : Subst}
    (hext : (d.mappings ++ ext).Distinct) :
    (d.extend (d.updates ext (d.mappings ++ ext).get) ext).Tracked ∧
      (d.extend (d.updates ext (d.mappings ++ ext).get) ext).mappings =
        Subst.compose (d.mappings ++ ext) d.mappings := by
  set s := d.mappings ++ ext with hs
  have hmem : ∀ u, u ∈ d.updates ext s.get ↔ ∃ b, u.1 ∈ d.work ext ∧ d.mappings[u.1]? = some b ∧
      applyTy s b.2 ≠ b.2 ∧ u.2 = applyTy s b.2 := by
    rintro ⟨pos, t⟩
    simp only [updates, List.mem_filterMap]
    constructor
    · rintro ⟨q, hq, hu⟩
      split at hu
      · rename_i b hb
        split at hu
        · rename_i hne
          cases hu
          exact ⟨b, hq, hb, hne, rfl⟩
        · cases hu
      · cases hu
    · rintro ⟨b, hq, hb, hne, rfl⟩
      refine ⟨pos, hq, ?_⟩
      rw [show d.mappings[pos]? = some b from hb]
      exact if_pos hne
  -- the rewritten positions are those whose type changes
  obtain ⟨htr, hget⟩ := h.foldl_setTy (d.updates ext s.get)
    (fun q ↦ ((d.mappings[q]?).map fun b ↦ applyTy s b.2).getD .never)
    (fun u hu ↦ by
      obtain ⟨b, -, hb, -, hu⟩ := (hmem u).1 hu
      rw [hb, hu]
      rfl)
    (fun u hu ↦ by
      obtain ⟨b, -, hb, -, -⟩ := (hmem u).1 hu
      exact (List.getElem?_eq_some_iff.1 hb).1)
  generalize hd' : (d.updates ext s.get).foldl (fun d u ↦ (d.setTy u.1 u.2).track u.1) d = d' at htr hget
  have hmap : d'.mappings = d.mappings.map fun b ↦ (b.1, applyTy s b.2) := by
    refine List.ext_getElem? fun q ↦ ?_
    rw [hget, List.getElem?_map]
    cases hb : d.mappings[q]? with
    | none => rfl
    | some b =>
      rw [Option.map_some, Option.map_some, Option.map_some, Option.getD_some]
      split
      · rfl
      · rename_i hq
        by_cases hne : applyTy s b.2 = b.2
        · rw [hne]
        · have hwork : q ∉ d.work ext := fun hwork ↦
            hq (List.mem_map.2 ⟨(q, applyTy s b.2), (hmem _).2 ⟨b, hwork, hb, hne, rfl⟩, rfl⟩)
          exact absurd (h.applyTy_eq hb hwork) hne
  obtain ⟨htr', hmap'⟩ := htr.foldl_insert ext
  have hdom : d'.mappings.dom = d.mappings.dom := by
    rw [hmap, Subst.dom, List.map_map]
    rfl
  rw [Subst.foldl_insert_eq_append (by rwa [Subst.Distinct, Subst.dom_append, hdom, ← Subst.dom_append]),
    hmap, ← Subst.compose_extension hext] at hmap'
  unfold SubstData.extend
  simp only [hd']
  refine ⟨⟨htr'.index, htr'.users, fun q b v _ hb hv hbound ↦ ?_, htr'.users_lt, fun q hq ↦ ?_⟩, hmap'⟩
  · refine Finset.mem_filter.2 ⟨htr'.stale q b v trivial hb hv hbound, ?_⟩
    simp only at hb
    rw [hb, Option.any_some, mentionsBound, List.any_eq_true]
    exact ⟨v, hv, hbound⟩
  · exact htr'.stale_lt q (Finset.mem_filter.1 hq).1

end SubstData

end CoilLang
