import Mathlib.Data.Finset.Card
import Mathlib.Logic.Function.Basic
import Mathlib.Logic.Relation

/-!
# Marking with a gray list

Marking finds what some roots reach in a finite graph. A node is marked when it is first met and waits on the
**gray** list until its items are scanned; a marked node that does not wait is black. An item is a node and
whether it has to wait: one that has no items of its own may be marked without going on the list.

The invariant is the tricolour one (`Inv`): **a black node points at marked nodes only**. With an empty gray list
the marked nodes are closed (`Inv.reach`), and scanning ends since each node waits once (`weight_scan`). The edges of
the invariant are a parameter: items may be more than the edges that matter, as where a number is taken for an address.
-/

namespace CoilLang.Tricolour

variable {α : Type*}

/-- The marked nodes and those of them that wait to be scanned. -/
structure Marks (α : Type*) where
  marked : α → Bool
  gray : List α

variable {items : α → List (Bool × α)} {edge : α → α → Prop} {m m' : Marks α} {a b : α}

/-- `b` is an item of `a`. -/
def Next (items : α → List (Bool × α)) (a b : α) : Prop := ∃ i ∈ items a, i.2 = b

/-- What the nodes of `S` reach. -/
def Reach (edge : α → α → Prop) (S : α → Prop) (b : α) : Prop := ∃ a, S a ∧ Relation.ReflTransGen edge a b

theorem Reach.root {S : α → Prop} (h : S a) : Reach edge S a := ⟨a, h, .refl⟩

theorem Reach.next {S : α → Prop} (h : Reach edge S a) (hn : edge a b) : Reach edge S b := by
  obtain ⟨r, hr, hra⟩ := h
  exact ⟨r, hr, hra.tail hn⟩

/-- A closed set that holds the roots holds what they reach. -/
theorem Reach.of_closed {S P : α → Prop} (h : Reach edge S b) (hS : ∀ a, S a → P a)
    (hP : ∀ a b, P a → edge a b → P b) : P b := by
  obtain ⟨r, hr, hrb⟩ := h
  induction hrb with
  | refl => exact hS _ hr
  | tail _ hn ih => exact hP _ _ ih hn

section
variable [DecidableEq α]

/-! ### Visiting items -/

/-- Marks an item that is not marked yet. -/
def Marks.visit (m : Marks α) (i : Bool × α) : Marks α :=
  if m.marked i.2 then m
  else ⟨Function.update m.marked i.2 true, if i.1 then i.2 :: m.gray else m.gray⟩

/-- Scans the first gray node. -/
def Marks.scan (items : α → List (Bool × α)) (m : Marks α) : Marks α :=
  match m.gray with
  | [] => m
  | a :: rest => (items a).foldl .visit ⟨m.marked, rest⟩

theorem scan_of_nil (h : m.gray = []) : m.scan items = m := by
  rw [Marks.scan, h]

theorem scan_of_cons {rest : List α} (h : m.gray = a :: rest) :
    m.scan items = (items a).foldl .visit ⟨m.marked, rest⟩ := by
  rw [Marks.scan, h]

theorem marked_visit {i : Bool × α} : (m.visit i).marked b = true ↔ m.marked b = true ∨ i.2 = b := by
  rw [Marks.visit]
  split
  · rename_i hm
    constructor
    · exact .inl
    · rintro (h | rfl)
      · exact h
      · exact hm
  · show Function.update m.marked i.2 true b = true ↔ _
    rw [Function.update_apply]
    split
    · rename_i h
      simp [h]
    · rename_i h
      simp [Ne.symm h]

theorem mem_gray_visit {i : Bool × α} (h : b ∈ (m.visit i).gray) :
    b ∈ m.gray ∨ m.marked b = false ∧ i = (true, b) := by
  rw [Marks.visit] at h
  split at h
  · exact .inl h
  · rename_i hm
    cases hi : i.1 with
    | false =>
      rw [hi] at h
      exact .inl h
    | true =>
      rw [hi] at h
      rcases List.mem_cons.mp h with rfl | h
      · exact .inr ⟨Bool.not_eq_true _ ▸ hm, Prod.ext hi rfl⟩
      · exact .inl h

/-- What visiting a list of items does: all of them are marked, those newly marked wait unless one of the
items marks them only, and nothing else changes. -/
structure Visited (l : List (Bool × α)) (m m' : Marks α) : Prop where
  marked : ∀ b, m'.marked b = true ↔ m.marked b = true ∨ ∃ i ∈ l, i.2 = b
  kept : ∀ b ∈ m.gray, b ∈ m'.gray
  gray : ∀ b ∈ m'.gray, b ∈ m.gray ∨ m.marked b = false ∧ (true, b) ∈ l
  waits : ∀ b, m.marked b = false → m'.marked b = true → b ∈ m'.gray ∨ (false, b) ∈ l

theorem visited_foldl (l : List (Bool × α)) (m : Marks α) : Visited l m (l.foldl .visit m) := by
  induction l generalizing m with
  | nil => exact ⟨fun b ↦ by simp, fun _ h ↦ h, fun _ h ↦ .inl h, fun b h h' ↦ by simp [h] at h'⟩
  | cons i l ih =>
    obtain ⟨hmarked, hkept, hgray, hwaits⟩ := ih (m.visit i)
    refine ⟨fun b ↦ ?_, fun b hb ↦ hkept b ?_, fun b hb ↦ ?_, fun b hb hb' ↦ ?_⟩
    · rw [List.foldl_cons, hmarked, marked_visit]
      simp [or_assoc]
    · rw [Marks.visit]
      split
      · exact hb
      · show b ∈ if i.1 then i.2 :: m.gray else m.gray
        split
        · exact List.mem_cons_of_mem _ hb
        · exact hb
    · rcases hgray b hb with h | ⟨h, hl⟩
      · rcases mem_gray_visit h with h | ⟨hm, rfl⟩
        · exact .inl h
        · exact .inr ⟨hm, List.mem_cons_self⟩
      · refine .inr ⟨?_, List.mem_cons_of_mem _ hl⟩
        by_contra hm
        exact absurd (marked_visit.mpr (.inl (Bool.not_eq_false _ ▸ hm))) (by rw [h]; simp)
    · cases hv : (m.visit i).marked b with
      | false => exact (hwaits b hv hb').imp_right (List.mem_cons_of_mem _)
      | true =>
        obtain h | rfl := marked_visit.mp hv
        · rw [hb] at h
          cases h
        cases hi : i.1 with
        | false => exact .inr (List.mem_cons.mpr (.inl (Prod.ext hi.symm rfl)))
        | true =>
          refine .inl (hkept _ ?_)
          rw [Marks.visit, if_neg (by rw [hb]; simp), hi]
          exact List.mem_cons_self

/-! ### The invariant -/

/-- Gray nodes are marked, and the edges of a marked node that does not wait lead to marked nodes. -/
structure Inv (edge : α → α → Prop) (m : Marks α) : Prop where
  gray : ∀ a ∈ m.gray, m.marked a = true
  scanned : ∀ a, m.marked a = true → a ∉ m.gray → ∀ b, edge a b → m.marked b = true

/-- Nodes that are only marked have no edges. -/
def Leaves (edge : α → α → Prop) (l : List (Bool × α)) : Prop := ∀ k, (false, k) ∈ l → ∀ b, ¬ edge k b

omit [DecidableEq α] in
/-- Nothing is marked. -/
theorem inv_white (h : ∀ a, m.marked a = false) (hgray : m.gray = []) : Inv edge m where
  gray a ha := by
    rw [hgray] at ha
    cases ha
  scanned a ha := by
    rw [h] at ha
    cases ha

omit [DecidableEq α] in
/-- Without edges the invariant is that gray nodes are marked. -/
theorem inv_of_gray (h : ∀ a ∈ m.gray, m.marked a = true) : Inv (fun _ _ ↦ False) m where
  gray := h
  scanned _ _ _ _ hf := hf.elim

/-- Roots are visited. -/
theorem Inv.visits (h : Inv edge m) {l : List (Bool × α)} (hl : Leaves edge l) :
    Inv edge (l.foldl .visit m) := by
  obtain ⟨hmarked, hkept, hgray, hwaits⟩ := visited_foldl l m
  refine ⟨fun a ha ↦ ?_, fun a ha hnot b hab ↦ ?_⟩
  · rcases hgray a ha with h' | ⟨-, hin⟩
    · exact (hmarked a).mpr (.inl (h.gray a h'))
    · exact (hmarked a).mpr (.inr ⟨_, hin, rfl⟩)
  · cases hm : m.marked a with
    | true => exact (hmarked _).mpr (.inl (h.scanned a hm (fun hg ↦ hnot (hkept a hg)) b hab))
    | false =>
      rcases hwaits a hm ha with hg | hin
      · exact absurd hg hnot
      · exact absurd hab (hl a hin b)

/-- Scanning a gray node keeps the invariant, where the items cover the edges. -/
theorem Inv.scan (h : Inv edge m) (hcover : ∀ a b, edge a b → Next items a b)
    (hleaf : ∀ a, Leaves edge (items a)) : Inv edge (m.scan items) := by
  rw [Marks.scan]
  split
  · exact h
  · rename_i a rest hg
    obtain ⟨hmarked, hkept, hgray, hwaits⟩ := visited_foldl (items a) ⟨m.marked, rest⟩
    refine ⟨fun b hb ↦ ?_, fun b hb hnot d hbd ↦ ?_⟩
    · rcases hgray b hb with h' | ⟨-, hin⟩
      · exact (hmarked b).mpr (.inl (h.gray b (hg ▸ List.mem_cons_of_mem _ h')))
      · exact (hmarked b).mpr (.inr ⟨_, hin, rfl⟩)
    · rcases eq_or_ne b a with rfl | hne
      · exact (hmarked _).mpr (.inr (hcover b d hbd))
      cases hm : m.marked b with
      | true =>
        refine (hmarked _).mpr (.inl (h.scanned b hm (fun hbg ↦ ?_) d hbd))
        rcases List.mem_cons.mp (hg ▸ hbg) with rfl | hrest
        · exact hne rfl
        · exact hnot (hkept b hrest)
      | false =>
        rcases hwaits b hm hb with hg | hin
        · exact absurd hg hnot
        · exact absurd hbd (hleaf a b hin d)

omit [DecidableEq α] in
/-- With no gray node left, **the marked nodes are closed**. -/
theorem Inv.reach (h : Inv edge m) (hgray : m.gray = []) {S : α → Prop} (hS : ∀ a, S a → m.marked a = true)
    (hb : Reach edge S b) : m.marked b = true :=
  hb.of_closed hS fun a b ha hab ↦ h.scanned a ha (by rw [hgray]; exact List.not_mem_nil) b hab

/-- Nothing is marked but what was and what the roots reach. -/
theorem reach_of_scan {S : α → Prop} (hm : ∀ a, m.marked a = true → Reach (Next items) S a)
    (hg : ∀ a ∈ m.gray, m.marked a = true) (hb : (m.scan items).marked b = true) : Reach (Next items) S b := by
  rw [Marks.scan] at hb
  split at hb
  · exact hm b hb
  · rename_i a rest hgray
    rcases ((visited_foldl (items a) ⟨m.marked, rest⟩).marked b).mp hb with h | ⟨i, hi, rfl⟩
    · exact hm b h
    · exact (hm a (hg a (hgray ▸ List.mem_cons_self))).next ⟨i, hi, rfl⟩

/-! ### Scanning ends -/

/-- Gray nodes count once, unmarked ones twice. -/
def weight (V : Finset α) (m : Marks α) : ℕ := 2 * {a ∈ V | m.marked a = false}.card + m.gray.length

theorem weight_visit {V : Finset α} {i : Bool × α} (hi : i.2 ∈ V) : weight V (m.visit i) ≤ weight V m := by
  rw [Marks.visit]
  split
  · exact le_rfl
  · rename_i hm
    have hsub : {a ∈ V | Function.update m.marked i.2 true a = false} ⊆ {a ∈ V | m.marked a = false}.erase i.2 := by
      intro a ha
      obtain ⟨haV, ha⟩ := Finset.mem_filter.mp ha
      rw [Function.update_apply] at ha
      split at ha
      · cases ha
      · rename_i hne
        exact Finset.mem_erase.mpr ⟨hne, Finset.mem_filter.mpr ⟨haV, ha⟩⟩
    have hmem : i.2 ∈ {a ∈ V | m.marked a = false} := Finset.mem_filter.mpr ⟨hi, Bool.not_eq_true _ ▸ hm⟩
    have hcard := Finset.card_le_card hsub
    rw [Finset.card_erase_of_mem hmem] at hcard
    have hpos := Finset.card_pos.mpr ⟨_, hmem⟩
    simp only [weight]
    split
    · rw [List.length_cons]
      omega
    · omega

theorem weight_visits {V : Finset α} {l : List (Bool × α)} (hl : ∀ i ∈ l, i.2 ∈ V) :
    weight V (l.foldl .visit m) ≤ weight V m := by
  induction l generalizing m with
  | nil => exact le_rfl
  | cons i l ih =>
    exact (ih fun j hj ↦ hl j (List.mem_cons_of_mem _ hj)).trans (weight_visit (hl i List.mem_cons_self))

/-- Each scan lowers the weight. -/
theorem weight_scan {V : Finset α} (hV : ∀ a, ∀ i ∈ items a, i.2 ∈ V) (hgray : m.gray ≠ []) :
    weight V (m.scan items) < weight V m := by
  rw [Marks.scan]
  split
  · rename_i h
    exact absurd h hgray
  · rename_i a rest hg
    refine (weight_visits (hV a)).trans_lt ?_
    simp only [weight, hg, List.length_cons]
    omega

end

end CoilLang.Tricolour
