import CoilLang.Machine.KeyIndex
import Mathlib.Algebra.Order.BigOperators.Group.Finset

/-!
# The table of a key index keeps every entry in reach

The invariant is `Chained`: every live slot is in exactly one cell, and **from the home of its hash a
forward probe gets there without crossing an empty cell**. Filling a free cell and turning an entry
into a removed place keep it, since no cell becomes empty; growing and compacting build the table anew
from the live slots.

With the table at most half full there is a free cell, so `place` ends; and since all that is in
reach is found, iterating `probe` from `-1` enumerates the live slots of a hash, each once.
-/

namespace CoilLang.Machine

/-! ### Cells and probe positions -/

theorem cell_set (t : List ℤ) (i j : ℕ) (v : ℤ) :
    cell (t.set i v) j = if i = j ∧ i < t.length then v else cell t j := by
  unfold cell
  rw [List.getD_eq_getElem?_getD, List.getD_eq_getElem?_getD, List.getElem?_set]
  by_cases hij : i = j
  · subst hij
    by_cases hlt : i < t.length <;> simp [hlt]
  · simp [hij]

theorem cell_replicate (n : ℕ) (i : ℕ) : cell (List.replicate n empty) i = empty := by
  unfold cell empty
  rw [List.getD_eq_getElem?_getD, List.getElem?_replicate]
  split <;> rfl

section
variable {cap : ℕ}

theorem land_mask (hcap : ∃ k, cap = 2 ^ k) (i : ℕ) : i &&& (cap - 1) = i % cap := by
  obtain ⟨k, rfl⟩ := hcap
  exact Nat.and_two_pow_sub_one_eq_mod i k

theorem cap_pos (hcap : ∃ k, cap = 2 ^ k) : 0 < cap := by
  obtain ⟨k, rfl⟩ := hcap
  exact Nat.two_pow_pos k

theorem home_lt (hcap : ∃ k, cap = 2 ^ k) (h : Word) : home h (cap - 1) < cap := by
  unfold home
  rw [land_mask hcap]
  exact Nat.mod_lt _ (cap_pos hcap)

/-- The cell a probe from `i` comes to after `d` steps. -/
def probed (t : List ℤ) (cap i d : ℕ) : ℤ := cell t ((i + d) % cap)

theorem probed_zero (t : List ℤ) {i : ℕ} (hi : i < cap) : probed t cap i 0 = cell t i := by
  rw [probed, Nat.add_zero, Nat.mod_eq_of_lt hi]

theorem probed_next (t : List ℤ) (i d : ℕ) :
    probed t cap ((i + 1) % cap) d = probed t cap i (d + 1) := by
  rw [probed, probed, Nat.mod_add_mod, Nat.add_right_comm, Nat.add_assoc]

/-- A probe comes to every cell. -/
theorem exists_probed {i j : ℕ} (hj : j < cap) : ∃ d < cap, (i + d) % cap = j := by
  have hpos : 0 < cap := by omega
  refine ⟨(j + cap - i % cap) % cap, Nat.mod_lt _ hpos, ?_⟩
  have hi : i % cap < cap := Nat.mod_lt _ hpos
  rw [Nat.add_mod_mod, ← Nat.mod_add_mod, show i % cap + (j + cap - i % cap) = j + cap by omega,
    Nat.add_mod_right, Nat.mod_eq_of_lt hj]

/-- Different steps of a probe come to different cells. -/
theorem probed_inj {i d e : ℕ} (hd : d < cap) (he : e < cap) (h : (i + d) % cap = (i + e) % cap) :
    d = e := by
  have hmod : d % cap = e % cap := Nat.ModEq.add_left_cancel' i h
  rwa [Nat.mod_eq_of_lt hd, Nat.mod_eq_of_lt he] at hmod

end

/-! ### The invariant of a table -/

/-- The cells of a table that are not empty. -/
def occupied (t : List ℤ) (cap : ℕ) : Finset ℕ :=
  (Finset.range cap).filter fun i ↦ cell t i ≠ empty

/-- A table of `cap` cells over the slots `P` with the hashes `hash`: every slot is in one cell, in
reach of the home of its hash, and there is nothing else but removed places. -/
structure Chained (t : List ℤ) (cap : ℕ) (hash : ℕ → Word) (P : ℕ → Prop) : Prop where
  pow : ∃ k, cap = 2 ^ k
  length : t.length = cap + 1
  entry : ∀ i < cap, cell t i = empty ∨ cell t i = removed ∨ ∃ s, P s ∧ cell t i = s + 1
  unique : ∀ i < cap, ∀ j < cap, 0 < cell t i → cell t i = cell t j → i = j
  reach : ∀ s, P s → ∃ d < cap, probed t cap (home (hash s) (cap - 1)) d = s + 1 ∧
    ∀ e < d, probed t cap (home (hash s) (cap - 1)) e ≠ empty

namespace Chained

variable {t : List ℤ} {cap : ℕ} {hash : ℕ → Word} {P : ℕ → Prop}

theorem congr (h : Chained t cap hash P) {hash' : ℕ → Word} {Q : ℕ → Prop} (hP : ∀ s, P s ↔ Q s)
    (hhash : ∀ s, P s → hash' s = hash s) : Chained t cap hash' Q := by
  obtain rfl : P = Q := funext fun s ↦ propext (hP s)
  refine ⟨h.pow, h.length, h.entry, h.unique, fun s hs ↦ ?_⟩
  rw [hhash s hs]
  exact h.reach s hs

/-- The cell that counts is not one of the table. -/
theorem set_count (h : Chained t cap hash P) (v : ℤ) : Chained (t.set cap v) cap hash P := by
  have hcell : ∀ i < cap, cell (t.set cap v) i = cell t i := fun i hi ↦ by
    rw [cell_set, if_neg (by omega)]
  have hprobed : ∀ i d, probed (t.set cap v) cap i d = probed t cap i d := fun i d ↦
    hcell _ (Nat.mod_lt _ (cap_pos h.pow))
  refine ⟨h.pow, by rw [List.length_set, h.length], fun i hi ↦ ?_, fun i hi j hj ↦ ?_, fun s hs ↦ ?_⟩
  · rw [hcell i hi]
    exact h.entry i hi
  · rw [hcell i hi, hcell j hj]
    exact h.unique i hi j hj
  · simp only [hprobed]
    exact h.reach s hs

theorem empty_table {k : ℕ} (hash : ℕ → Word) :
    Chained (List.replicate (2 ^ k + 1) empty) (2 ^ k) hash fun _ ↦ False := by
  refine ⟨⟨k, rfl⟩, List.length_replicate, fun i _ ↦ .inl (cell_replicate _ _), fun i _ j _ hi ↦ ?_,
    fun s hs ↦ hs.elim⟩
  rw [cell_replicate] at hi
  cases hi

/-- Filling a free cell in reach adds a slot. -/
theorem fill (h : Chained t cap hash P) {s d : ℕ} (hs : ¬P s) (hd : d < cap)
    (hfree : probed t cap (home (hash s) (cap - 1)) d = empty ∨
      probed t cap (home (hash s) (cap - 1)) d = removed)
    (hbefore : ∀ e < d, probed t cap (home (hash s) (cap - 1)) e ≠ empty) :
    Chained (t.set ((home (hash s) (cap - 1) + d) % cap) (s + 1)) cap hash fun u ↦ P u ∨ u = s := by
  have hpos := cap_pos h.pow
  have hilt : ∀ i d, (i + d) % cap < cap := fun i d ↦ Nat.mod_lt _ hpos
  set p := (home (hash s) (cap - 1) + d) % cap with hp
  have hplt : p < cap := hilt _ _
  have hcell : ∀ i, cell (t.set p (s + 1)) i = if p = i then (s + 1 : ℤ) else cell t i := fun i ↦ by
    rw [cell_set]
    by_cases hpi : p = i
    · rw [if_pos ⟨hpi, by rw [h.length]; omega⟩, if_pos hpi]
    · rw [if_neg (fun hc ↦ hpi hc.1), if_neg hpi]
  -- the slot was in no cell before, and a cell that was not free is still the same
  have hnot : ∀ i < cap, cell t i ≠ s + 1 := by
    intro i hi heq
    rcases h.entry i hi with he | he | ⟨u, hu, he⟩
    · rw [he] at heq
      simp [empty] at heq
      omega
    · rw [he] at heq
      simp [removed] at heq
      omega
    · rw [he] at heq
      obtain rfl : u = s := by omega
      exact hs hu
  have hpfree : cell t p = empty ∨ cell t p = removed := hfree
  have hkeep : ∀ i, cell t i ≠ empty → cell (t.set p (s + 1)) i ≠ empty := by
    intro i hi
    rw [hcell]
    split
    · simp [empty]
      omega
    · exact hi
  refine ⟨h.pow, by rw [List.length_set, h.length], fun i hi ↦ ?_, fun i hi j hj ↦ ?_, fun u hu ↦ ?_⟩
  · rw [hcell]
    split
    · exact .inr (.inr ⟨s, .inr rfl, rfl⟩)
    · rcases h.entry i hi with he | he | ⟨u, hu, he⟩
      · exact .inl he
      · exact .inr (.inl he)
      · exact .inr (.inr ⟨u, .inl hu, he⟩)
  · rw [hcell, hcell]
    by_cases hpi : p = i <;> by_cases hpj : p = j
    · exact fun _ _ ↦ hpi.symm.trans hpj
    · rw [if_pos hpi, if_neg hpj]
      exact fun _ heq ↦ absurd heq.symm (hnot j hj)
    · rw [if_neg hpi, if_pos hpj]
      exact fun _ heq ↦ absurd heq (hnot i hi)
    · rw [if_neg hpi, if_neg hpj]
      exact h.unique i hi j hj
  · rcases hu with hu | rfl
    · obtain ⟨d', hd', hat, hclear⟩ := h.reach u hu
      refine ⟨d', hd', ?_, fun e he ↦ hkeep _ (hclear e he)⟩
      rw [probed, hcell, if_neg, ← probed, hat]
      intro heq
      rw [probed, ← heq] at hat
      rcases hpfree with hf | hf <;> rw [hf] at hat <;> simp [empty, removed] at hat <;> omega
    · refine ⟨d, hd, ?_, fun e he ↦ hkeep _ (hbefore e he)⟩
      rw [probed, hcell, if_pos hp]

/-- Turning the cell of a slot into a removed place takes the slot out. -/
theorem erase (h : Chained t cap hash P) {s p : ℕ} (hp : p < cap) (hcellp : cell t p = s + 1) :
    Chained (t.set p removed) cap hash fun u ↦ P u ∧ u ≠ s := by
  have hcell : ∀ i, cell (t.set p removed) i = if p = i then removed else cell t i := fun i ↦ by
    rw [cell_set]
    by_cases hpi : p = i
    · rw [if_pos ⟨hpi, by rw [h.length]; omega⟩, if_pos hpi]
    · rw [if_neg (fun hc ↦ hpi hc.1), if_neg hpi]
  have hkeep : ∀ i, cell t i ≠ empty → cell (t.set p removed) i ≠ empty := by
    intro i hi
    rw [hcell]
    split
    · decide
    · exact hi
  refine ⟨h.pow, by rw [List.length_set, h.length], fun i hi ↦ ?_, fun i hi j hj ↦ ?_, fun u hu ↦ ?_⟩
  · rw [hcell]
    split
    · exact .inr (.inl rfl)
    · rename_i hpi
      rcases h.entry i hi with he | he | ⟨u, hu, he⟩
      · exact .inl he
      · exact .inr (.inl he)
      · refine .inr (.inr ⟨u, ⟨hu, ?_⟩, he⟩)
        rintro rfl
        exact hpi (h.unique p hp i hi (by rw [hcellp]; omega) (hcellp.trans he.symm))
  · rw [hcell, hcell]
    by_cases hpi : p = i
    · rw [if_pos hpi]
      exact fun hlt ↦ absurd hlt (by decide)
    · by_cases hpj : p = j
      · rw [if_neg hpi, if_pos hpj]
        intro hlt heq
        rw [heq] at hlt
        exact absurd hlt (by decide)
      · rw [if_neg hpi, if_neg hpj]
        exact h.unique i hi j hj
  · obtain ⟨d, hd, hat, hclear⟩ := h.reach u hu.1
    refine ⟨d, hd, ?_, fun e he ↦ hkeep _ (hclear e he)⟩
    rw [probed, hcell, if_neg, ← probed, hat]
    intro heq
    rw [probed, ← heq, hcellp] at hat
    exact hu.2 (by omega)

end Chained

/-! ### Occupied cells -/

section
variable {t : List ℤ} {cap : ℕ}

theorem mem_occupied {i : ℕ} : i ∈ occupied t cap ↔ i < cap ∧ cell t i ≠ empty := by
  simp [occupied]

theorem occupied_set_count (t : List ℤ) (cap : ℕ) (v : ℤ) :
    occupied (t.set cap v) cap = occupied t cap := by
  ext i
  simp only [mem_occupied, cell_set]
  refine and_congr_right fun hi ↦ ?_
  rw [if_neg (by omega)]

theorem occupied_replicate (n cap : ℕ) : occupied (List.replicate n empty) cap = ∅ := by
  ext i
  simp [mem_occupied, cell_replicate]

theorem occupied_set {p : ℕ} (hp : p < cap) (hlen : cap < t.length) {v : ℤ} (hv : v ≠ empty) :
    occupied (t.set p v) cap = insert p (occupied t cap) := by
  ext i
  simp only [mem_occupied, cell_set, Finset.mem_insert]
  by_cases hpi : p = i
  · subst hpi
    simp [hp, hv, show p < t.length by omega]
  · simp [hpi, show ¬i = p from fun h ↦ hpi h.symm]

theorem card_occupied_set {p : ℕ} (hp : p < cap) (hlen : cap < t.length) {v : ℤ} (hv : v ≠ empty) :
    (occupied (t.set p v) cap).card =
      (occupied t cap).card + if cell t p = empty then 1 else 0 := by
  rw [occupied_set hp hlen hv]
  split
  · rename_i he
    exact Finset.card_insert_of_notMem fun hmem ↦ (mem_occupied.1 hmem).2 he
  · rename_i he
    rw [Finset.insert_eq_of_mem (mem_occupied.2 ⟨hp, he⟩)]
    rfl

/-- A table that is not full has an empty cell. -/
theorem exists_empty (h : (occupied t cap).card < cap) : ∃ j < cap, cell t j = empty := by
  by_contra hno
  push Not at hno
  have hall : occupied t cap = Finset.range cap :=
    Finset.filter_true_of_mem fun i hi ↦ hno i (Finset.mem_range.1 hi)
  rw [hall, Finset.card_range] at h
  exact lt_irrefl _ h

end

/-! ### Table sizes -/

theorem capLoop_spec (n : ℕ) {cap : ℕ} (hcap : ∃ k, cap = 2 ^ k) :
    (∃ k, capLoop n cap = 2 ^ k) ∧ (n + 1) * 2 ≤ capLoop n cap := by
  induction cap using capLoop.induct (n := n) with
  | case1 cap h ih =>
    rw [capLoop, dif_pos h]
    obtain ⟨k, rfl⟩ := hcap
    exact ih ⟨k + 1, (pow_succ 2 k).symm⟩
  | case2 cap h =>
    rw [capLoop, dif_neg h]
    have := cap_pos hcap
    exact ⟨hcap, by omega⟩

theorem capFor_spec (n : ℕ) : (∃ k, capFor n = 2 ^ k) ∧ (n + 1) * 2 ≤ capFor n :=
  capLoop_spec n ⟨3, rfl⟩

theorem cells_eq_some {t : List ℤ} {cap : ℕ} (hlen : t.length = cap + 1) (hcap : ∃ k, cap = 2 ^ k) :
    cells t = some cap := by
  obtain ⟨k, rfl⟩ := hcap
  simp [cells, hlen, Nat.log2_two_pow]

/-! ### Placing a slot -/

/-- A cell that `place` takes. -/
def Free (c : ℤ) : Prop := c = empty ∨ c = removed

instance (c : ℤ) : Decidable (Free c) := inferInstanceAs (Decidable (_ ∨ _))

theorem placeLoop_eq {t : List ℤ} {cap s : ℕ} (hcap : ∃ k, cap = 2 ^ k) {d n i : ℕ} (hi : i < cap)
    (hdn : d < n) (hbefore : ∀ e < d, ¬Free (probed t cap i e)) (hfree : Free (probed t cap i d)) :
    placeLoop t (cap - 1) s n i =
      some (t.set ((i + d) % cap) (s + 1), decide (probed t cap i d = empty)) := by
  induction d generalizing n i with
  | zero =>
    obtain ⟨n, rfl⟩ : ∃ m, n = m + 1 := ⟨n - 1, by omega⟩
    rw [probed_zero t hi] at hfree ⊢
    simp only [placeLoop]
    rw [if_pos (show _ ∨ _ from hfree), Nat.add_zero, Nat.mod_eq_of_lt hi]
  | succ d ih =>
    obtain ⟨n, rfl⟩ : ∃ m, n = m + 1 := ⟨n - 1, by omega⟩
    have h0 : ¬Free (cell t i) := by
      rw [← probed_zero t hi]
      exact hbefore 0 (by omega)
    simp only [placeLoop]
    rw [if_neg (show ¬(_ ∨ _) from h0), land_mask hcap,
      ih (Nat.mod_lt _ (cap_pos hcap)) (by omega), probed_next, Nat.mod_add_mod,
      Nat.add_right_comm, Nat.add_assoc]
    · intro e he
      rw [probed_next]
      exact hbefore (e + 1) (by omega)
    · rwa [probed_next]

/-- The first free cell of a probe. -/
theorem exists_first_free {t : List ℤ} {cap i : ℕ} (hempty : ∃ j < cap, cell t j = empty) :
    ∃ d < cap, Free (probed t cap i d) ∧ ∀ e < d, ¬Free (probed t cap i e) := by
  obtain ⟨j, hj, hje⟩ := hempty
  obtain ⟨d, hd, hdj⟩ := exists_probed (i := i) hj
  have hex : ∃ d, d < cap ∧ Free (probed t cap i d) := ⟨d, hd, .inl (by rw [probed, hdj, hje])⟩
  have hspec := Nat.find_spec hex
  refine ⟨Nat.find hex, hspec.1, hspec.2, fun e he hf ↦ Nat.find_min hex he ⟨?_, hf⟩⟩
  exact he.trans hspec.1

theorem place_ends {t : List ℤ} {cap : ℕ} (hcap : ∃ k, cap = 2 ^ k)
    (hempty : ∃ j < cap, cell t j = empty) (h : Word) (s : ℕ) :
    ∃ r, ∀ fuel ≥ cap, place fuel t cap h s = some r := by
  obtain ⟨d, hd, hfree, hmin⟩ := exists_first_free (i := home h (cap - 1)) hempty
  exact ⟨_, fun fuel hf ↦ placeLoop_eq hcap (home_lt hcap h) (by omega) hmin hfree⟩

/-- `place` ends when a cell is empty, and puts the slot in reach of its home. -/
theorem place_spec {t : List ℤ} {cap : ℕ} {hash : ℕ → Word} {P : ℕ → Prop}
    (h : Chained t cap hash P) {s : ℕ} (hs : ¬P s) (hempty : ∃ j < cap, cell t j = empty) :
    ∃ t' b, (∀ fuel ≥ cap, place fuel t cap (hash s) s = some (t', b)) ∧
      Chained t' cap hash (fun u ↦ P u ∨ u = s) ∧
      (occupied t' cap).card = (occupied t cap).card + (if b then 1 else 0) ∧
      cell t' cap = cell t cap ∧
      ((∀ i < cap, cell t i ≠ removed) → b = true ∧ ∀ i < cap, cell t' i ≠ removed) := by
  have hpos := cap_pos h.pow
  have hhome : home (hash s) (cap - 1) < cap := home_lt h.pow _
  obtain ⟨d, hd, hfree, hmin⟩ := exists_first_free (i := home (hash s) (cap - 1)) hempty
  have hplt : (home (hash s) (cap - 1) + d) % cap < cap := Nat.mod_lt _ hpos
  have hv : ((s : ℤ) + 1) ≠ empty := by
    simp only [empty]
    omega
  refine ⟨_, _, fun fuel hfuel ↦ placeLoop_eq h.pow hhome (by omega) hmin hfree,
    h.fill hs hd hfree fun e he hemp ↦ hmin e he (.inl hemp), ?_, ?_, fun hno ↦ ⟨?_, fun i hi ↦ ?_⟩⟩
  · rw [card_occupied_set hplt (by rw [h.length]; omega) hv]
    by_cases hc : cell t ((home (hash s) (cap - 1) + d) % cap) = empty <;> simp [probed, hc]
  · rw [cell_set, if_neg (by omega)]
  · exact decide_eq_true (hfree.resolve_right (hno _ hplt))
  · rw [cell_set]
    split
    · simp only [removed]
      omega
    · exact hno i hi

/-! ### Rebuilding -/

/-- The slots of a list of hashes and live flags that starts at slot `s`. -/
def LiveFrom (s : ℕ) (l : List (Word × Word)) (u : ℕ) : Prop :=
  ∃ j p, l[j]? = some p ∧ p.2 ≠ 0 ∧ u = s + j

theorem liveFrom_cons {s : ℕ} {p : Word × Word} {l : List (Word × Word)} {u : ℕ} :
    LiveFrom s (p :: l) u ↔ (p.2 ≠ 0 ∧ u = s) ∨ LiveFrom (s + 1) l u := by
  constructor
  · rintro ⟨j, q, hq, hlive, rfl⟩
    cases j with
    | zero =>
      cases hq
      exact .inl ⟨hlive, rfl⟩
    | succ j => exact .inr ⟨j, q, hq, hlive, by omega⟩
  · rintro (⟨hlive, rfl⟩ | ⟨j, q, hq, hlive, rfl⟩)
    · exact ⟨0, p, rfl, hlive, rfl⟩
    · exact ⟨j + 1, q, hq, hlive, by omega⟩

/-- The live slots among these. -/
def livePairs (l : List (Word × Word)) : ℕ := l.countP fun p ↦ p.2 ≠ 0

theorem livePairs_cons (p : Word × Word) (l : List (Word × Word)) :
    livePairs (p :: l) = livePairs l + if p.2 ≠ 0 then 1 else 0 := by
  simp [livePairs, List.countP_cons]

theorem rebuildLoop_spec {cap : ℕ} {hash : ℕ → Word} {l : List (Word × Word)} {s : ℕ} {t : List ℤ}
    {P : ℕ → Prop} (h : Chained t cap hash P) (hP : ∀ u, P u → u < s)
    (hhash : ∀ j p, l[j]? = some p → hash (s + j) = p.1) (hno : ∀ i < cap, cell t i ≠ removed)
    (hroom : (occupied t cap).card + livePairs l < cap) :
    ∃ t', (∀ fuel ≥ cap, rebuildLoop fuel cap l s t = some t') ∧
      Chained t' cap hash (fun u ↦ P u ∨ LiveFrom s l u) ∧
      (occupied t' cap).card = (occupied t cap).card + livePairs l := by
  induction l generalizing s t P with
  | nil =>
    refine ⟨t, fun _ _ ↦ rfl, h.congr (fun u ↦ ?_) fun _ _ ↦ rfl, rfl⟩
    simp [LiveFrom]
  | cons p l ih =>
    have hrest : ∀ j q, l[j]? = some q → hash (s + 1 + j) = q.1 := fun j q hq ↦ by
      rw [Nat.add_assoc, Nat.add_comm 1 j]
      exact hhash (j + 1) q hq
    obtain ⟨w, l₀⟩ := p
    by_cases hl : l₀ = 0
    · subst hl
      rw [livePairs_cons, if_neg (by simp), Nat.add_zero] at hroom ⊢
      obtain ⟨t', hrun, hch, hocc⟩ := ih h (fun u hu ↦ (hP u hu).trans (Nat.lt_succ_self s)) hrest
        hno hroom
      refine ⟨t', fun fuel hf ↦ ?_, hch.congr (fun u ↦ ?_) fun _ _ ↦ rfl, hocc⟩
      · simp only [rebuildLoop, ne_eq, not_true_eq_false, if_false]
        exact hrun fuel hf
      · simp [liveFrom_cons]
    · rw [livePairs_cons, if_pos hl] at hroom ⊢
      obtain ⟨t₁, b, hplace, hch₁, hocc₁, -, hno₁⟩ := place_spec h (s := s)
        (fun hs ↦ lt_irrefl s (hP s hs)) (exists_empty (by omega))
      obtain ⟨hb, hno₁⟩ := hno₁ hno
      rw [if_pos hb] at hocc₁
      have hs : hash s = w := hhash 0 (w, l₀) rfl
      rw [hs] at hplace
      obtain ⟨t', hrun, hch, hocc⟩ := ih (s := s + 1) hch₁
        (by rintro u (hu | rfl) <;> [exact (hP u hu).trans (Nat.lt_succ_self s); omega]) hrest hno₁
        (by omega)
      refine ⟨t', fun fuel hf ↦ ?_, hch.congr (fun u ↦ ?_) fun _ _ ↦ rfl, by omega⟩
      · simp only [rebuildLoop, ne_eq, hl, not_false_eq_true, if_true]
        rw [hplace fuel hf]
        exact hrun fuel hf
      · simp only [liveFrom_cons, ne_eq, hl, not_false_eq_true, true_and]
        tauto

/-- Slot `s` holds an entry. -/
def LiveSlot (live : List Word) (s : ℕ) : Prop := ∃ l, live[s]? = some l ∧ l ≠ 0

theorem liveFrom_zip {hashes live : List Word} (hlen : hashes.length = live.length) (u : ℕ) :
    LiveFrom 0 (hashes.zip live) u ↔ LiveSlot live u := by
  constructor
  · rintro ⟨j, p, hp, hlive, rfl⟩
    rw [Nat.zero_add]
    exact ⟨p.2, (List.getElem?_zip_eq_some.1 hp).2, hlive⟩
  · rintro ⟨l, hl, hlive⟩
    have hlt : u < hashes.length := hlen ▸ (List.getElem?_eq_some_iff.1 hl).1
    refine ⟨u, (hashes[u], l), List.getElem?_zip_eq_some.2 ⟨?_, hl⟩, hlive, (Nat.zero_add u).symm⟩
    exact List.getElem?_eq_getElem hlt

theorem livePairs_zip {hashes live : List Word} (hlen : hashes.length = live.length) :
    livePairs (hashes.zip live) = liveCount live := by
  induction hashes generalizing live with
  | nil =>
    obtain rfl : live = [] := List.eq_nil_of_length_eq_zero hlen.symm
    rfl
  | cons h hashes ih =>
    cases live with
    | nil => cases hlen
    | cons l live =>
      rw [List.zip_cons_cons, livePairs_cons, ih (by simpa using hlen), liveCount, liveCount,
        List.countP_cons]
      simp

/-- A table with its count is as the index keeps it: over the live slots, with the number of occupied
cells in the last one. -/
structure Counted (t : List ℤ) (cap : ℕ) (hashes live : List Word) : Prop where
  chained : Chained t cap (fun s ↦ hashes.getD s 0) (LiveSlot live)
  count : cell t cap = (occupied t cap).card

theorem rebuild_spec {hashes live : List Word} (hlen : hashes.length = live.length) (extra : ℕ) :
    ∃ t cap, (∀ fuel ≥ cap, rebuild fuel hashes live extra = some t) ∧
      Counted t cap hashes live ∧ ((occupied t cap).card + extra + 1) * 2 ≤ cap := by
  obtain ⟨⟨k, hk⟩, hcap⟩ := capFor_spec (liveCount live + extra)
  have hstart := Chained.empty_table (k := k) fun s ↦ hashes.getD s 0
  rw [← hk] at hstart
  obtain ⟨t, hrun, hch, hocc⟩ := rebuildLoop_spec (l := hashes.zip live) (s := 0) hstart
    (fun _ h ↦ h.elim)
    (fun j p hp ↦ by
      rw [Nat.zero_add, List.getD_eq_getElem?_getD, (List.getElem?_zip_eq_some.1 hp).1]
      rfl)
    (fun i _ ↦ by rw [cell_replicate]; decide)
    (by rw [occupied_replicate, Finset.card_empty, livePairs_zip hlen]; omega)
  rw [occupied_replicate, Finset.card_empty, livePairs_zip hlen, Nat.zero_add] at hocc
  have hch' : Chained t (capFor (liveCount live + extra)) (fun s ↦ hashes.getD s 0)
      (LiveSlot live) := hch.congr (fun u ↦ by simp [liveFrom_zip hlen]) fun _ _ ↦ rfl
  refine ⟨t.set (capFor (liveCount live + extra)) (liveCount live), _, fun fuel hf ↦ ?_,
    ⟨hch'.set_count _, ?_⟩, ?_⟩
  · rw [rebuild, hrun fuel hf]
    rfl
  · rw [occupied_set_count, hocc, cell_set, if_pos ⟨rfl, by rw [hch.length]; omega⟩]
  · rw [occupied_set_count, hocc]
    exact hcap

/-! ### The operations -/

/-- The invariant of an index. -/
structure IndexInv (k : KeyIndex) (cap : ℕ) : Prop where
  counted : Counted k.table cap k.hashes k.live
  length : k.hashes.length = k.live.length
  half : (occupied k.table cap).card * 2 ≤ cap

namespace IndexInv

variable {k : KeyIndex} {cap : ℕ}

theorem cells_eq (h : IndexInv k cap) : cells k.table = some cap :=
  cells_eq_some h.counted.chained.length h.counted.chained.pow

theorem of_empty (e : ℕ) : IndexInv ⟨List.replicate (2 ^ e + 1) empty, [], []⟩ (2 ^ e) := by
  refine ⟨⟨(Chained.empty_table _).congr (fun u ↦ by simp [LiveSlot]) fun _ _ ↦ rfl, ?_⟩, rfl, ?_⟩
  · show cell (List.replicate _ _) _ = ((occupied (List.replicate _ _) _).card : ℤ)
    rw [cell_replicate, occupied_replicate]
    rfl
  · show (occupied (List.replicate _ _) _).card * 2 ≤ _
    rw [occupied_replicate]
    simp

theorem new (n : ℤ) : ∃ cap, IndexInv ⟨table n, [], []⟩ cap := by
  obtain ⟨⟨e, he⟩, -⟩ := capFor_spec (min (max n 0) (2 ^ 28)).toNat
  refine ⟨2 ^ e, ?_⟩
  rw [table, he]
  exact of_empty e

/-- The slot a push adds is live. -/
theorem liveSlot_append {live : List Word} {u : ℕ} :
    LiveSlot (live ++ [1]) u ↔ LiveSlot live u ∨ u = live.length := by
  unfold LiveSlot
  rcases lt_trichotomy u live.length with hlt | rfl | hgt
  · rw [List.getElem?_append_left hlt]
    exact ⟨.inl, fun h ↦ h.resolve_right (by omega)⟩
  · simp
  · rw [List.getElem?_eq_none (by rw [List.length_append]; exact hgt), List.getElem?_eq_none hgt.le]
    constructor
    · rintro ⟨l, h, -⟩
      cases h
    · rintro (⟨l, h, -⟩ | h)
      · cases h
      · omega

theorem insert (h : IndexInv k cap) (w : Word) :
    ∃ k' cap' N, (∀ fuel ≥ N, k.insert fuel w = some (k', (k.hashes.length : ℤ))) ∧
      IndexInv k' cap' ∧ k'.hashes = k.hashes ++ [w] ∧ k'.live = k.live ++ [1] := by
  -- the table the slot is placed in, grown if it would pass half full
  obtain ⟨t, cap', N, htable, hct, hroom⟩ : ∃ t cap' N, (∀ fuel ≥ N,
      (if cap < ((cell k.table cap).toNat + 1) * 2 then rebuild fuel k.hashes k.live 1
        else some k.table) = some t) ∧ Counted t cap' k.hashes k.live ∧
      ((occupied t cap').card + 1) * 2 ≤ cap' := by
    have hcount : (cell k.table cap).toNat = (occupied k.table cap).card := by
      rw [h.counted.count]
      rfl
    rw [hcount]
    by_cases hgrow : cap < ((occupied k.table cap).card + 1) * 2
    · obtain ⟨t, cap', hrun, hct, hroom⟩ := rebuild_spec h.length 1
      exact ⟨t, cap', cap', fun fuel hf ↦ by rw [if_pos hgrow, hrun fuel hf], hct, by omega⟩
    · exact ⟨k.table, cap, 0, fun fuel _ ↦ if_neg hgrow, h.counted, by omega⟩
  have hcap' : t.length - 1 = cap' := by
    rw [hct.chained.length]
    rfl
  -- the new slot's hash is read from the longer list
  have hch : Chained t cap' (fun s ↦ (k.hashes ++ [w]).getD s 0) (LiveSlot k.live) := by
    refine hct.chained.congr (fun _ ↦ Iff.rfl) fun s hs ↦ ?_
    obtain ⟨l, hl, -⟩ := hs
    have hlt : s < k.hashes.length := h.length ▸ (List.getElem?_eq_some_iff.1 hl).1
    show (k.hashes ++ [w]).getD s 0 = k.hashes.getD s 0
    rw [List.getD_eq_getElem?_getD, List.getElem?_append_left hlt, List.getD_eq_getElem?_getD]
  have hw : (k.hashes ++ [w]).getD k.hashes.length 0 = w := by simp
  obtain ⟨t', b, hplace, hch', hocc, hcell, -⟩ := place_spec hch (s := k.hashes.length)
    (fun ⟨l, hl, _⟩ ↦ by
      rw [h.length, List.getElem?_eq_none le_rfl] at hl
      cases hl)
    (exists_empty (by omega))
  simp only [hw] at hplace
  have hlive : ∀ u, LiveSlot k.live u ∨ u = k.hashes.length ↔ LiveSlot (k.live ++ [1]) u := fun u ↦ by
    rw [liveSlot_append, h.length]
  refine ⟨⟨if b then t'.set cap' (cell t' cap' + 1) else t', k.hashes ++ [w], k.live ++ [1]⟩, cap',
    max N cap', fun fuel hf ↦ ?_, ⟨?_, ?_, ?_⟩, rfl, rfl⟩
  · rw [ge_iff_le, max_le_iff] at hf
    rw [KeyIndex.insert, h.cells_eq]
    simp only [h.length, ne_eq, not_true_eq_false, if_false]
    rw [htable fuel hf.1, Option.bind_some, hcap', ← h.length, hplace fuel hf.2]
    rfl
  · have hch'' := hch'.congr hlive fun _ _ ↦ rfl
    cases b with
    | true =>
      refine ⟨hch''.set_count _, ?_⟩
      simp only [if_true]
      rw [cell_set, if_pos ⟨rfl, by rw [hch'.length]; omega⟩, occupied_set_count, hocc, hcell,
        hct.count]
      simp
    | false =>
      refine ⟨hch'', ?_⟩
      simp only [Bool.false_eq_true, if_false] at hocc ⊢
      rw [hocc, hcell, hct.count]
      rfl
  · simp [h.length]
  · cases b with
    | true =>
      simp only [if_true] at hocc ⊢
      rw [occupied_set_count]
      omega
    | false =>
      simp only [Bool.false_eq_true, if_false] at hocc ⊢
      omega

theorem removeLoop_eq {t : List ℤ} {cap s : ℕ} (hcap : ∃ k, cap = 2 ^ k) {d n i : ℕ} (hi : i < cap)
    (hdn : d < n) (hbefore : ∀ e < d, probed t cap i e ≠ empty ∧ probed t cap i e ≠ s + 1)
    (hat : probed t cap i d = s + 1) :
    removeLoop t (cap - 1) s n i = some (t.set ((i + d) % cap) removed) := by
  induction d generalizing n i with
  | zero =>
    obtain ⟨n, rfl⟩ : ∃ m, n = m + 1 := ⟨n - 1, by omega⟩
    rw [probed_zero t hi] at hat
    simp only [removeLoop]
    rw [if_neg (by rw [hat, empty]; omega), if_pos hat, Nat.add_zero, Nat.mod_eq_of_lt hi]
  | succ d ih =>
    obtain ⟨n, rfl⟩ : ∃ m, n = m + 1 := ⟨n - 1, by omega⟩
    have h0 := hbefore 0 (by omega)
    rw [probed_zero t hi] at h0
    simp only [removeLoop]
    rw [if_neg h0.1, if_neg h0.2, land_mask hcap, ih (Nat.mod_lt _ (cap_pos hcap)) (by omega),
      Nat.mod_add_mod, Nat.add_right_comm, Nat.add_assoc]
    · intro e he
      rw [probed_next]
      exact hbefore (e + 1) (by omega)
    · rwa [probed_next]

theorem liveSlot_set {live : List Word} {s u : ℕ} :
    LiveSlot (live.set s 0) u ↔ LiveSlot live u ∧ u ≠ s := by
  unfold LiveSlot
  rw [List.getElem?_set]
  by_cases hus : s = u
  · subst hus
    by_cases hlt : s < live.length <;> simp [hlt]
  · have hne : u ≠ s := fun h ↦ hus h.symm
    simp [hus, hne]

theorem remove (h : IndexInv k cap) (slot : ℤ) : IndexInv (k.remove slot).1 cap := by
  unfold KeyIndex.remove
  rw [h.cells_eq]
  simp only
  split
  · exact h
  split
  swap
  · exact h
  rename_i l w hl hw
  split
  · exact h
  rename_i hlive
  set s := slot.toNat
  have hhash : k.hashes.getD s 0 = w := by rw [List.getD_eq_getElem?_getD, hw]; rfl
  obtain ⟨d, hd, hat, hclear⟩ := h.counted.chained.reach s ⟨l, hl, hlive⟩
  simp only [hhash] at hat hclear
  -- a cell before it holds another slot, since this one is in one cell only
  have hother : ∀ e < d, probed k.table cap (home w (cap - 1)) e ≠ s + 1 := by
    intro e he heq
    have hpos := cap_pos h.counted.chained.pow
    have hidx := h.counted.chained.unique _ (Nat.mod_lt _ hpos) _ (Nat.mod_lt _ hpos)
      (by show 0 < probed _ _ _ e; rw [heq]; omega) (heq.trans hat.symm)
    exact absurd (probed_inj (he.trans hd) hd hidx) (by omega)
  rw [removeLoop_eq h.counted.chained.pow (home_lt h.counted.chained.pow _) hd
    (fun e he ↦ ⟨hclear e he, hother e he⟩) hat]
  have hplt : (home w (cap - 1) + d) % cap < cap := Nat.mod_lt _ (cap_pos h.counted.chained.pow)
  have hocc : (occupied (k.table.set ((home w (cap - 1) + d) % cap) removed) cap).card =
      (occupied k.table cap).card := by
    rw [card_occupied_set hplt (by rw [h.counted.chained.length]; omega) (by decide), if_neg]
    · rfl
    · rw [show cell k.table _ = _ from hat, empty]
      omega
  refine ⟨⟨(h.counted.chained.erase hplt hat).congr (fun u ↦ liveSlot_set.symm) fun _ _ ↦ rfl, ?_⟩,
    by simp [h.length], ?_⟩
  · show cell (k.table.set _ _) cap = ((occupied (k.table.set _ _) cap).card : ℤ)
    rw [hocc, cell_set, if_neg (by omega), h.counted.count]
  · show (occupied (k.table.set _ _) cap).card * 2 ≤ cap
    rw [hocc]
    exact h.half

theorem compact (h : IndexInv k cap) :
    ∃ k' cap' N n, (∀ fuel ≥ N, k.compact fuel = some (k', n)) ∧ IndexInv k' cap' := by
  have hlen : (KeyIndex.keepLive k.hashes k.live).length =
      (List.replicate (KeyIndex.keepLive k.hashes k.live).length (1 : Word)).length :=
    List.length_replicate.symm
  obtain ⟨t, cap', hrun, hct, hroom⟩ := rebuild_spec hlen 0
  refine ⟨⟨t, KeyIndex.keepLive k.hashes k.live,
    List.replicate (KeyIndex.keepLive k.hashes k.live).length 1⟩, cap', cap',
    (KeyIndex.keepLive k.hashes k.live).length, fun fuel hf ↦ ?_, ⟨hct, hlen, ?_⟩⟩
  · rw [KeyIndex.compact, if_neg (by simp [h.cells_eq, h.length])]
    simp only [hrun fuel hf]
    rfl
  · show (occupied t cap').card * 2 ≤ cap'
    omega

theorem clear (h : IndexInv k cap) : IndexInv k.clear cap := by
  obtain ⟨e, he⟩ := h.counted.chained.pow
  have hlen := h.counted.chained.length
  unfold KeyIndex.clear
  rw [if_neg (by simp [h.cells_eq]), hlen, he]
  exact of_empty e

end IndexInv

end CoilLang.Machine
