import CoilLang.Machine.KeyIndexInvariant

/-!
# Iterating a probe

A caller looks a key up by asking `probe` for the first slot of its hash, then for the next one after
that, until the answer is `-1`. What one probe walks over is a list of slots, `scan`; a probe after
slot `after` finds the first one of its hash **behind `after` in that list**, so the answers are the
slots of the hash in the order of the walk. The invariant of the table makes that list complete and
free of repetitions.
-/

namespace CoilLang.Machine

/-! ### Searching on from the last hit -/

section Search
variable {α : Type} [DecidableEq α]

theorem tail_dropWhile_ne {A B : List α} {x : α} (hx : x ∉ A) :
    ((A ++ x :: B).dropWhile (· ≠ x)).tail = B := by
  induction A with
  | nil => simp
  | cons a A ih =>
    rw [List.mem_cons, not_or] at hx
    rw [List.cons_append, List.dropWhile_cons_of_pos (by simpa using fun h ↦ hx.1 h.symm)]
    exact ih hx.2

/-- The hits behind `x`, asked for one after another: `next` searches on behind its argument. -/
def searchOn (next : α → Option α) : ℕ → α → Option (List α)
  | 0, _ => none
  | n + 1, x =>
    match next x with
    | none => some []
    | some y => (searchOn next n y).map (y :: ·)

theorem searchOn_eq_filter {L : List α} (hnd : L.Nodup) (p : α → Bool) {next : α → Option α}
    (hnext : ∀ x ∈ L, next x = ((L.dropWhile (· ≠ x)).tail).find? p) {n : ℕ} {A B : List α} {x : α}
    (hL : L = A ++ x :: B) (hn : B.length < n) : searchOn next n x = some (B.filter p) := by
  induction n generalizing A B x with
  | zero => omega
  | succ n ih =>
    have hx : x ∉ A := fun hmem ↦ (List.nodup_append.1 (hL ▸ hnd)).2.2 x hmem x (by simp) rfl
    have hfind : next x = B.find? p := by
      rw [hnext x (by simp [hL]), hL, tail_dropWhile_ne hx]
    rw [searchOn, hfind]
    cases hB : B.find? p with
    | none => rw [List.filter_eq_nil_iff.2 (List.find?_eq_none.1 hB)]
    | some y =>
      -- the hit splits the rest, and the search goes on behind it
      obtain ⟨hy, C, D, rfl, hC⟩ := List.find?_eq_some_iff_append.1 hB
      have hrest := ih (A := A ++ x :: C) (B := D) (x := y) (by rw [hL]; simp)
        (by simp only [List.length_append, List.length_cons] at hn; omega)
      have hCnil : C.filter p = [] := List.filter_eq_nil_iff.2 fun c hc ↦ by simpa using hC c hc
      show (searchOn next n y).map (y :: ·) = _
      rw [hrest, List.filter_append, hCnil, List.filter_cons_of_pos hy]
      rfl

end Search

/-! ### The slots a probe walks over -/

/-- The slots in the cells that `n` rounds from cell `i` come to before an empty one. -/
def scan (t : List ℤ) (mask : ℕ) : ℕ → ℕ → List ℤ
  | 0, _ => []
  | n + 1, i =>
    let e := cell t i
    if e = empty then []
    else if 0 < e then (e - 1) :: scan t mask n ((i + 1) &&& mask)
    else scan t mask n ((i + 1) &&& mask)

/-- Whether slot `s` has hash `h`. -/
def hasHash (hashes : List Word) (h : Word) (s : ℤ) : Bool := hashes[s.toNat]? = some h

section
variable (t : List ℤ) (hashes : List Word) (mask : ℕ) (h : Word) (after : ℤ)

theorem probeLoop_past (n i : ℕ) :
    probeLoop t hashes mask h after n i true =
      ((scan t mask n i).find? (hasHash hashes h)).getD (-1) := by
  induction n generalizing i with
  | zero => rfl
  | succ n ih =>
    simp only [probeLoop, scan]
    by_cases he : cell t i = empty
    · simp [he]
    by_cases hpos : 0 < cell t i
    · simp only [if_neg he, if_pos hpos, List.find?_cons, hasHash, if_true]
      by_cases hh : hashes[(cell t i - 1).toNat]? = some h
      · simp only [hh, if_true, decide_true]
        rfl
      · simp only [hh, if_false, decide_false]
        exact ih _
    · simp only [if_neg he, if_neg hpos]
      exact ih _

theorem probeLoop_behind (n i : ℕ) :
    probeLoop t hashes mask h after n i false =
      (((scan t mask n i).dropWhile (· ≠ after)).tail.find? (hasHash hashes h)).getD (-1) := by
  induction n generalizing i with
  | zero => rfl
  | succ n ih =>
    simp only [probeLoop, scan]
    by_cases he : cell t i = empty
    · simp [he]
    by_cases hpos : 0 < cell t i
    · simp only [if_neg he, if_pos hpos, Bool.false_eq_true, if_false]
      by_cases ha : cell t i - 1 = after
      · rw [List.dropWhile_cons_of_neg (by simpa using ha), List.tail_cons]
        simp only [ha, decide_true]
        exact probeLoop_past t hashes mask h after n _
      · rw [List.dropWhile_cons_of_pos (by simpa using ha)]
        simp only [ha, decide_false]
        exact ih _
    · simp only [if_neg he, if_neg hpos]
      exact ih _

end

theorem length_scan_le (t : List ℤ) (mask n i : ℕ) : (scan t mask n i).length ≤ n := by
  induction n generalizing i with
  | zero => exact le_rfl
  | succ n ih =>
    have hrest := ih ((i + 1) &&& mask)
    simp only [scan]
    split
    · exact Nat.zero_le _
    split
    · exact Nat.succ_le_succ hrest
    · omega

/-- What a scan meets: the entries before the first empty cell. -/
theorem mem_scan {t : List ℤ} {cap : ℕ} (hcap : ∃ k, cap = 2 ^ k) {n i : ℕ} (hi : i < cap) {s : ℤ} :
    s ∈ scan t (cap - 1) n i ↔
      0 ≤ s ∧ ∃ d < n, probed t cap i d = s + 1 ∧ ∀ e < d, probed t cap i e ≠ empty := by
  induction n generalizing i with
  | zero => simp [scan]
  | succ n ih =>
    have hrest : s ∈ scan t (cap - 1) n ((i + 1) % cap) ↔ 0 ≤ s ∧ ∃ d < n,
        probed t cap i (d + 1) = s + 1 ∧ ∀ e < d, probed t cap i (e + 1) ≠ empty := by
      simpa only [probed_next] using ih (Nat.mod_lt (i + 1) (cap_pos hcap))
    simp only [scan, land_mask hcap]
    have h0 := probed_zero t hi
    by_cases he : cell t i = empty
    · rw [if_pos he]
      refine ⟨fun hmem ↦ (List.not_mem_nil hmem).elim, ?_⟩
      rintro ⟨hs, d, -, hat, hclear⟩
      cases d with
      | zero =>
        rw [h0, he, empty] at hat
        omega
      | succ d => exact absurd (h0.trans he) (hclear 0 (Nat.succ_pos d))
    -- the first cell is met, and what lies behind it is met from the next one
    have hbehind : (∃ d < n, probed t cap i (d + 1) = s + 1 ∧
        ∀ e < d, probed t cap i (e + 1) ≠ empty) ↔
        ∃ d < n + 1, d ≠ 0 ∧ probed t cap i d = s + 1 ∧ ∀ e < d, probed t cap i e ≠ empty := by
      constructor
      · rintro ⟨d, hd, hat, hclear⟩
        refine ⟨d + 1, by omega, by omega, hat, fun e hlt ↦ ?_⟩
        cases e with
        | zero => rwa [h0]
        | succ e => exact hclear e (by omega)
      · rintro ⟨d, hd, hd0, hat, hclear⟩
        obtain ⟨d, rfl⟩ : ∃ d', d = d' + 1 := ⟨d - 1, by omega⟩
        exact ⟨d, by omega, hat, fun e hlt ↦ hclear (e + 1) (by omega)⟩
    rw [if_neg he]
    by_cases hpos : 0 < cell t i
    · rw [if_pos hpos, List.mem_cons, hrest, hbehind]
      constructor
      · rintro (rfl | ⟨hs, d, hd, -, hat, hclear⟩)
        · exact ⟨by omega, 0, by omega, by rw [h0]; omega, fun e hlt ↦ absurd hlt (by omega)⟩
        · exact ⟨hs, d, hd, hat, hclear⟩
      · rintro ⟨hs, d, hd, hat, hclear⟩
        by_cases hd0 : d = 0
        · subst hd0
          rw [h0] at hat
          exact .inl (by omega)
        · exact .inr ⟨hs, d, hd, hd0, hat, hclear⟩
    · rw [if_neg hpos, hrest, hbehind]
      refine and_congr_right fun hs ↦ ?_
      constructor
      · rintro ⟨d, hd, -, hat, hclear⟩
        exact ⟨d, hd, hat, hclear⟩
      · rintro ⟨d, hd, hat, hclear⟩
        refine ⟨d, hd, ?_, hat, hclear⟩
        rintro rfl
        rw [h0] at hat
        omega

/-- A scan of at most `cap` rounds meets no slot twice. -/
theorem nodup_scan {t : List ℤ} {cap : ℕ} (hcap : ∃ k, cap = 2 ^ k)
    (hunique : ∀ i < cap, ∀ j < cap, 0 < cell t i → cell t i = cell t j → i = j) {n i : ℕ}
    (hi : i < cap) (hn : n ≤ cap) : (scan t (cap - 1) n i).Nodup := by
  induction n generalizing i with
  | zero => exact List.nodup_nil
  | succ n ih =>
    have hpos := cap_pos hcap
    have hnext : (i + 1) % cap < cap := Nat.mod_lt _ hpos
    simp only [scan, land_mask hcap]
    split
    · exact List.nodup_nil
    split
    · rename_i hlt
      refine List.nodup_cons.2 ⟨fun hmem ↦ ?_, ih hnext (by omega)⟩
      obtain ⟨-, d, hd, hat, -⟩ := (mem_scan hcap hnext).1 hmem
      rw [probed_next] at hat
      -- the same slot in a later cell, less than a full round away
      have hidx := hunique i hi _ (Nat.mod_lt (i + (d + 1)) hpos) hlt
        (show cell t i = probed t cap i (d + 1) by rw [hat]; omega)
      have hzero : (i + 0) % cap = (i + (d + 1)) % cap := by
        rw [Nat.add_zero, Nat.mod_eq_of_lt hi]
        exact hidx
      have := probed_inj hpos (by omega) hzero
      omega
    · exact ih hnext (by omega)

/-! ### All slots of a hash -/

/-- The answers of `probe`, asked again after each answer until it is `-1`, at most `fuel` times. -/
def probeAll (fuel : ℕ) (t : List ℤ) (hashes : List Word) (cap : ℕ) (h : Word) (after : ℤ) :
    Option (List ℤ) :=
  searchOn (fun s ↦ let r := probe t hashes cap h s; if r = -1 then none else some r) fuel after

theorem ofAnswer {o : Option ℤ} (ho : ∀ s, o = some s → 0 ≤ s) :
    (if o.getD (-1) = -1 then none else some (o.getD (-1))) = o := by
  cases o with
  | none => rfl
  | some s =>
    have := ho s rfl
    exact if_neg (show s ≠ -1 by omega)

/-- With all slots of the table in reach, asking again and again gives the live slots of a hash. -/
theorem probeAll_spec {t : List ℤ} {cap : ℕ} {hashes live : List Word}
    (hct : Counted t cap hashes live) (h : Word) :
    ∃ l, (∀ fuel > cap, probeAll fuel t hashes cap h (-1) = some l) ∧ l.Nodup ∧
      ∀ s, s ∈ l ↔ ∃ u : ℕ, s = u ∧ LiveSlot live u ∧ hashes[u]? = some h := by
  have hch := hct.chained
  have hhome := home_lt hch.pow h
  set L := scan t (cap - 1) cap (home h (cap - 1)) with hL
  have hnonneg : ∀ s ∈ L, 0 ≤ s := fun s hs ↦ ((mem_scan hch.pow hhome).1 hs).1
  have hnd : L.Nodup := nodup_scan hch.pow hch.unique hhome le_rfl
  have hfound : ∀ {M : List ℤ}, (∀ s ∈ M, s ∈ L) → ∀ s, M.find? (hasHash hashes h) = some s → 0 ≤ s :=
    fun hM s hs ↦ hnonneg s (hM s (List.mem_of_find?_eq_some hs))
  have hnot : (-1 : ℤ) ∉ L := fun hmem ↦ absurd (hnonneg _ hmem) (by omega)
  -- the start `-1` stands before all slots
  have hsearch : ∀ fuel > L.length,
      probeAll fuel t hashes cap h (-1) = some (L.filter (hasHash hashes h)) := by
    intro fuel hfuel
    refine searchOn_eq_filter (L := -1 :: L) (List.nodup_cons.2 ⟨hnot, hnd⟩) (hasHash hashes h)
      (fun x hx ↦ ?_) (A := []) rfl hfuel
    rcases List.mem_cons.1 hx with rfl | hx
    · rw [List.dropWhile_cons_of_neg (by simp), List.tail_cons]
      have hprobe : probe t hashes cap h (-1) = (L.find? (hasHash hashes h)).getD (-1) :=
        probeLoop_past t hashes (cap - 1) h (-1) cap (home h (cap - 1))
      simp only [hprobe]
      exact ofAnswer (hfound fun s hs ↦ hs)
    · have hx0 := hnonneg x hx
      rw [List.dropWhile_cons_of_pos (by simp; omega)]
      have hprobe : probe t hashes cap h x =
          ((L.dropWhile (· ≠ x)).tail.find? (hasHash hashes h)).getD (-1) := by
        rw [probe, decide_eq_false (show ¬x < 0 by omega), probeLoop_behind]
      simp only [hprobe]
      refine ofAnswer (hfound fun s hs ↦ ?_)
      exact (List.dropWhile_sublist _).subset (List.mem_of_mem_tail hs)
  have hlength : L.length ≤ cap := by
    rw [hL]
    exact length_scan_le _ _ _ _
  refine ⟨L.filter (hasHash hashes h), fun fuel hf ↦ hsearch fuel (by omega), hnd.filter _,
    fun s ↦ ?_⟩
  rw [List.mem_filter, mem_scan hch.pow hhome]
  constructor
  · rintro ⟨⟨hs, d, -, hat, -⟩, hhash⟩
    refine ⟨s.toNat, (Int.toNat_of_nonneg hs).symm, ?_, of_decide_eq_true hhash⟩
    -- a cell with a slot in it has a live one
    rcases hch.entry _ (Nat.mod_lt (home h (cap - 1) + d) (cap_pos hch.pow)) with he | he | ⟨u, hu, he⟩
    · rw [probed, he, empty] at hat
      omega
    · rw [probed, he, removed] at hat
      omega
    · rw [probed, he] at hat
      obtain rfl : s = u := by omega
      exact hu
  · rintro ⟨u, rfl, hu, hhash⟩
    obtain ⟨d, hd, hat, hclear⟩ := hch.reach u hu
    rw [show hashes.getD u 0 = h by rw [List.getD_eq_getElem?_getD, hhash]; rfl] at hat hclear
    exact ⟨⟨by omega, d, hd, hat, hclear⟩, decide_eq_true hhash⟩

/-! ### Every run -/

namespace Keyed

variable {α : Type}

/-- The index of a state keeps its invariant. -/
def Inv (k : Keyed α) : Prop := ∃ cap, IndexInv k.index cap

theorem step_inv {k : Keyed α} (hk : k.Inv) (c : Call α) :
    ∃ k' F, (∀ fuel ≥ F, step fuel k c = some k') ∧ k'.Inv := by
  obtain ⟨cap, h⟩ := hk
  cases c with
  | table n => exact ⟨new n, 0, fun _ _ ↦ rfl, IndexInv.new n⟩
  | insert w x =>
    obtain ⟨k', cap', F, hrun, hinv, -, -⟩ := h.insert w
    refine ⟨⟨k', k.entries ++ [x]⟩, F, fun fuel hf ↦ ?_, cap', hinv⟩
    simp only [step, hrun fuel hf, Option.map_some]
  | remove slot => exact ⟨_, 0, fun _ _ ↦ rfl, cap, h.remove slot⟩
  | retain => exact ⟨_, 0, fun _ _ ↦ rfl, cap, h⟩
  | compact =>
    obtain ⟨k', cap', F, n, hrun, hinv⟩ := h.compact
    refine ⟨⟨k', k.entries⟩, F, fun fuel hf ↦ ?_, cap', hinv⟩
    simp only [step, hrun fuel hf, Option.map_some]
  | clear => exact ⟨_, 0, fun _ _ ↦ rfl, cap, h.clear⟩

theorem foldlM_inv {k : Keyed α} (hk : k.Inv) (calls : List (Call α)) :
    ∃ k' F, (∀ fuel ≥ F, calls.foldlM (step fuel) k = some k') ∧ k'.Inv := by
  induction calls generalizing k with
  | nil => exact ⟨k, 0, fun _ _ ↦ rfl, hk⟩
  | cons c calls ih =>
    obtain ⟨k₁, F₁, hstep, h₁⟩ := step_inv hk c
    obtain ⟨k₂, F₂, hrest, h₂⟩ := ih h₁
    refine ⟨k₂, max F₁ F₂, fun fuel hf ↦ ?_, h₂⟩
    rw [ge_iff_le, max_le_iff] at hf
    rw [List.foldlM_cons, hstep fuel hf.1]
    exact hrest fuel hf.2

/-- **The table of every run**: it is at most half full, every live slot is in exactly one cell, in
reach of its home, the count is right; `place` ends on it for every hash, and asking `probe` again and
again gives the live slots of a hash, each once. -/
theorem run_table (n : ℤ) (calls : List (Call α)) :
    ∃ k F, (∀ fuel ≥ F, run fuel n calls = some k) ∧ ∃ cap,
      cells k.index.table = some cap ∧ k.index.hashes.length = k.index.live.length ∧
      (occupied k.index.table cap).card * 2 ≤ cap ∧
      cell k.index.table cap = (occupied k.index.table cap).card ∧
      (∀ s, LiveSlot k.index.live s → ∃! i, i < cap ∧ cell k.index.table i = s + 1) ∧
      (∀ s h, LiveSlot k.index.live s → k.index.hashes[s]? = some h →
        ∃ d < cap, probed k.index.table cap (home h (cap - 1)) d = s + 1 ∧
          ∀ e < d, probed k.index.table cap (home h (cap - 1)) e ≠ empty) ∧
      (∀ h s, ∃ r, ∀ fuel ≥ cap, place fuel k.index.table cap h s = some r) ∧
      ∀ h, ∃ l, (∀ fuel > cap,
          probeAll fuel k.index.table k.index.hashes cap h (-1) = some l) ∧ l.Nodup ∧
        ∀ s, s ∈ l ↔ ∃ u : ℕ, s = u ∧ LiveSlot k.index.live u ∧ k.index.hashes[u]? = some h := by
  obtain ⟨k, F, hrun, cap, hk⟩ := foldlM_inv (k := new n) (IndexInv.new n) calls
  have hch := hk.counted.chained
  have hpos := cap_pos hch.pow
  refine ⟨k, F, hrun, cap, hk.cells_eq, hk.length, hk.half, hk.counted.count, fun s hs ↦ ?_,
    fun s h hs hh ↦ ?_, fun h s ↦ ?_, fun h ↦ probeAll_spec hk.counted h⟩
  · obtain ⟨d, -, hat, -⟩ := hch.reach s hs
    refine ⟨_, ⟨Nat.mod_lt _ hpos, hat⟩, fun j hj ↦ ?_⟩
    exact hch.unique j hj.1 _ (Nat.mod_lt _ hpos) (by rw [hj.2]; omega) (hj.2.trans hat.symm)
  · obtain ⟨d, hd, hat, hclear⟩ := hch.reach s hs
    rw [show k.index.hashes.getD s 0 = h by rw [List.getD_eq_getElem?_getD, hh]; rfl] at hat hclear
    exact ⟨d, hd, hat, hclear⟩
  · have hfull : (occupied k.index.table cap).card < cap := by
      have hhalf := hk.half
      omega
    exact place_ends hch.pow (exists_empty hfull) h s

end Keyed

end CoilLang.Machine
