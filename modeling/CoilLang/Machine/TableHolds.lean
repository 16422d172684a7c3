import CoilLang.Machine.Table

/-!
# What a table holds

In a `Chained` table a probe that starts at the home slot of a live key meets no free slot before the key, so **a free
slot ends the search for a key that is not there**. Live and dead slots together are at most three quarters of the
table; there is always a free one, and every probe ends (`Chained.probe_spec`).
-/

namespace CoilLang.Machine.Table

variable {K V T : Type} {t t' : List (Entry K V)} {hash : K → ℕ} {key : K} {val : V} {i j n : ℕ}

/-! ### Slots -/

theorem entry_set (t : List (Entry K V)) (i j : ℕ) (e : Entry K V) :
    entry (t.set i e) j = if j = i ∧ i < t.length then e else entry t j := by
  rw [entry, entry, List.getD_eq_getElem?_getD, List.getD_eq_getElem?_getD, List.getElem?_set]
  rcases eq_or_ne i j with rfl | hne
  · by_cases hi : i < t.length
    · simp [hi]
    · simp [hi]
  · simp [hne, hne.symm]

theorem entry_set_self (hi : i < t.length) (e : Entry K V) : entry (t.set i e) i = e := by
  rw [entry_set, if_pos ⟨rfl, hi⟩]

theorem entry_set_of_ne (hne : j ≠ i) (e : Entry K V) : entry (t.set i e) j = entry t j := by
  rw [entry_set, if_neg fun h ↦ hne h.1]

theorem lt_of_entry (h : entry t i ≠ .free) : i < t.length := by
  by_contra hi
  refine h ?_
  rw [entry, List.getD_eq_getElem?_getD, List.getElem?_eq_none (not_lt.mp hi)]
  rfl

theorem getElem_eq_entry (hi : i < t.length) : t[i] = entry t i := by
  rw [entry, List.getD_eq_getElem?_getD, List.getElem?_eq_getElem hi]
  rfl

theorem isDead_iff {e : Entry K V} : e.isDead = true ↔ e = .dead := by cases e <;> simp [Entry.isDead]

theorem mem_iff_entry {e : Entry K V} (he : e ≠ .free) : e ∈ t ↔ ∃ i, entry t i = e := by
  rw [List.mem_iff_getElem]
  constructor
  · rintro ⟨i, hi, rfl⟩
    exact ⟨i, (getElem_eq_entry hi).symm⟩
  · rintro ⟨i, rfl⟩
    exact ⟨i, lt_of_entry he, getElem_eq_entry _⟩

/-- The table has `val` for `key`. -/
def Has (t : List (Entry K V)) (key : K) (val : V) : Prop := ∃ i, entry t i = .live key val

/-- The walk from `home` meets no free slot before slot `i`. -/
def Passes (t : List (Entry K V)) (home i : ℕ) : Prop :=
  ∃ d < t.length, (home + d) % t.length = i ∧ ∀ e < d, entry t ((home + e) % t.length) ≠ .free

theorem Passes.mono {home : ℕ} (h : Passes t home i) (hlen : t'.length = t.length)
    (hfull : ∀ j, entry t j ≠ .free → entry t' j ≠ .free) : Passes t' home i := by
  obtain ⟨d, hd, hi, hbefore⟩ := h
  rw [Passes, hlen]
  exact ⟨d, hd, hi, fun e he ↦ hfull _ (hbefore e he)⟩

/-- A slot that is written is not free. -/
theorem Passes.set {home : ℕ} {e : Entry K V} (h : Passes t home j) (he : e ≠ .free) : Passes (t.set i e) home j := by
  refine h.mono List.length_set fun j' hj' ↦ ?_
  rw [entry_set]
  split
  · exact he
  · exact hj'

/-- The keys of a table are different, and their probes find them. -/
structure Chained (hash : K → ℕ) (t : List (Entry K V)) : Prop where
  cap : ∃ k, t.length = 2 ^ k
  inj : ∀ i j key val val', entry t i = .live key val → entry t j = .live key val' → i = j
  reach : ∀ i key val, entry t i = .live key val → Passes t (hash key) i

theorem Chained.pairwise (hc : Chained hash t) :
    t.Pairwise fun e e' ↦ ∀ k v v', e = .live k v → e' ≠ .live k v' := by
  rw [List.pairwise_iff_getElem]
  intro i j hi hj hlt k v v' he he'
  rw [getElem_eq_entry] at he he'
  exact hlt.ne (hc.inj i j k v v' he he')

/-- Slot `i` has the key, or the key is nowhere and may be put there. -/
def Fits (hash : K → ℕ) (t : List (Entry K V)) (key : K) (i : ℕ) : Prop :=
  i < t.length ∧ ((∃ val, entry t i = .live key val) ∨
    (∀ val, ¬ Has t key val) ∧ (entry t i = .free ∨ entry t i = .dead) ∧ Passes t (hash key) i)

/-! ### Probes -/

/-- A walk comes to a free slot, or to one with `p` before, if there is a free one. -/
theorem exists_first (hfree : ∃ j < t.length, entry t j = .free) (p : Entry K V → Prop) (home : ℕ) : ∃ d < t.length,
    (entry t ((home + d) % t.length) = .free ∨ p (entry t ((home + d) % t.length))) ∧
      ∀ e < d, entry t ((home + e) % t.length) ≠ .free ∧ ¬ p (entry t ((home + e) % t.length)) := by
  classical
  obtain ⟨j, hj, hentry⟩ := hfree
  obtain ⟨d₀, hd₀, hslot⟩ := exists_probed (i := home) hj
  have hex : ∃ d, entry t ((home + d) % t.length) = .free ∨ p (entry t ((home + d) % t.length)) :=
    ⟨d₀, .inl (hslot ▸ hentry)⟩
  refine ⟨Nat.find hex, (Nat.find_min' hex (.inl (hslot ▸ hentry))).trans_lt hd₀, Nat.find_spec hex, fun e he ↦ ?_⟩
  exact not_or.mp (Nat.find_min hex he)

section
variable [DecidableEq K]

theorem probeLoop_next (hcap : ∃ k, t.length = 2 ^ k) {dead : Option ℕ} (hfree : entry t (i % t.length) ≠ .free)
    (hkey : ∀ val, entry t (i % t.length) ≠ .live key val) :
    probeLoop t key (n + 1) (i % t.length) dead = probeLoop t key n ((i + 1) % t.length)
      (if (entry t (i % t.length)).isDead then dead.or (some (i % t.length)) else dead) := by
  have hnext : (i % t.length + 1) &&& (t.length - 1) = (i + 1) % t.length := by
    rw [land_mask hcap, Nat.mod_add_mod]
  rw [probeLoop, hnext]
  cases he : entry t (i % t.length) with
  | free => exact absurd he hfree
  | dead => rfl
  | live k v =>
    have hne : k ≠ key := by
      rintro rfl
      exact hkey v he
    dsimp only
    rw [if_neg hne]
    rfl

/-- A walk that comes to the key before a free slot ends there. -/
theorem probeLoop_live (hcap : ∃ k, t.length = 2 ^ k) {d : ℕ} {dead : Option ℕ} (hn : d < n)
    (hbefore : ∀ e < d, entry t ((i + e) % t.length) ≠ .free ∧ ∀ val, entry t ((i + e) % t.length) ≠ .live key val)
    (hlive : entry t ((i + d) % t.length) = .live key val) :
    probeLoop t key n (i % t.length) dead = some ((i + d) % t.length) := by
  induction d generalizing i n dead with
  | zero =>
    obtain ⟨n, rfl⟩ : ∃ m, n = m + 1 := ⟨n - 1, by omega⟩
    rw [Nat.add_zero] at hlive ⊢
    rw [probeLoop, hlive]
    exact if_pos rfl
  | succ d ih =>
    obtain ⟨n, rfl⟩ : ∃ m, n = m + 1 := ⟨n - 1, by omega⟩
    obtain ⟨hfree, hkey⟩ := hbefore 0 d.succ_pos
    rw [Nat.add_zero] at hfree hkey
    have hshift : ∀ e, i + 1 + e = i + (e + 1) := fun e ↦ by omega
    rw [probeLoop_next hcap hfree hkey, ← hshift d]
    refine ih (by omega) (fun e he ↦ ?_) (by rwa [hshift])
    rw [hshift]
    exact hbefore (e + 1) (by omega)

/-- A walk that comes to a free slot first ends with the first dead slot it passed, if any. -/
theorem probeLoop_free (hcap : ∃ k, t.length = 2 ^ k) {d : ℕ} (hn : d < n)
    (hbefore : ∀ e < d, entry t ((i + e) % t.length) ≠ .free ∧ ∀ val, entry t ((i + e) % t.length) ≠ .live key val)
    (hfree : entry t ((i + d) % t.length) = .free) (dead : Option ℕ) :
    ∃ r, probeLoop t key n (i % t.length) dead = some r ∧
      (dead = some r ∨ ∃ e ≤ d, r = (i + e) % t.length ∧ (entry t r = .free ∨ entry t r = .dead)) := by
  induction d generalizing i n dead with
  | zero =>
    obtain ⟨n, rfl⟩ : ∃ m, n = m + 1 := ⟨n - 1, by omega⟩
    rw [Nat.add_zero] at hfree
    rw [probeLoop, hfree]
    refine ⟨_, rfl, ?_⟩
    cases dead with
    | none => exact .inr ⟨0, le_rfl, rfl, .inl hfree⟩
    | some r => exact .inl rfl
  | succ d ih =>
    obtain ⟨n, rfl⟩ : ∃ m, n = m + 1 := ⟨n - 1, by omega⟩
    obtain ⟨hfree₀, hkey₀⟩ := hbefore 0 d.succ_pos
    rw [Nat.add_zero] at hfree₀ hkey₀
    have hshift : ∀ e, i + 1 + e = i + (e + 1) := fun e ↦ by omega
    rw [probeLoop_next hcap hfree₀ hkey₀]
    have hbefore' : ∀ e < d, entry t ((i + 1 + e) % t.length) ≠ .free ∧
        ∀ val, entry t ((i + 1 + e) % t.length) ≠ .live key val := by
      intro e he
      rw [hshift]
      exact hbefore (e + 1) (by omega)
    obtain ⟨r, hr, hcase⟩ := ih (by omega : d < n) hbefore' (by rwa [hshift]) _
    refine ⟨r, hr, ?_⟩
    rcases hcase with hdead | ⟨e, he, rfl, hwhat⟩
    · split at hdead
      · rename_i hd
        rw [Option.or_eq_some_iff] at hdead
        rcases hdead with hdead | ⟨-, hdead⟩
        · exact .inl hdead
        · cases hdead
          exact .inr ⟨0, Nat.zero_le _, rfl, .inr (isDead_iff.mp hd)⟩
      · exact .inl hdead
    · exact .inr ⟨e + 1, by omega, by rw [hshift], hwhat⟩

/-- **A probe ends**, at the slot of its key or where the key may be put. -/
theorem Chained.probe_spec (hc : Chained hash t) (hfree : ∃ j < t.length, entry t j = .free) (key : K) :
    ∃ i, probe hash t key = some i ∧ Fits hash t key i := by
  have hpos := cap_pos hc.cap
  obtain ⟨d, hd, hstop, hfirst⟩ := exists_first hfree (fun e ↦ ∃ val, e = .live key val) (hash key)
  have hbefore : ∀ e < d, entry t ((hash key + e) % t.length) ≠ .free ∧
      ∀ val, entry t ((hash key + e) % t.length) ≠ .live key val :=
    fun e he ↦ ⟨(hfirst e he).1, not_exists.mp (hfirst e he).2⟩
  rw [probe, land_mask hc.cap]
  rcases hstop with hstop | ⟨val, hstop⟩
  · have hend := probeLoop_free hc.cap hd hbefore hstop
    obtain ⟨r, hr, hcase⟩ := hend none
    obtain ⟨e, he, rfl, hwhat⟩ := hcase.resolve_left nofun
    refine ⟨_, hr, Nat.mod_lt _ hpos, .inr ⟨?_, hwhat, e, by omega, rfl, fun e' he' ↦ (hbefore e' (by omega)).1⟩⟩
    -- A live key would be behind the free slot, where no probe comes to.
    rintro val ⟨j, hj⟩
    obtain ⟨d', hd', rfl, hfull⟩ := hc.reach j key val hj
    rcases lt_trichotomy d d' with hlt | rfl | hgt
    · exact hfull d hlt hstop
    · rw [hstop] at hj
      cases hj
    · exact (hbefore d' hgt).2 val hj
  · exact ⟨_, probeLoop_live hc.cap hd hbefore hstop, Nat.mod_lt _ hpos, .inl ⟨val, hstop⟩⟩

end

/-- A probe for a live key ends at its slot. -/
theorem Chained.slot_of_fits (hc : Chained hash t) (hfits : Fits hash t key i) (hhas : Has t key val) :
    entry t i = .live key val := by
  obtain ⟨-, ⟨val', hi⟩ | ⟨hno, -⟩⟩ := hfits
  · obtain ⟨j, hj⟩ := hhas
    rwa [hc.inj i j key val' val hi hj]
  · exact absurd hhas (hno val)

/-! ### Writing a slot -/

theorem Chained.set_live (hc : Chained hash t) (hfits : Fits hash t key i) (val : V) :
    Chained hash (t.set i (.live key val)) ∧
      ∀ k v, Has (t.set i (.live key val)) k v ↔ k = key ∧ v = val ∨ k ≠ key ∧ Has t k v := by
  obtain ⟨hi, hcase⟩ := hfits
  have hself := entry_set_self hi (.live key val)
  have hkey : ∀ j v, entry t j = .live key v → j = i := by
    intro j v hj
    rcases hcase with ⟨v', hv'⟩ | ⟨hno, -⟩
    · exact hc.inj j i key v v' hj hv'
    · exact absurd ⟨j, hj⟩ (hno v)
  have hpass : ∀ {home j}, Passes t home j → Passes (t.set i (.live key val)) home j := fun h ↦ h.set (by simp)
  have hback : ∀ j k v, entry (t.set i (.live key val)) j = .live k v →
      j = i ∧ k = key ∧ v = val ∨ j ≠ i ∧ k ≠ key ∧ entry t j = .live k v := by
    intro j k v hj
    rcases eq_or_ne j i with rfl | hne
    · rw [hself] at hj
      cases hj
      exact .inl ⟨rfl, rfl, rfl⟩
    · rw [entry_set_of_ne hne] at hj
      refine .inr ⟨hne, ?_, hj⟩
      rintro rfl
      exact hne (hkey j v hj)
  refine ⟨⟨by rw [List.length_set]; exact hc.cap, fun j j' k v v' hj hj' ↦ ?_, fun j k v hj ↦ ?_⟩, fun k v ↦ ⟨?_, ?_⟩⟩
  · rcases hback j k v hj with ⟨rfl, rfl, -⟩ | ⟨-, hk, hj⟩ <;>
      rcases hback j' k v' hj' with ⟨rfl, hk', -⟩ | ⟨-, hk', hj'⟩
    · rfl
    · exact absurd rfl hk'
    · exact absurd hk' hk
    · exact hc.inj j j' k v v' hj hj'
  · rcases hback j k v hj with ⟨rfl, rfl, -⟩ | ⟨-, -, hj⟩
    · rcases hcase with ⟨v', hv'⟩ | ⟨-, -, hpass'⟩
      · exact hpass (hc.reach j k v' hv')
      · exact hpass hpass'
    · exact hpass (hc.reach j k v hj)
  · rintro ⟨j, hj⟩
    rcases hback j k v hj with ⟨-, hk, hv⟩ | ⟨-, hk, hj⟩
    · exact .inl ⟨hk, hv⟩
    · exact .inr ⟨hk, j, hj⟩
  · rintro (⟨rfl, rfl⟩ | ⟨hk, j, hj⟩)
    · exact ⟨i, hself⟩
    · refine ⟨j, ?_⟩
      rw [entry_set_of_ne]
      · exact hj
      · rintro rfl
        rcases hcase with ⟨v', hv'⟩ | ⟨-, hwhat | hwhat, -⟩
        · rw [hj] at hv'
          cases hv'
          exact hk rfl
        · rw [hj] at hwhat
          cases hwhat
        · rw [hj] at hwhat
          cases hwhat

theorem Chained.set_dead (hc : Chained hash t) (hi : entry t i = .live key val) :
    Chained hash (t.set i .dead) ∧ ∀ k v, Has (t.set i .dead) k v ↔ k ≠ key ∧ Has t k v := by
  have hlt : i < t.length := lt_of_entry (by rw [hi]; simp)
  have hself := entry_set_self hlt (.dead : Entry K V)
  have hback : ∀ j k v, entry (t.set i .dead) j = .live k v → j ≠ i ∧ entry t j = .live k v := by
    intro j k v hj
    have hne : j ≠ i := by
      rintro rfl
      rw [hself] at hj
      cases hj
    exact ⟨hne, entry_set_of_ne (e := .dead) hne ▸ hj⟩
  refine ⟨⟨by rw [List.length_set]; exact hc.cap, fun j j' k v v' hj hj' ↦
    hc.inj j j' k v v' (hback j k v hj).2 (hback j' k v' hj').2, fun j k v hj ↦ ?_⟩, fun k v ↦ ⟨?_, ?_⟩⟩
  · exact (hc.reach j k v (hback j k v hj).2).set (by simp)
  · rintro ⟨j, hj⟩
    obtain ⟨hne, hj⟩ := hback j k v hj
    refine ⟨?_, j, hj⟩
    rintro rfl
    exact hne (hc.inj j i k v val hj hi)
  · rintro ⟨hk, j, hj⟩
    refine ⟨j, (entry_set_of_ne ?_ _).trans hj⟩
    rintro rfl
    rw [hi] at hj
    cases hj
    exact hk rfl

/-! ### Counts -/

def Entry.isFull (e : Entry K V) : Bool := e.isLive || e.isDead

theorem countP_full (t : List (Entry K V)) : t.countP Entry.isFull = t.countP Entry.isLive + t.countP Entry.isDead := by
  induction t with
  | nil => rfl
  | cons e t ih =>
    rw [List.countP_cons, List.countP_cons, List.countP_cons, ih]
    cases e <;> simp [Entry.isFull, Entry.isLive, Entry.isDead] <;> omega

theorem exists_free (h : t.countP Entry.isLive + t.countP Entry.isDead < t.length) :
    ∃ j < t.length, entry t j = .free := by
  rw [← countP_full] at h
  by_contra hno
  refine h.ne (List.countP_eq_length.mpr fun e he ↦ ?_)
  obtain ⟨j, hj, rfl⟩ := List.mem_iff_getElem.mp he
  have hne : entry t j ≠ .free := fun hfree ↦ hno ⟨j, hj, hfree⟩
  rw [getElem_eq_entry hj]
  cases he : entry t j with
  | free => exact absurd he hne
  | dead => rfl
  | live => rfl

theorem countP_set (hi : i < t.length) (p : Entry K V → Bool) (e : Entry K V) :
    (t.set i e).countP p + (p (entry t i)).toNat = t.countP p + (p e).toNat := by
  have hle : (p (entry t i)).toNat ≤ t.countP p := by
    cases hp : p (entry t i) with
    | false => exact Nat.zero_le _
    | true => exact List.countP_pos_iff.mpr ⟨t[i], List.getElem_mem hi, by rw [getElem_eq_entry hi, hp]⟩
  rw [List.countP_set hi, getElem_eq_entry hi]
  cases hp : p (entry t i) <;> cases he : p e <;> rw [hp] at hle <;>
    simp only [Bool.toNat_true, Bool.toNat_false, Bool.false_eq_true, if_true, if_false] at hle ⊢ <;> omega

/-! ### A new table -/

theorem chained_replicate (hash : K → ℕ) (k : ℕ) : Chained hash (List.replicate (2 ^ k) (.free : Entry K V)) := by
  have hentry : ∀ j, entry (List.replicate (2 ^ k) (.free : Entry K V)) j = .free := by
    intro j
    rw [entry, List.getD_eq_getElem?_getD, List.getElem?_replicate]
    split <;> rfl
  refine ⟨⟨k, List.length_replicate⟩, fun i j key val val' hi ↦ ?_, fun i key val hi ↦ ?_⟩
  all_goals
    rw [hentry] at hi
    cases hi

namespace Store

variable [DecidableEq K]

theorem rehash_spec {old : List (Entry K V)} (hc : Chained hash t)
    (hnodup : old.Pairwise fun e e' ↦ ∀ k v v', e = .live k v → e' ≠ .live k v')
    (hnew : ∀ k v, .live k v ∈ old → ∀ v', ¬ Has t k v') (hdead : t.countP Entry.isDead = 0)
    (hroom : t.countP Entry.isLive + old.countP Entry.isLive < t.length) :
    ∃ t', rehash hash old t = some t' ∧ Chained hash t' ∧ t'.length = t.length ∧ t'.countP Entry.isDead = 0 ∧
      t'.countP Entry.isLive = t.countP Entry.isLive + old.countP Entry.isLive ∧
      ∀ k v, Has t' k v ↔ Has t k v ∨ .live k v ∈ old := by
  induction old generalizing t with
  | nil => exact ⟨t, rfl, hc, rfl, hdead, rfl, fun k v ↦ by simp⟩
  | cons e old ih =>
    obtain ⟨hhead, hrest⟩ := List.pairwise_cons.mp hnodup
    cases e with
    | live key val =>
      rw [List.countP_cons_of_pos rfl] at hroom ⊢
      obtain ⟨i, hi, hfits⟩ := hc.probe_spec (exists_free (by rw [hdead]; omega)) key
      have hlt := hfits.1
      obtain ⟨hc', hhas⟩ := hc.set_live hfits val
      have hfree : entry t i = .free := by
        obtain ⟨-, ⟨v, hv⟩ | ⟨-, hfree | hd, -⟩⟩ := hfits
        · exact absurd ⟨i, hv⟩ (hnew key val List.mem_cons_self v)
        · exact hfree
        · have hmem : (.dead : Entry K V) ∈ t := (mem_iff_entry (by simp)).mpr ⟨i, hd⟩
          exact absurd rfl (List.countP_eq_zero.mp hdead _ hmem)
      have hlive := countP_set hlt Entry.isLive (.live key val)
      have hdead' := countP_set hlt Entry.isDead (.live key val)
      rw [hfree] at hlive hdead'
      simp only [Entry.isLive, Entry.isDead, Bool.toNat_false, Bool.toNat_true, Nat.add_zero] at hlive hdead'
      have hnew' : ∀ k v, .live k v ∈ old → ∀ v', ¬ Has (t.set i (.live key val)) k v' := by
        intro k v hmem v' hcon
        rcases (hhas k v').mp hcon with ⟨rfl, -⟩ | ⟨-, hold⟩
        · exact hhead _ hmem _ _ _ rfl rfl
        · exact hnew k v (List.mem_cons_of_mem _ hmem) v' hold
      obtain ⟨t', hr, hct, hlen, hd, hl, hh⟩ := ih hc' hrest hnew' (hdead'.trans hdead)
        (by rw [hlive, List.length_set]; omega)
      refine ⟨t', ?_, hct, hlen.trans List.length_set, hd, by rw [hl, hlive]; omega, fun k v ↦ ?_⟩
      · rw [rehash, hi]
        exact hr
      · rw [hh, hhas, List.mem_cons]
        constructor
        · rintro ((⟨rfl, rfl⟩ | ⟨-, hold⟩) | hmem)
          · exact .inr (.inl rfl)
          · exact .inl hold
          · exact .inr (.inr hmem)
        · rintro (hold | heq | hmem)
          · refine .inl (.inr ⟨?_, hold⟩)
            rintro rfl
            exact hnew k val List.mem_cons_self v hold
          · cases heq
            exact .inl (.inl ⟨rfl, rfl⟩)
          · exact .inr hmem
    | free =>
      obtain ⟨t', hr, hct, hlen, hd, hl, hh⟩ :=
        ih hc hrest (fun k v hmem ↦ hnew k v (List.mem_cons_of_mem _ hmem)) hdead hroom
      exact ⟨t', hr, hct, hlen, hd, hl, fun k v ↦ by rw [hh, List.mem_cons]; simp⟩
    | dead =>
      obtain ⟨t', hr, hct, hlen, hd, hl, hh⟩ :=
        ih hc hrest (fun k v hmem ↦ hnew k v (List.mem_cons_of_mem _ hmem)) hdead hroom
      exact ⟨t', hr, hct, hlen, hd, hl, fun k v ↦ by rw [hh, List.mem_cons]; simp⟩

end Store

/-! ### The map a table holds -/

/-- The store is in order, and has what the map `m` has. -/
structure Holds (hash : K → ℕ) (s : Store K V) (m : K → Option V) : Prop where
  chained : s.entries = [] ∨ Chained hash s.entries
  lives : s.entries.countP Entry.isLive = s.lives
  deads : s.entries.countP Entry.isDead = s.deads
  load : s.lives + s.deads ≤ s.cap * 3 / 4
  has : ∀ key val, Has s.entries key val ↔ m key = some val

namespace Holds

variable {s : Store K V} {m : K → Option V}

theorem empty (hash : K → ℕ) : Holds hash ({} : Store K V) fun _ ↦ none where
  chained := .inl rfl
  lives := rfl
  deads := rfl
  load := Nat.zero_le _
  has key val := by
    constructor
    · rintro ⟨i, hi⟩
      cases hi
    · intro hval
      cases hval

theorem congr {m' : K → Option V} (h : Holds hash s m) (heq : ∀ key, m key = m' key) : Holds hash s m' := by
  rwa [← funext heq]

/-- Only the hashes of the keys that are there matter. -/
theorem congr_hash {hash' : K → ℕ} (h : Holds hash s m) (heq : ∀ key, (m key).isSome = true → hash key = hash' key) :
    Holds hash' s m where
  __ := h
  chained := by
    refine h.chained.imp_right fun hc ↦ { hc with reach := fun i key val hi ↦ ?_ }
    rw [← heq key (Option.isSome_iff_exists.mpr ⟨val, (h.has key val).mp ⟨i, hi⟩⟩)]
    exact hc.reach i key val hi

theorem mem_iff (h : Holds hash s m) : .live key val ∈ s.entries ↔ m key = some val := by
  rw [mem_iff_entry (by simp)]
  exact h.has key val

theorem eq_none_of_lives (h : Holds hash s m) (hlives : s.lives = 0) (key : K) : m key = none := by
  rw [Option.eq_none_iff_forall_ne_some]
  intro val hval
  have hcount := h.lives.trans hlives
  rw [List.countP_eq_zero] at hcount
  exact hcount _ (h.mem_iff.mpr hval) rfl

theorem ne_nil (h : Holds hash s m) (hlives : s.lives ≠ 0) : s.entries ≠ [] := by
  intro hnil
  have := h.lives
  rw [hnil] at this
  exact hlives this.symm

theorem hash_chained (h : Holds hash s m) (hne : s.entries ≠ []) :
    Chained hash s.entries ∧ ∃ j < s.entries.length, entry s.entries j = .free := by
  refine ⟨h.chained.resolve_left hne, exists_free ?_⟩
  have hload := h.load
  have hpos := List.length_pos_iff.mpr hne
  rw [h.lives, h.deads]
  unfold Store.cap at hload
  omega

variable [DecidableEq K]

theorem probe_spec (h : Holds hash s m) (hne : s.entries ≠ []) (key : K) :
    ∃ i, probe hash s.entries key = some i ∧ Fits hash s.entries key i ∧ (entry s.entries i).val? = m key := by
  obtain ⟨hc, hfree⟩ := h.hash_chained hne
  obtain ⟨i, hi, hfits⟩ := hc.probe_spec hfree key
  refine ⟨i, hi, hfits, ?_⟩
  obtain ⟨-, ⟨val, hval⟩ | ⟨hno, hwhat, -⟩⟩ := hfits
  · rw [hval, (h.has key val).mp ⟨i, hval⟩]
    rfl
  · have hnone : m key = none := by
      rw [Option.eq_none_iff_forall_ne_some]
      exact fun val hval ↦ hno val ((h.has key val).mpr hval)
    rw [hnone]
    rcases hwhat with hwhat | hwhat <;> rw [hwhat] <;> rfl

theorem get (h : Holds hash s m) (key : K) : s.get hash key = some (m key) := by
  rw [Store.get]
  split
  · rename_i hlives
    rw [h.eq_none_of_lives hlives]
  · rename_i hlives
    obtain ⟨i, hi, -, hval⟩ := h.probe_spec (h.ne_nil hlives) key
    rw [hi, Option.map_some, hval]

/-- An entry is written where its key fits, if there is room for one more. -/
theorem put (h : Holds hash s m) (hc : Chained hash s.entries) (hroom : s.lives + s.deads < s.cap * 3 / 4)
    (hfits : Fits hash s.entries key i) (hval : (entry s.entries i).val? = m key) (val : V) :
    (s.put key val i).1 = m key ∧ Holds hash (s.put key val i).2 (Function.update m key (some val)) := by
  have hi := hfits.1
  obtain ⟨hc', hhas⟩ := hc.set_live hfits val
  have hlive := countP_set hi Entry.isLive (.live key val)
  have hdead := countP_set hi Entry.isDead (.live key val)
  have hcap : (s.entries.set i (.live key val)).length = s.cap := List.length_set
  have hhas' : ∀ k v, Has (s.entries.set i (.live key val)) k v ↔ Function.update m key (some val) k = some v := by
    intro k v
    rw [hhas, h.has, Function.update_apply]
    split
    · rename_i hk
      simp [hk, eq_comm]
    · rename_i hk
      simp [hk]
  rw [h.lives] at hlive
  rw [h.deads] at hdead
  rw [Store.put]
  cases he : entry s.entries i with
  | free =>
    rw [he] at hlive hdead hval
    simp only [Entry.isLive, Entry.isDead, Bool.toNat_false, Bool.toNat_true, Nat.add_zero] at hlive hdead
    refine ⟨hval, .inr hc', hlive, hdead, ?_, hhas'⟩
    show s.lives + 1 + s.deads ≤ _
    rw [Store.cap, hcap]
    omega
  | dead =>
    rw [he] at hlive hdead hval
    simp only [Entry.isLive, Entry.isDead, Bool.toNat_false, Bool.toNat_true, Nat.add_zero] at hlive hdead
    refine ⟨hval, .inr hc', hlive, ?_, ?_, hhas'⟩
    · show (s.entries.set i (.live key val)).countP Entry.isDead = s.deads - 1
      omega
    · show s.lives + 1 + (s.deads - 1) ≤ _
      rw [Store.cap, hcap]
      omega
  | live k v =>
    rw [he] at hlive hdead hval
    simp only [Entry.isLive, Entry.isDead, Bool.toNat_false, Bool.toNat_true, Nat.add_zero] at hlive hdead
    refine ⟨hval, .inr hc', ?_, hdead, ?_, hhas'⟩
    · show (s.entries.set i (.live key val)).countP Entry.isLive = s.lives
      omega
    · show s.lives + s.deads ≤ _
      rw [Store.cap, hcap]
      omega

/-- A larger table holds the same. -/
theorem resize (h : Holds hash s m) : ∃ s', s.resize hash = some s' ∧ Holds hash s' m ∧
    Chained hash s'.entries ∧ s'.lives + s'.deads < s'.cap * 3 / 4 := by
  obtain ⟨k, hk⟩ : ∃ k, max (s.cap * 2) 8 = 2 ^ k := by
    rcases h.chained with hnil | hc
    · exact ⟨3, by rw [Store.cap, hnil]; rfl⟩
    · obtain ⟨k, hk⟩ := hc.cap
      have hdouble : s.cap * 2 = 2 ^ (k + 1) := by rw [Store.cap, hk, pow_succ]
      rcases le_total 3 (k + 1) with hle | hle
      · exact ⟨k + 1, by rw [hdouble]; exact max_eq_left (Nat.pow_le_pow_right Nat.two_pos hle)⟩
      · exact ⟨3, by rw [hdouble]; exact max_eq_right (Nat.pow_le_pow_right Nat.two_pos hle)⟩
  have hload := h.load
  have hnodup : s.entries.Pairwise fun e e' ↦ ∀ k v v', e = .live k v → e' ≠ .live k v' := by
    rcases h.chained with hnil | hc
    · rw [hnil]
      exact .nil
    · exact hc.pairwise
  have hzero : ∀ p : Entry K V → Bool, p .free = false → (List.replicate (2 ^ k) (.free : Entry K V)).countP p = 0 := by
    intro p hp
    rw [List.countP_replicate, hp]
    rfl
  have hno : ∀ key val, ¬ Has (List.replicate (2 ^ k) (.free : Entry K V)) key val := by
    rintro key val hhas
    rw [Has, ← mem_iff_entry (by simp), List.mem_replicate] at hhas
    cases hhas.2
  have hroom : (List.replicate (2 ^ k) (.free : Entry K V)).countP Entry.isLive + s.entries.countP Entry.isLive <
      (List.replicate (2 ^ k) (.free : Entry K V)).length := by
    rw [hzero _ rfl, h.lives, List.length_replicate, ← hk]
    omega
  obtain ⟨t, ht, hc, hlen, hdead, hlive, hhas⟩ := Store.rehash_spec (chained_replicate hash k) hnodup
    (fun k v _ v' ↦ hno k v') (hzero _ rfl) hroom
  rw [List.length_replicate, ← hk] at hlen
  rw [hzero _ rfl, h.lives, Nat.zero_add] at hlive
  refine ⟨{ s with deads := 0, entries := t }, by rw [Store.resize, hk, ht]; rfl,
    ⟨.inr hc, hlive, hdead, ?_, fun key val ↦ ?_⟩, hc, ?_⟩
  · show s.lives + 0 ≤ t.length * 3 / 4
    omega
  · rw [hhas, h.mem_iff]
    exact or_iff_right (hno key val)
  · show s.lives + 0 < t.length * 3 / 4
    omega

theorem insert (h : Holds hash s m) (key : K) (val : V) : ∃ s', s.insert hash key val = some (m key, s') ∧
    Holds hash s' (Function.update m key (some val)) := by
  obtain ⟨s₁, hs₁, h₁, hc, hroom⟩ : ∃ s₁,
      (if s.cap * 3 / 4 ≤ s.lives + s.deads then s.resize hash else some s) = some s₁ ∧
      Holds hash s₁ m ∧ Chained hash s₁.entries ∧ s₁.lives + s₁.deads < s₁.cap * 3 / 4 := by
    split
    · exact h.resize
    · rename_i hroom
      have hne : s.entries ≠ [] := by
        intro hnil
        rw [Store.cap, hnil, List.length_nil, Nat.zero_mul, Nat.zero_div] at hroom
        exact hroom (Nat.zero_le _)
      exact ⟨s, rfl, h, (h.hash_chained hne).1, not_le.mp hroom⟩
  have hne : s₁.entries ≠ [] := by
    intro hnil
    rw [Store.cap, hnil, List.length_nil, Nat.zero_mul, Nat.zero_div] at hroom
    exact Nat.not_lt_zero _ hroom
  obtain ⟨i, hi, hfits, hval⟩ := h₁.probe_spec hne key
  obtain ⟨hout, hholds⟩ := h₁.put hc hroom hfits hval val
  refine ⟨(s₁.put key val i).2, ?_, hholds⟩
  rw [Store.insert, hs₁, Option.bind_some, hi, Option.map_some, ← hout]

/-- A key that is there is removed. -/
theorem remove (h : Holds hash s m) (hval : m key = some val) : ∃ s', s.remove hash key = some (some val, s') ∧
    Holds hash s' (Function.update m key none) := by
  have hlives : s.lives ≠ 0 := by
    intro hlives
    rw [h.eq_none_of_lives hlives] at hval
    cases hval
  have hne := h.ne_nil hlives
  obtain ⟨hc, -⟩ := h.hash_chained hne
  obtain ⟨i, hi, hfits, -⟩ := h.probe_spec hne key
  have he := hc.slot_of_fits hfits ((h.has key val).mpr hval)
  obtain ⟨hc', hhas⟩ := hc.set_dead he
  have hlive := countP_set hfits.1 Entry.isLive .dead
  have hdead := countP_set hfits.1 Entry.isDead .dead
  rw [h.lives, he] at hlive
  rw [h.deads, he] at hdead
  simp only [Entry.isLive, Entry.isDead, Bool.toNat_false, Bool.toNat_true, Nat.add_zero] at hlive hdead
  have hload := h.load
  refine ⟨_, by rw [Store.remove, if_neg hlives, hi, Option.map_some, he], .inr hc', ?_, hdead, ?_, fun k v ↦ ?_⟩
  · show (s.entries.set i .dead).countP Entry.isLive = s.lives - 1
    omega
  · show s.lives - 1 + (s.deads + 1) ≤ (s.entries.set i .dead).length * 3 / 4
    rw [List.length_set]
    unfold Store.cap at hload
    omega
  · show Has (s.entries.set i .dead) k v ↔ _
    rw [hhas, h.has, Function.update_apply]
    split
    · rename_i hk
      simp [hk]
    · rename_i hk
      simp [hk]

end Holds

/-! ### The entries in slot order -/

theorem pair?_eq_some {e : Entry K V} {p : K × V} : e.pair? = some p ↔ e = .live p.1 p.2 := by
  cases e with
  | live k v => simp [Entry.pair?, Prod.ext_iff]
  | _ => simp [Entry.pair?]

theorem mem_iter {s : Store K V} : (key, val) ∈ s.iter ↔ .live key val ∈ s.entries := by
  rw [Store.iter, List.mem_filterMap]
  constructor
  · rintro ⟨e, he, hpair⟩
    exact pair?_eq_some.mp hpair ▸ he
  · exact fun he ↦ ⟨_, he, rfl⟩

theorem length_pairs (t : List (Entry K V)) : (t.filterMap Entry.pair?).length = t.countP Entry.isLive := by
  induction t with
  | nil => rfl
  | cons e t ih =>
    rw [List.countP_cons, ← ih]
    cases e <;> rfl

theorem Holds.iter {s : Store K V} {m : K → Option V} (h : Holds hash s m) :
    (s.iter.map Prod.fst).Nodup ∧ s.iter.length = s.lives ∧ ∀ key val, (key, val) ∈ s.iter ↔ m key = some val := by
  refine ⟨?_, (length_pairs _).trans h.lives, fun key val ↦ mem_iter.trans h.mem_iff⟩
  rcases h.chained with hnil | hc
  · rw [Store.iter, hnil]
    exact .nil
  · rw [List.Nodup, Store.iter, List.pairwise_map, List.pairwise_filterMap]
    refine hc.pairwise.imp fun hne p hp q hq heq ↦ ?_
    exact hne p.1 p.2 q.2 (pair?_eq_some.mp hp) (heq ▸ pair?_eq_some.mp hq)

end CoilLang.Machine.Table
