import Mathlib.Data.List.Basic

/-!
# Run-length tables

The places where a list of keys changes, each with its new key (`runs`). A table of runs is sorted by
place, so that a place is looked up by **binary search for the last run that starts at or before it**
(`partitionPoint`), and what the search finds is the key of the list at that place, or the key before the
list if no run has started yet (`partitionPoint_runs`).
-/

namespace CoilLang

/-! ### Binary search -/

/-- The first place of `lo ..< hi` where `p` fails, if `p` holds on a first part and fails on the rest. -/
def bisect (p : ℕ → Bool) (lo hi : ℕ) : ℕ :=
  if lo < hi then
    let mid := lo + (hi - lo) / 2
    if p mid then bisect p (mid + 1) hi else bisect p lo mid
  else lo
termination_by hi - lo

theorem bisect_eq {p : ℕ → Bool} {k : ℕ} {lo hi : ℕ} (hlo : lo ≤ k) (hhi : k ≤ hi)
    (hp : ∀ i, lo ≤ i → i < hi → (p i = true ↔ i < k)) : bisect p lo hi = k := by
  induction h : hi - lo using Nat.strongRecOn generalizing lo hi with
  | _ n ih =>
    rw [bisect]
    rcases Nat.lt_or_ge lo hi with hlt | hge
    · rw [if_pos hlt]
      have hmid := hp (lo + (hi - lo) / 2) (by omega) (by omega)
      dsimp only
      split
      next hpm =>
        have hk : lo + (hi - lo) / 2 < k := hmid.1 hpm
        exact ih (hi - (lo + (hi - lo) / 2 + 1)) (by omega) (by omega) hhi
          (fun i h₁ h₂ ↦ hp i (by omega) h₂) rfl
      next hpm =>
        have hk : k ≤ lo + (hi - lo) / 2 := Nat.le_of_not_lt fun hlt' ↦ hpm (hmid.2 hlt')
        exact ih (lo + (hi - lo) / 2 - lo) (by omega) hlo hk
          (fun i h₁ h₂ ↦ hp i h₁ (by omega)) rfl
    · rw [if_neg (Nat.not_lt.2 hge)]
      omega

theorem bisect_le {p : ℕ → Bool} {lo hi : ℕ} (h : lo ≤ hi) : bisect p lo hi ≤ hi := by
  induction hn : hi - lo using Nat.strongRecOn generalizing lo hi with
  | _ n ih =>
    rw [bisect]
    split
    · dsimp only
      split
      · exact ih (hi - (lo + (hi - lo) / 2 + 1)) (by omega) (by omega) rfl
      · exact Nat.le_trans (ih (lo + (hi - lo) / 2 - lo) (by omega) (by omega) rfl) (by omega)
    · exact h

section Runs

variable {α κ : Type}

/-- The length of the first part of the list, on which `p` holds, found by bisection. -/
def partitionPoint (p : α → Bool) (xs : List α) : ℕ :=
  bisect (fun i ↦ (xs[i]?).any p) 0 xs.length

theorem partitionPoint_le (p : α → Bool) (xs : List α) : partitionPoint p xs ≤ xs.length := bisect_le (Nat.zero_le _)

theorem partitionPoint_append {p : α → Bool} {xs ys : List α} (hxs : ∀ x ∈ xs, p x = true)
    (hys : ∀ y ∈ ys, p y = false) : partitionPoint p (xs ++ ys) = xs.length := by
  refine bisect_eq (Nat.zero_le _) (by simp) fun i _ hi ↦ ?_
  rcases Nat.lt_or_ge i xs.length with hlt | hge
  · rw [List.getElem?_append_left hlt, List.getElem?_eq_getElem hlt]
    exact ⟨fun _ ↦ hlt, fun _ ↦ hxs _ (List.getElem_mem hlt)⟩
  · rw [List.length_append] at hi
    have hlt : i - xs.length < ys.length := by omega
    rw [List.getElem?_append_right hge, List.getElem?_eq_getElem hlt]
    refine ⟨fun h ↦ ?_, fun h ↦ absurd h (Nat.not_lt.2 hge)⟩
    have hp : p ys[i - xs.length] = true := h
    rw [hys _ (List.getElem_mem hlt)] at hp
    cases hp

/-! ### Runs -/

/-- Where the keys change, from place `pc` on and after key `prev`. -/
def runs [DecidableEq κ] (prev : κ) (pc : ℕ) : List κ → List (ℕ × κ)
  | [] => []
  | k :: ks => if k ≠ prev then (pc, k) :: runs k (pc + 1) ks else runs prev (pc + 1) ks

variable [DecidableEq κ]

/-- A run starts inside the list, with the key there. -/
theorem getElem?_of_mem_runs {prev : κ} {pc : ℕ} {ks : List κ} {r : ℕ × κ}
    (h : r ∈ runs prev pc ks) : pc ≤ r.1 ∧ ks[r.1 - pc]? = some r.2 := by
  induction ks generalizing prev pc with
  | nil => cases h
  | cons k ks ih =>
    have hlater : ∀ prev', r ∈ runs prev' (pc + 1) ks → pc ≤ r.1 ∧ (k :: ks)[r.1 - pc]? = some r.2 := by
      intro prev' hr
      obtain ⟨hle, hget⟩ := ih hr
      refine ⟨by omega, ?_⟩
      rw [show r.1 - pc = r.1 - (pc + 1) + 1 by omega, List.getElem?_cons_succ]
      exact hget
    rw [runs] at h
    split at h
    · rcases List.mem_cons.1 h with rfl | hr
      · exact ⟨Nat.le_refl _, by simp⟩
      · exact hlater k hr
    · exact hlater prev h

/-- The key before a run is another one. -/
theorem ne_of_mem_runs {prev : κ} {pc : ℕ} {ks : List κ} {r : ℕ × κ} (h : r ∈ runs prev pc ks) :
    r.1 = pc ∧ r.2 ≠ prev ∨ ∃ k, pc < r.1 ∧ ks[r.1 - pc - 1]? = some k ∧ r.2 ≠ k := by
  induction ks generalizing prev pc with
  | nil => cases h
  | cons k ks ih =>
    have hlater : ∀ hr : r ∈ runs k (pc + 1) ks,
        ∃ k', pc < r.1 ∧ (k :: ks)[r.1 - pc - 1]? = some k' ∧ r.2 ≠ k' := by
      intro hr
      rcases ih hr with ⟨hpc, hne⟩ | ⟨k', hlt, hget, hne⟩
      · exact ⟨k, by omega, by rw [show r.1 - pc - 1 = 0 by omega]; rfl, hne⟩
      · refine ⟨k', by omega, ?_, hne⟩
        rw [show r.1 - pc - 1 = r.1 - (pc + 1) - 1 + 1 by omega, List.getElem?_cons_succ]
        exact hget
    rw [runs] at h
    split at h
    next hne =>
      rcases List.mem_cons.1 h with rfl | hr
      · exact .inl ⟨rfl, hne⟩
      · exact .inr (hlater hr)
    next heq =>
      rw [← not_not.1 heq] at h
      exact .inr (hlater h)

/-- A run starts where the key changes. -/
theorem mem_runs (prev : κ) (pc : ℕ) {ks : List κ} {i : ℕ} {k k' : κ} (hi : ks[i]? = some k)
    (hnext : ks[i + 1]? = some k') (hne : k' ≠ k) : (pc + i + 1, k') ∈ runs prev pc ks := by
  induction ks generalizing prev pc i with
  | nil => cases hi
  | cons a ks ih =>
    have hlater : (pc + i + 1, k') ∈ runs a (pc + 1) ks := by
      cases i with
      | zero =>
        obtain rfl : a = k := Option.some.inj hi
        cases ks with
        | nil => cases hnext
        | cons b ks =>
          obtain rfl : b = k' := Option.some.inj hnext
          rw [runs, if_pos hne]
          exact List.mem_cons_self
      | succ i =>
        have h := ih a (pc + 1) hi hnext
        rwa [show pc + 1 + i + 1 = pc + (i + 1) + 1 by omega] at h
    rw [runs]
    split
    · exact List.mem_cons_of_mem _ hlater
    next heq =>
      rw [← not_not.1 heq]
      exact hlater

theorem pairwise_runs (prev : κ) (pc : ℕ) (ks : List κ) :
    (runs prev pc ks).Pairwise fun r s ↦ r.1 < s.1 := by
  induction ks generalizing prev pc with
  | nil => exact List.Pairwise.nil
  | cons k ks ih =>
    rw [runs]
    split
    · refine List.pairwise_cons.2 ⟨fun r hr ↦ ?_, ih _ _⟩
      exact (getElem?_of_mem_runs hr).1
    · exact ih _ _

/-- With no key before the list, a run starts at a key or right behind one. -/
theorem exists_some_of_mem_runs {ks : List (Option κ)} {r : ℕ × Option κ} (h : r ∈ runs none 0 ks) :
    ∃ i k, ks[i]? = some (some k) ∧ r.1 ≤ i + 1 := by
  have hget := (getElem?_of_mem_runs h).2
  rw [Nat.sub_zero] at hget
  cases hk : r.2 with
  | some k =>
    rw [hk] at hget
    exact ⟨r.1, k, hget, Nat.le_succ _⟩
  | none =>
    rcases ne_of_mem_runs h with ⟨-, hne⟩ | ⟨k, hlt, hbefore, hne⟩
    · exact absurd hk hne
    · cases k with
      | none => exact absurd hk hne
      | some k => exact ⟨r.1 - 0 - 1, k, hbefore, by omega⟩

/-- The runs that have started at place `i`, and those that have not. -/
theorem runs_split (prev : κ) (pc : ℕ) {ks : List κ} {i : ℕ} {k : κ} (hi : ks[i]? = some k) :
    ∃ started later, runs prev pc ks = started ++ later ∧ (∀ r ∈ started, r.1 ≤ pc + i) ∧
      (∀ r ∈ later, pc + i < r.1) ∧ (started.getLast?.map Prod.snd).getD prev = k := by
  induction ks generalizing prev pc i with
  | nil => cases hi
  | cons k' ks ih =>
    -- the runs after the first key, one place further on
    have hrest : ∀ prev', k' = prev' → ∃ started later, runs prev' (pc + 1) ks = started ++ later ∧
        (∀ r ∈ started, r.1 ≤ pc + i) ∧ (∀ r ∈ later, pc + i < r.1) ∧
        (started.getLast?.map Prod.snd).getD prev' = k := by
      rintro _ rfl
      cases i with
      | zero =>
        refine ⟨[], _, rfl, by simp, fun r hr ↦ (getElem?_of_mem_runs hr).1, ?_⟩
        exact Option.some.inj hi
      | succ i =>
        obtain ⟨started, later, h₁, h₂, h₃, h₄⟩ := ih k' (pc + 1) hi
        exact ⟨started, later, h₁, fun r hr ↦ by have := h₂ r hr; omega,
          fun r hr ↦ by have := h₃ r hr; omega, h₄⟩
    rw [runs]
    split
    · obtain ⟨started, later, h₁, h₂, h₃, h₄⟩ := hrest k' rfl
      refine ⟨(pc, k') :: started, later, by rw [h₁]; rfl, ?_, h₃, ?_⟩
      · exact List.forall_mem_cons.2 ⟨Nat.le_add_right _ _, h₂⟩
      · rw [List.getLast?_cons]
        cases hlast : started.getLast? with
        | none =>
          rw [hlast] at h₄
          exact h₄
        | some r =>
          rw [hlast] at h₄
          exact h₄
    next heq => exact hrest prev (not_not.1 heq)

/-- **The search finds the key of the list**: no run has started and the key is still the one before the
list, or the last run that has started carries it. The table holds the runs in some form `f`. -/
theorem partitionPoint_runs (prev : κ) {ks : List κ} {i : ℕ} {k : κ} (f : ℕ × κ → α) (place : α → ℕ)
    (hplace : ∀ r ∈ runs prev 0 ks, place (f r) = r.1) (hi : ks[i]? = some k) :
    partitionPoint (fun x ↦ place x ≤ i) ((runs prev 0 ks).map f) = 0 ∧ k = prev ∨
      ∃ j, ∃ r ∈ runs prev 0 ks,
        partitionPoint (fun x ↦ place x ≤ i) ((runs prev 0 ks).map f) = j + 1 ∧
          ((runs prev 0 ks).map f)[j]? = some (f r) ∧ r.2 = k := by
  obtain ⟨started, later, hsplit, hstarted, hlater, hkey⟩ := runs_split prev 0 hi
  rw [Nat.zero_add] at hstarted hlater
  have hpoint : partitionPoint (fun x ↦ place x ≤ i) ((runs prev 0 ks).map f) = started.length := by
    rw [hsplit, List.map_append]
    rw [← List.length_map f]
    refine partitionPoint_append ?_ ?_
    · refine List.forall_mem_map.2 fun r hr ↦ decide_eq_true ?_
      rw [hplace r (hsplit ▸ List.mem_append_left _ hr)]
      exact hstarted r hr
    · refine List.forall_mem_map.2 fun r hr ↦ decide_eq_false ?_
      rw [hplace r (hsplit ▸ List.mem_append_right _ hr)]
      exact Nat.not_le.2 (hlater r hr)
  rw [hpoint]
  cases hlast : started.getLast? with
  | none =>
    rw [hlast] at hkey
    rw [List.getLast?_eq_none_iff.1 hlast]
    exact .inl ⟨rfl, hkey.symm⟩
  | some r =>
    rw [hlast] at hkey
    obtain ⟨front, rfl⟩ := List.getLast?_eq_some_iff.1 hlast
    refine .inr ⟨front.length, r, ?_, by simp, ?_, hkey⟩
    · rw [hsplit]
      simp
    · rw [hsplit]
      simp

end Runs

end CoilLang
