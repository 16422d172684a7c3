import Mathlib.Data.Nat.Basic

/-!
# Loops that run until nothing changes

`repeatUntil body n s` is the loop `loop { changed = body(&mut s); if !changed { break } }` with at
most `n` rounds. `repeatUntil_spec` gives what holds at the end from an invariant, and
`repeatUntil_terminates` that **enough rounds reach the end** when each round that reports a change
lowers a measure.

A round is often a fold that raises a flag whenever it changes the state. `foldl_unchanged` reads
off a fold whose flag stayed down that no single step changed anything.
-/

namespace CoilLang

variable {S α : Type*}

/-- Repeat `body` as long as it reports a change. -/
def repeatUntil (body : S → S × Bool) : ℕ → S → Option S
  | 0, _ => none
  | n + 1, s => if (body s).2 then repeatUntil body n (body s).1 else some (body s).1

section
variable {body : S → S × Bool} {s r : S} {n : ℕ}

/-- The loop ends with a round that reports no change, in a state where the invariant holds. -/
theorem repeatUntil_spec {I : S → Prop} (hI : ∀ s, I s → I (body s).1) (hs : I s)
    (h : repeatUntil body n s = some r) : ∃ s', I s' ∧ (body s').2 = false ∧ (body s').1 = r := by
  induction n generalizing s with
  | zero => cases h
  | succ n ih =>
    unfold repeatUntil at h
    split at h
    · exact ih (hI s hs) h
    · rename_i hc
      exact ⟨s, hs, by simpa using hc, Option.some.inj h⟩

/-- A result of the loop is the result with more rounds as well. -/
theorem repeatUntil_mono {m : ℕ} (hnm : n ≤ m) (h : repeatUntil body n s = some r) :
    repeatUntil body m s = some r := by
  induction n generalizing s m with
  | zero => cases h
  | succ n ih =>
    obtain ⟨m, rfl⟩ : ∃ k, m = k + 1 := ⟨m - 1, by omega⟩
    unfold repeatUntil at h ⊢
    split at h
    · rename_i hc
      rw [if_pos hc]
      exact ih (by omega) h
    · rename_i hc
      rw [if_neg hc]
      exact h

/-- **Enough rounds reach the end** when every round with a change lowers a measure. -/
theorem repeatUntil_terminates {I : S → Prop} (hI : ∀ s, I s → I (body s).1) (μ : S → ℕ)
    (hμ : ∀ s, I s → (body s).2 = true → μ (body s).1 < μ s) (hs : I s) (hn : μ s < n) :
    ∃ r, repeatUntil body n s = some r := by
  induction n generalizing s with
  | zero => omega
  | succ n ih =>
    unfold repeatUntil
    split
    · rename_i hc
      exact ih (hI s hs) (by have := hμ s hs hc; omega)
    · exact ⟨_, rfl⟩

end

/-- A fold that ends with its flag down has changed nothing at any step. -/
theorem foldl_unchanged {step : S → α → S} {flag : S → Bool}
    (hstep : ∀ s a, flag (step s a) = false → step s a = s) {l : List α} {s : S}
    (h : flag (l.foldl step s) = false) : l.foldl step s = s ∧ ∀ a ∈ l, step s a = s := by
  induction l generalizing s with
  | nil => exact ⟨rfl, by simp⟩
  | cons a l ih =>
    obtain ⟨hfold, hl⟩ := ih (s := step s a) h
    rw [List.foldl_cons, hfold] at h
    have ha : step s a = s := hstep s a h
    rw [ha] at hfold hl
    refine ⟨by rw [List.foldl_cons, ha, hfold], fun b hb ↦ ?_⟩
    rcases List.mem_cons.1 hb with rfl | hb
    · exact ha
    · exact hl b hb

end CoilLang
