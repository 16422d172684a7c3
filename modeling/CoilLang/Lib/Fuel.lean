import Mathlib.Data.List.Induction
import Mathlib.Order.Filter.AtTopBot.Basic

/-!
# Recursion with fuel that returns

A recursion that is not structural is modelled by a function of a fuel, `none` when the fuel runs
out. `Returns f v` says that **all fuels from some on give `v`**: the recursion comes back, with `v`.
Facts about several calls are put together as facts that hold for almost all fuels, so no bound on
the fuel has to be computed; `exists_returns_anyM` and `exists_returns_foldlM` are the rules for loops over
lists whose body is such a call.
-/

namespace CoilLang

open Filter

variable {α β : Type*}

/-- From some fuel on, the result is `v`. -/
def Returns (f : ℕ → Option α) (v : α) : Prop := ∀ᶠ n in atTop, f n = some v

namespace Returns

variable {f : ℕ → Option α} {v : α}

theorem of_forall (h : ∀ n, f n = some v) : Returns f v := Eventually.of_forall h

/-- One more fuel than almost all is almost all. -/
theorem of_succ (h : Returns (fun n ↦ f (n + 1)) v) : Returns f v := by
  obtain ⟨N, hN⟩ := eventually_atTop.1 h
  refine eventually_atTop.2 ⟨N + 1, fun n hn ↦ ?_⟩
  obtain ⟨m, rfl⟩ : ∃ m, n = m + 1 := ⟨n - 1, by omega⟩
  exact hN m (by omega)

end Returns

/-- A search whose test returns on every element returns, with `true` only for a reason. -/
theorem exists_returns_anyM {f : ℕ → α → Option Bool} {P : α → Prop} (l : List α)
    (h : ∀ x ∈ l, ∃ b, Returns (fun n ↦ f n x) b ∧ (b = true → P x)) :
    ∃ b, Returns (fun n ↦ l.anyM (f n)) b ∧ (b = true → ∃ x ∈ l, P x) := by
  induction l with
  | nil => exact ⟨false, .of_forall fun n ↦ rfl, by simp⟩
  | cons x l ih =>
    obtain ⟨b, hb, hP⟩ := h x List.mem_cons_self
    obtain ⟨c, hc, hQ⟩ := ih fun y hy ↦ h y (List.mem_cons_of_mem _ hy)
    cases b with
    | true =>
      refine ⟨true, ?_, fun _ ↦ ⟨x, List.mem_cons_self, hP rfl⟩⟩
      filter_upwards [hb] with n hn
      simp [hn]
    | false =>
      refine ⟨c, ?_, fun hct ↦ ?_⟩
      · filter_upwards [hb, hc] with n h1 h2
        simp [h1, h2]
      · obtain ⟨y, hy, hPy⟩ := hQ hct
        exact ⟨y, List.mem_cons_of_mem _ hy, hPy⟩

/-- A loop over a list returns when each round does from what the rounds before it have built. -/
theorem exists_returns_foldlM {f : ℕ → β → α → Option β} {I : List α → β → Prop} {b : β}
    (l : List α) (h0 : I [] b)
    (h : ∀ pre x post, l = pre ++ x :: post → ∀ c, I pre c →
      ∃ b', Returns (fun n ↦ f n c x) b' ∧ I (pre ++ [x]) b') :
    ∃ r, Returns (fun n ↦ l.foldlM (f n) b) r ∧ I l r := by
  induction l using List.reverseRecOn with
  | nil => exact ⟨b, .of_forall fun n ↦ rfl, h0⟩
  | append_singleton l x ih =>
    obtain ⟨b, hb, hI⟩ := ih fun pre y post hl ↦ h pre y (post ++ [x]) (by simp [hl])
    obtain ⟨r, hr, hI'⟩ := h l x [] rfl b hI
    refine ⟨r, ?_, hI'⟩
    filter_upwards [hb, hr] with n h1 h2
    simp [List.foldlM_append, h1, h2]

end CoilLang
