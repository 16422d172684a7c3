import Mathlib.Data.List.Infix

/-!
# Deterministic machines and simulations between them

A **machine** steps from state to state until it ends with a result; each state carries the
trace emitted so far, and a step only extends it. Two machines have the **same runs** from two
states when they end with the same results and emit the same prefixes of traces, so that runs
that never end are compared as well.

The one proof rule is `PlusSim.sameRuns`: it is enough to match every step of the *target* by
one or more steps of the *source*. Since both are deterministic, a target that runs forever
then forces its source to run forever, and no measure is needed. Results that count as **stuck**
are never matched: the rule assumes that the source does not get stuck, and concludes the same of
the target, so that passes compose.
-/

namespace CoilLang

universe u v w x

/-- A deterministic machine with states `S`, results `R` and trace entries `E`. -/
structure Machine (S : Type u) (R : Type v) (E : Type w) where
  step : S → S ⊕ R
  trace : S → List E
  endTrace : R → List E
  stuck : R → Prop
  next_mono : ∀ {s s'}, step s = .inl s' → trace s <+: trace s'
  end_mono : ∀ {s r}, step s = .inr r → trace s <+: endTrace r

namespace Machine

variable {S : Type u} {R : Type v} {E : Type w} {T : Type x}

/-- `n` steps from `s`, if the machine does not end before. -/
def stepN (A : Machine S R E) : ℕ → S → Option S
  | 0, s => some s
  | n + 1, s =>
    match A.step s with
    | .inl s' => A.stepN n s'
    | .inr _ => none

/-- What has been emitted after the step from `s`. -/
def out (A : Machine S R E) (s : S) : List E :=
  match A.step s with
  | .inl s' => A.trace s'
  | .inr r => A.endTrace r

/-- The run from `s` ends with `r`. -/
def Ends (A : Machine S R E) (s : S) (r : R) : Prop :=
  ∃ n s', A.stepN n s = some s' ∧ A.step s' = .inr r

/-- The run from `s` emits the entries `t`, in this order and before any other. -/
def Emits (A : Machine S R E) (s : S) (t : List E) : Prop :=
  ∃ n s', A.stepN n s = some s' ∧ t <+: A.out s'

/-- The run from `s` does not end stuck. -/
def Safe (A : Machine S R E) (s : S) : Prop :=
  ∀ r, A.Ends s r → ¬ A.stuck r

variable {A : Machine S R E} {s s' s'' : S} {r r' : R} {m n : ℕ}

@[simp] theorem stepN_zero : A.stepN 0 s = some s := rfl

theorem stepN_succ_of_next (h : A.step s = .inl s') : A.stepN (n + 1) s = A.stepN n s' := by
  simp only [stepN, h]

theorem stepN_succ_of_end (h : A.step s = .inr r) : A.stepN (n + 1) s = none := by
  simp only [stepN, h]

theorem stepN_one (h : A.step s = .inl s') : A.stepN 1 s = some s' :=
  stepN_succ_of_next h

theorem stepN_add : A.stepN (m + n) s = (A.stepN m s).bind (A.stepN n) := by
  induction m generalizing s with
  | zero => simp
  | succ m ih =>
    rw [Nat.add_right_comm]
    cases h : A.step s with
    | inl s' => rw [stepN_succ_of_next h, stepN_succ_of_next h, ih]
    | inr r => rw [stepN_succ_of_end h, stepN_succ_of_end h]; rfl

theorem stepN_add_of_eq (h : A.stepN m s = some s') : A.stepN (m + n) s = A.stepN n s' := by
  rw [stepN_add, h]; rfl

theorem out_of_next (h : A.step s = .inl s') : A.out s = A.trace s' := by
  simp only [out, h]

theorem out_of_end (h : A.step s = .inr r) : A.out s = A.endTrace r := by
  simp only [out, h]

theorem trace_prefix_out : A.trace s <+: A.out s := by
  cases h : A.step s with
  | inl s' => rw [out_of_next h]; exact A.next_mono h
  | inr r => rw [out_of_end h]; exact A.end_mono h

theorem trace_prefix_of_stepN (h : A.stepN n s = some s') : A.trace s <+: A.trace s' := by
  induction n generalizing s with
  | zero =>
    obtain rfl : s = s' := by simpa using h
    exact List.prefix_refl _
  | succ n ih =>
    cases hs : A.step s with
    | inl t => exact (A.next_mono hs).trans (ih (by rw [← stepN_succ_of_next hs, h]))
    | inr r => rw [stepN_succ_of_end hs] at h; cases h

/-- What is emitted at a step is emitted before every later state. -/
theorem out_prefix_of_stepN_succ (h : A.stepN (n + 1) s = some s') : A.out s <+: A.trace s' := by
  cases hs : A.step s with
  | inl t =>
    rw [out_of_next hs]
    exact trace_prefix_of_stepN (by rw [← stepN_succ_of_next hs, h])
  | inr r => rw [stepN_succ_of_end hs] at h; cases h

theorem out_prefix_of_stepN (h : A.stepN n s = some s') : A.out s <+: A.out s' := by
  cases n with
  | zero =>
    obtain rfl : s = s' := by simpa using h
    exact List.prefix_refl _
  | succ n => exact (out_prefix_of_stepN_succ h).trans trace_prefix_out

/-- No step is taken from an end. -/
theorem le_of_stepN_of_end (h : A.stepN n s = some s') (he : A.step s' = .inr r)
    (hm : A.stepN m s = some s'') : m ≤ n := by
  by_contra hlt
  obtain ⟨k, rfl⟩ : ∃ k, m = n + (k + 1) := ⟨m - n - 1, by omega⟩
  rw [stepN_add_of_eq h, stepN_succ_of_end he] at hm
  cases hm

theorem Ends.unique (h : A.Ends s r) (h' : A.Ends s r') : r = r' := by
  obtain ⟨n, t, hn, hr⟩ := h
  obtain ⟨m, t', hm, hr'⟩ := h'
  obtain rfl : n = m := le_antisymm (le_of_stepN_of_end hm hr' hn) (le_of_stepN_of_end hn hr hm)
  obtain rfl : t = t' := Option.some.inj (hn.symm.trans hm)
  exact Sum.inr.inj (hr.symm.trans hr')

theorem Ends.of_stepN (h : A.stepN n s = some s') (he : A.Ends s' r) : A.Ends s r := by
  obtain ⟨m, t, hm, hr⟩ := he
  exact ⟨n + m, t, by rw [stepN_add_of_eq h, hm], hr⟩

theorem Ends.of_step (h : A.step s = .inr r) : A.Ends s r := ⟨0, s, rfl, h⟩

theorem Emits.of_stepN {t : List E} (h : A.stepN n s = some s') (he : A.Emits s' t) :
    A.Emits s t := by
  obtain ⟨m, u, hm, ht⟩ := he
  exact ⟨n + m, u, by rw [stepN_add_of_eq h, hm], ht⟩

theorem Safe.of_stepN (h : A.Safe s) (hn : A.stepN n s = some s') : A.Safe s' :=
  fun r hr ↦ h r (hr.of_stepN hn)

theorem Safe.step_not_stuck (h : A.Safe s) (hs : A.step s = .inr r) : ¬ A.stuck r :=
  h r (.of_step hs)

/-- An invariant of the steps that excludes being stuck is safe. -/
theorem safe_of_invariant {P : S → Prop} (hnext : ∀ s s', P s → A.step s = .inl s' → P s')
    (hend : ∀ s r, P s → A.step s = .inr r → ¬ A.stuck r) (h : P s) : A.Safe s := by
  rintro r ⟨n, t, hn, hr⟩
  induction n generalizing s with
  | zero =>
    obtain rfl : s = t := by simpa using hn
    exact hend s r h hr
  | succ n ih =>
    cases hs : A.step s with
    | inl s' => exact ih (hnext s s' h hs) (by rw [← stepN_succ_of_next hs, hn])
    | inr r => rw [stepN_succ_of_end hs] at hn; cases hn

/-- Two machines run alike from two states: they end with the same results and emit the same
entries in the same order. -/
structure SameRuns (A : Machine S R E) (B : Machine T R E) (s : S) (t : T) : Prop where
  ends : ∀ r, A.Ends s r ↔ B.Ends t r
  emits : ∀ l, A.Emits s l ↔ B.Emits t l

theorem SameRuns.refl (A : Machine S R E) (s : S) : SameRuns A A s s :=
  ⟨fun _ ↦ Iff.rfl, fun _ ↦ Iff.rfl⟩

theorem SameRuns.trans {U : Type*} {B : Machine T R E} {C : Machine U R E} {t : T} {u : U}
    (h : SameRuns A B s t) (h' : SameRuns B C t u) : SameRuns A C s u :=
  ⟨fun r ↦ (h.ends r).trans (h'.ends r), fun l ↦ (h.emits l).trans (h'.emits l)⟩

/-- Machines that make the same steps on the way of one of them have the same runs. -/
theorem SameRuns.of_step_eq {B : Machine S R E} (htrace : A.trace = B.trace)
    (hend : A.endTrace = B.endTrace) (h : ∀ n s', A.stepN n s = some s' → B.step s' = A.step s') :
    SameRuns A B s s := by
  have hN : ∀ n, B.stepN n s = A.stepN n s := by
    intro n
    induction n with
    | zero => rfl
    | succ n ih =>
      rw [stepN_add, stepN_add, ih]
      cases hn : A.stepN n s with
      | none => rfl
      | some t => simp only [Option.bind_some, stepN, h n t hn]
  have hout : ∀ n t, A.stepN n s = some t → B.out t = A.out t := fun n t ht ↦ by
    simp only [out, h n t ht, htrace, hend]
  constructor
  · intro r
    refine exists_congr fun n ↦ exists_congr fun t ↦ ?_
    rw [hN]
    exact and_congr_right fun hn ↦ by rw [h n t hn]
  · intro l
    refine exists_congr fun n ↦ exists_congr fun t ↦ ?_
    rw [hN]
    exact and_congr_right fun hn ↦ by rw [hout n t hn]

/-- `Rel` is a simulation of the target `B` by the source `A`: every step of the target is one or
more steps of the source. -/
structure PlusSim (A : Machine S R E) (B : Machine T R E) (Rel : S → T → Prop) : Prop where
  stuck : ∀ r, B.stuck r → A.stuck r
  endTrace : ∀ r, A.endTrace r = B.endTrace r
  trace : ∀ {s t}, Rel s t → A.trace s = B.trace t
  next : ∀ {s t t'}, Rel s t → A.Safe s → B.step t = .inl t' →
    ∃ n s', A.stepN (n + 1) s = some s' ∧ Rel s' t'
  done : ∀ {s t r}, Rel s t → A.Safe s → B.step t = .inr r → A.Ends s r

namespace PlusSim

variable {B : Machine T R E} {Rel : S → T → Prop} {t : T}

theorem ends_of_target (h : PlusSim A B Rel) (hR : Rel s t) (hs : A.Safe s) (ht : B.Ends t r) :
    A.Ends s r := by
  obtain ⟨n, t₁, hn, hr⟩ := ht
  induction n generalizing s t with
  | zero =>
    obtain rfl : t = t₁ := by simpa using hn
    exact h.done hR hs hr
  | succ n ih =>
    cases htn : B.step t with
    | inl t' =>
      obtain ⟨k, s', hk, hR'⟩ := h.next hR hs htn
      exact (ih hR' (hs.of_stepN hk) (by rw [← stepN_succ_of_next htn, hn])).of_stepN hk
    | inr r => rw [stepN_succ_of_end htn] at hn; cases hn

theorem ends_of_source (h : PlusSim A B Rel) (hR : Rel s t) (hs : A.Safe s) (hsr : A.Ends s r) :
    B.Ends t r := by
  obtain ⟨n, s₁, hn, hr⟩ := hsr
  -- on the number of steps the source still makes: each target step uses up at least one
  induction n using Nat.strong_induction_on generalizing s t with
  | _ n ih =>
    cases htn : B.step t with
    | inr r' =>
      obtain rfl : r = r' := Ends.unique ⟨n, s₁, hn, hr⟩ (h.done hR hs htn)
      exact .of_step htn
    | inl t' =>
      obtain ⟨k, s', hk, hR'⟩ := h.next hR hs htn
      have hle : k + 1 ≤ n := le_of_stepN_of_end hn hr hk
      have hn' : A.stepN (n - (k + 1)) s' = some s₁ := by
        rw [← stepN_add_of_eq hk, show k + 1 + (n - (k + 1)) = n by omega, hn]
      exact (ih _ (by omega) hR' (hs.of_stepN hk) hn').of_stepN (stepN_one htn)

theorem emits_of_target (h : PlusSim A B Rel) (hR : Rel s t) (hs : A.Safe s) {l : List E}
    (ht : B.Emits t l) : A.Emits s l := by
  obtain ⟨n, t₁, hn, hl⟩ := ht
  induction n generalizing s t with
  | zero =>
    obtain rfl : t = t₁ := by simpa using hn
    cases htn : B.step t with
    | inl t' =>
      obtain ⟨k, s', hk, hR'⟩ := h.next hR hs htn
      rw [out_of_next htn, ← h.trace hR'] at hl
      exact ⟨k + 1, s', hk, hl.trans trace_prefix_out⟩
    | inr r =>
      obtain ⟨k, s', hk, hr⟩ := h.done hR hs htn
      rw [out_of_end htn, ← h.endTrace] at hl
      exact ⟨k, s', hk, by rwa [out_of_end hr]⟩
  | succ n ih =>
    cases htn : B.step t with
    | inl t' =>
      obtain ⟨k, s', hk, hR'⟩ := h.next hR hs htn
      exact (ih hR' (hs.of_stepN hk) (by rw [← stepN_succ_of_next htn, hn])).of_stepN hk
    | inr r => rw [stepN_succ_of_end htn] at hn; cases hn

theorem emits_of_source (h : PlusSim A B Rel) (hR : Rel s t) (hs : A.Safe s) {l : List E}
    (hsl : A.Emits s l) : B.Emits t l := by
  obtain ⟨n, s₁, hn, hl⟩ := hsl
  induction n using Nat.strong_induction_on generalizing s t with
  | _ n ih =>
    cases htn : B.step t with
    | inr r =>
      -- the source is on its way to the same end, so what it emits is in the final trace
      obtain ⟨k, s', hk, hr⟩ := h.done hR hs htn
      have hle : n ≤ k := le_of_stepN_of_end hk hr hn
      have hk' : A.stepN (k - n) s₁ = some s' := by
        rw [← stepN_add_of_eq hn, show n + (k - n) = k by omega, hk]
      refine ⟨0, t, rfl, hl.trans ?_⟩
      rw [out_of_end htn, ← h.endTrace, ← out_of_end hr]
      exact out_prefix_of_stepN hk'
    | inl t' =>
      obtain ⟨k, s', hk, hR'⟩ := h.next hR hs htn
      rcases Nat.lt_or_ge n (k + 1) with hlt | hge
      · have hk' : A.stepN (k - n + 1) s₁ = some s' := by
          rw [← stepN_add_of_eq hn, show n + (k - n + 1) = k + 1 by omega, hk]
        refine ⟨0, t, rfl, hl.trans ?_⟩
        rw [out_of_next htn, ← h.trace hR']
        exact out_prefix_of_stepN_succ hk'
      · have hn' : A.stepN (n - (k + 1)) s' = some s₁ := by
          rw [← stepN_add_of_eq hk, show k + 1 + (n - (k + 1)) = n by omega, hn]
        exact (ih _ (by omega) hR' (hs.of_stepN hk) hn').of_stepN (stepN_one htn)

/-- **A simulation of the target by the source gives the same runs**, from a source state that
does not get stuck. -/
theorem sameRuns (h : PlusSim A B Rel) (hR : Rel s t) (hs : A.Safe s) : SameRuns A B s t where
  ends _ := ⟨h.ends_of_source hR hs, h.ends_of_target hR hs⟩
  emits _ := ⟨h.emits_of_source hR hs, h.emits_of_target hR hs⟩

theorem safe (h : PlusSim A B Rel) (hR : Rel s t) (hs : A.Safe s) : B.Safe t :=
  fun r hr hst ↦ hs r (h.ends_of_target hR hs hr) (h.stuck r hst)

end PlusSim

end Machine

end CoilLang
