import Mathlib.Data.List.Basic
import Mathlib.Order.ConditionallyCompleteLattice.Basic
import Mathlib.Order.Lattice.Nat

/-!
# Walks from the roots of a graph and dominance

`Walk root E b h` says that `h` lists the nodes of a walk from a root to `b`, **latest first**, so
that the list is also the history of a run that has just come to `b`. A node `d` **dominates** `b`
when every walk to `b` goes through `d`; more roots or more edges leave less dominance.

Two facts about strict dominance carry the use of dominance in a rewriting pass:

* `Dominates.notMem_since`: if `a` strictly dominates `b` and `b` dominates `x`, no walk to `x`
  comes back to `a` after its last visit of `b`; what `b` copied from `a` is still there at `x`.
* `Dominates.depth_lt`: a strict dominator of a reachable node is strictly nearer to the roots, so
  strict dominance has no cycles.
-/

namespace CoilLang

variable {α : Type*}

/-- `h` lists the nodes of a walk from a root to `b`, latest first. -/
inductive Walk (root : α → Prop) (E : α → α → Prop) : α → List α → Prop
  | start {a : α} (ha : root a) : Walk root E a [a]
  | step {a b : α} {h : List α} (hw : Walk root E a h) (he : E a b) : Walk root E b (b :: h)

/-- Every walk from a root to `b` goes through `d`. -/
def Dominates (root : α → Prop) (E : α → α → Prop) (d b : α) : Prop :=
  ∀ h, Walk root E b h → d ∈ h

/-- The least number of nodes on a walk to `b`. -/
noncomputable def depth (root : α → Prop) (E : α → α → Prop) (b : α) : ℕ :=
  sInf {n | ∃ h, Walk root E b h ∧ h.length = n}

variable {root root' : α → Prop} {E E' : α → α → Prop} {a b c d x : α} {h h₁ h₂ : List α}

namespace Walk

theorem mono (hr : ∀ a, root a → root' a) (hE : ∀ a b, E a b → E' a b) (hw : Walk root E b h) :
    Walk root' E' b h := by
  induction hw with
  | start ha => exact .start (hr _ ha)
  | step _ he ih => exact .step ih (hE _ _ he)

theorem eq_cons (hw : Walk root E b h) : ∃ t, h = b :: t := by
  cases hw with
  | start => exact ⟨[], rfl⟩
  | step hw _ => exact ⟨_, rfl⟩

theorem mem_self (hw : Walk root E b h) : b ∈ h := by
  obtain ⟨t, rfl⟩ := hw.eq_cons
  exact List.mem_cons_self

theorem cons_cases (hw : Walk root E b (c :: h)) :
    (h = [] ∧ root b) ∨ ∃ a, Walk root E a h ∧ E a b := by
  generalize hl : c :: h = l at hw
  cases hw with
  | start ha => exact .inl ⟨by simp_all, ha⟩
  | step hw he =>
    obtain ⟨rfl, rfl⟩ := List.cons.inj hl
    exact .inr ⟨_, hw, he⟩

/-- A walk up to an earlier visit. -/
theorem of_append (hw : Walk root E b (h₁ ++ a :: h₂)) : Walk root E a (a :: h₂) := by
  induction h₁ generalizing b with
  | nil =>
    obtain ⟨t, ht⟩ := hw.eq_cons
    obtain ⟨rfl, -⟩ : a = b ∧ h₂ = t := by simpa using ht
    exact hw
  | cons c h₁ ih =>
    rcases hw.cons_cases with ⟨hnil, -⟩ | ⟨p, hw', -⟩
    · simp at hnil
    · exact ih hw'

/-- The way up to a visited node may be exchanged for another walk there. -/
theorem splice {q : List α} (hw : Walk root E b (h₁ ++ a :: h₂)) (hq : Walk root E a (a :: q)) :
    Walk root E b (h₁ ++ a :: q) := by
  induction h₁ generalizing b with
  | nil =>
    obtain ⟨t, ht⟩ := hw.eq_cons
    obtain ⟨rfl, -⟩ : a = b ∧ h₂ = t := by simpa using ht
    exact hq
  | cons c h₁ ih =>
    obtain ⟨t, ht⟩ := hw.eq_cons
    obtain ⟨rfl, -⟩ := List.cons.inj ht
    rcases hw.cons_cases with ⟨hnil, -⟩ | ⟨p, hw', he⟩
    · simp at hnil
    · exact .step (ih hw') he

/-- A walk of a graph whose steps are ways of another one through nodes in `skip`. -/
theorem lift {skip : α → Prop}
    (hroot : ∀ a, root' a → ∃ h, Walk root E a h ∧ ∀ x ∈ h, x = a ∨ skip x)
    (hedge : ∀ a b, E' a b → E a b ∨ ∃ s, skip s ∧ E a s ∧ E s b) (hw : Walk root' E' b h) :
    ∃ h', Walk root E b h' ∧ ∀ x ∈ h', x ∈ h ∨ skip x := by
  induction hw with
  | start ha =>
    obtain ⟨h', hw', hh'⟩ := hroot _ ha
    exact ⟨h', hw', fun x hx ↦ (hh' x hx).imp_left List.mem_singleton.2⟩
  | step _ he ih =>
    obtain ⟨h', hw', hh'⟩ := ih
    rcases hedge _ _ he with he | ⟨s, hs, has, hsb⟩
    · refine ⟨_, hw'.step he, List.forall_mem_cons.2 ⟨.inl List.mem_cons_self, fun x hx ↦ ?_⟩⟩
      exact (hh' x hx).imp_left (List.mem_cons_of_mem _)
    · refine ⟨_, (hw'.step has).step hsb,
        List.forall_mem_cons.2 ⟨.inl List.mem_cons_self, List.forall_mem_cons.2 ⟨.inr hs, fun x hx ↦ ?_⟩⟩⟩
      exact (hh' x hx).imp_left (List.mem_cons_of_mem _)

theorem depth_le (hw : Walk root E b h) : depth root E b ≤ h.length :=
  Nat.sInf_le ⟨h, hw, rfl⟩

theorem exists_length_eq_depth (hw : Walk root E b h) :
    ∃ h', Walk root E b h' ∧ h'.length = depth root E b :=
  Nat.sInf_mem (s := {n | ∃ h, Walk root E b h ∧ h.length = n}) ⟨_, h, hw, rfl⟩

end Walk

/-- The first visit of a node in a list that has one. -/
theorem exists_first_visit (hb : b ∈ h) : ∃ u v, h = u ++ b :: v ∧ b ∉ v := by
  induction h with
  | nil => cases hb
  | cons c t ih =>
    by_cases ht : b ∈ t
    · obtain ⟨u, v, rfl, hv⟩ := ih ht
      exact ⟨c :: u, v, rfl, hv⟩
    · obtain rfl : b = c := by simpa [ht] using hb
      exact ⟨[], t, rfl, ht⟩

namespace Dominates

theorem refl (b : α) : Dominates root E b b := fun _ hw ↦ hw.mem_self

theorem mono (hd : Dominates root' E' d b) (hr : ∀ a, root a → root' a)
    (hE : ∀ a b, E a b → E' a b) : Dominates root E d b :=
  fun h hw ↦ hd h (hw.mono hr hE)

theorem trans (h : Dominates root E c d) (h' : Dominates root E d b) : Dominates root E c b := by
  intro l hw
  obtain ⟨u, v, rfl⟩ := List.append_of_mem (h' l hw)
  exact List.mem_append_right u (h _ hw.of_append)

/-- Every walk starts at a root. -/
theorem of_root (r b : α) : Dominates (· = r) E r b := by
  intro h hw
  induction hw with
  | start hs => exact hs ▸ List.mem_singleton_self _
  | step _ _ ih => exact List.mem_cons_of_mem _ ih

/-- A strict dominator dominates every predecessor. -/
theorem pred (hd : Dominates root E d b) (hne : d ≠ b) (he : E a b) : Dominates root E d a :=
  fun _ hw ↦ (List.mem_cons.1 (hd _ (hw.step he))).resolve_left hne

/-- A dominator of the only predecessor dominates. -/
theorem of_unique_pred (hd : Dominates root E d a) (hroot : ¬ root b)
    (hpred : ∀ p, E p b → p = a) : Dominates root E d b := by
  intro h hw
  cases hw with
  | start ha => exact absurd ha hroot
  | step hw' he =>
    obtain rfl := hpred _ he
    exact List.mem_cons_of_mem _ (hd _ hw')

/-- Dominance by a node that is not skipped stays when walks are shortened. -/
theorem of_lift {skip : α → Prop} (hd : Dominates root E d b) (hskip : ¬skip d)
    (hroot : ∀ a, root' a → ∃ h, Walk root E a h ∧ ∀ x ∈ h, x = a ∨ skip x)
    (hedge : ∀ a b, E' a b → E a b ∨ ∃ s, skip s ∧ E a s ∧ E s b) : Dominates root' E' d b := by
  intro h hw
  obtain ⟨h', hw', hh'⟩ := hw.lift hroot hedge
  exact (hh' d (hd h' hw')).resolve_right hskip

/-- **What `b` took from a strict dominator `a` is not overtaken** on the way to a node that `b`
dominates: the walk does not come back to `a` after its last visit of `b`. -/
theorem notMem_since (hab : Dominates root E a b) (hne : a ≠ b) (hbx : Dominates root E b x)
    (hw : Walk root E x (h₁ ++ b :: h₂)) (hb : b ∉ h₁) : a ∉ h₁ := by
  intro ha
  obtain ⟨u, v, rfl⟩ := List.append_of_mem ha
  -- the first visit of `b` on this walk comes after a visit of `a` that avoids `b`
  obtain ⟨s, r, hsr, hr⟩ := exists_first_visit (h := b :: h₂) List.mem_cons_self
  have hwb : Walk root E b (b :: r) := by
    have hb₂ := hw.of_append
    rw [hsr] at hb₂
    exact hb₂.of_append
  have har : a ∈ r := by simpa [hne] using hab _ hwb
  obtain ⟨p, q, rfl⟩ := List.append_of_mem har
  have hwa : Walk root E a (a :: q) := by
    rw [← List.cons_append] at hwb
    exact hwb.of_append
  -- so `x` is reached through that visit without `b` at all
  have hx : Walk root E x (u ++ a :: q) := by
    rw [List.append_assoc, List.cons_append] at hw
    exact hw.splice hwa
  have hmem := hbx _ hx
  simp only [List.mem_append, List.mem_cons, not_or] at hmem hb hr
  rcases hmem with hmem | hmem | hmem
  · exact hb.1 hmem
  · exact hne hmem.symm
  · exact hr.2.2 hmem

theorem depth_lt (hab : Dominates root E a b) (hne : a ≠ b) (hw : Walk root E b h) :
    depth root E a < depth root E b := by
  obtain ⟨l, hl, hlen⟩ := hw.exists_length_eq_depth
  obtain ⟨t, rfl⟩ := hl.eq_cons
  have ha : a ∈ t := by simpa [hne] using hab _ hl
  obtain ⟨u, v, rfl⟩ := List.append_of_mem ha
  rw [← List.cons_append] at hl hlen
  have hle := hl.of_append.depth_le
  simp only [List.length_append, List.length_cons] at hlen hle
  omega

/-- Strict dominance goes one way. -/
theorem not_symm (hab : Dominates root E a b) (hne : a ≠ b) (hw : Walk root E b h) :
    ¬Dominates root E b a := by
  intro hba
  obtain ⟨u, t, rfl⟩ := List.append_of_mem (hab h hw)
  exact Nat.lt_asymm (hab.depth_lt hne hw) (hba.depth_lt hne.symm hw.of_append)

end Dominates

end CoilLang
