import CoilLang.Common.VerifySpec
import Mathlib.Logic.Relation
import Mathlib.Order.Bounds.Basic

/-!
# The frames of a code

Two words are of one frame when fall-through and jumps connect them, in either direction (`Connected`).
`frameRoots` gives each word the **lowest** word of its frame (`frameRoots_isLeast`), and fails only at a
branch whose target cannot be decoded (`frameRoots_eq_none_iff`).
-/

namespace CoilLang.Verify

open UnionFind (Descends Same Rep)

/-- Control goes from word `p` to word `q` of the code. -/
def Edge (steps : List Step) (p q : ℕ) : Prop :=
  q < steps.length ∧ ∃ s, steps[p]? = some s ∧ ((s.falls = true ∧ q = p + 1) ∨ s.jump = .to q)

/-- Words connected by fall-through and jumps. -/
def Connected (steps : List Step) : ℕ → ℕ → Prop := Relation.EqvGen (Edge steps)

variable {steps : List Step} {R : ℕ → ℕ → Prop} {n : ℕ}

/-- Linking a word joins nothing but what it falls and jumps to. -/
theorem link_exact (hR : Equivalence R) {pc : ℕ} {s : Step} {p q : List ℕ} (hp : Descends p)
    (hn : p.length = n) (hpc : pc < n) (h : link n pc s p = some q) (hpR : ∀ x y, Same p x y → R x y)
    (hfall : s.falls = true → pc + 1 < n → R pc (pc + 1))
    (hjump : ∀ t, s.jump = .to t → t < n → R pc t) : ∀ x y, Same q x y → R x y := by
  -- after the fall-through
  obtain ⟨p₁, hp₁, hd₁, hl₁, hR₁⟩ : ∃ p₁,
      (if s.falls && pc + 1 < n then UnionFind.union p pc (pc + 1) else p) = p₁ ∧ Descends p₁ ∧
        p₁.length = n ∧ ∀ x y, Same p₁ x y → R x y := by
    refine ⟨_, rfl, ?_⟩
    split
    · rename_i hc
      rw [Bool.and_eq_true, decide_eq_true_eq] at hc
      obtain ⟨h₁, h₂, -, -⟩ := UnionFind.union_spec hp (a := pc) (b := pc + 1) (by omega) (by omega)
      exact ⟨h₁, h₂.trans hn, fun x y ↦
        UnionFind.union_exact hR hp hpR (by omega) (by omega) (hfall hc.1 hc.2)⟩
    · exact ⟨hp, hn, hpR⟩
  rw [link] at h
  simp only [hp₁] at h
  cases hj : s.jump with
  | none =>
    rw [hj] at h
    cases h
    exact hR₁
  | unknown =>
    rw [hj] at h
    cases h
  | «to» t =>
    rw [hj] at h
    by_cases ht : t < n
    · simp only [if_pos ht, Option.some.injEq] at h
      subst h
      exact fun x y ↦ UnionFind.union_exact hR hd₁ hR₁ (by omega) (by omega) (hjump t hj ht)
    · simp only [if_neg ht, Option.some.injEq] at h
      subst h
      exact hR₁

theorem linkAll_exact (hR : Equivalence R) {rest : List Step} {pc : ℕ} {p q : List ℕ} (hp : Descends p)
    (hn : p.length = n) (hpc : pc + rest.length = n) (h : linkAll n pc rest p = some q)
    (hpR : ∀ x y, Same p x y → R x y)
    (hrest : ∀ i s, rest[i]? = some s → (s.falls = true → pc + i + 1 < n → R (pc + i) (pc + i + 1)) ∧
      ∀ t, s.jump = .to t → t < n → R (pc + i) t) : ∀ x y, Same q x y → R x y := by
  induction rest generalizing pc p with
  | nil =>
    cases h
    exact hpR
  | cons s rest ih =>
    rw [linkAll, Option.bind_eq_some_iff] at h
    obtain ⟨p₁, h₁, hlinks⟩ := h
    rw [List.length_cons] at hpc
    obtain ⟨hfall, hjump⟩ := hrest 0 s rfl
    obtain ⟨hd₁, hl₁, -⟩ := link_spec hp hn (by omega) h₁
    refine ih hd₁ hl₁ (by omega) hlinks (link_exact hR hp hn (by omega) h₁ hpR hfall hjump) ?_
    intro i s' hi
    have hs' := hrest (i + 1) s' (by simpa using hi)
    rwa [show pc + (i + 1) = pc + 1 + i by omega] at hs'

/-- Each word has the lowest word it is connected to as its root. -/
theorem roots_isLeast {rs : List ℕ} (h : roots steps = some rs) :
    rs.length = steps.length ∧ ∀ pc < steps.length,
      IsLeast {q | q < steps.length ∧ Connected steps pc q} (rootAt rs pc) := by
  rw [roots, Option.map_eq_some_iff] at h
  obtain ⟨p, hp, rfl⟩ := h
  have hrange := descends_range steps.length
  obtain ⟨hd, -, -, hlink⟩ := linkAll_spec hrange (by simp) (by simp) hp
  obtain ⟨-, -, hlen, hrep⟩ := UnionFind.allRoots_spec hd steps.length
  have hroot : ∀ pc < steps.length, Rep p pc (rootAt (UnionFind.allRoots p steps.length).2 pc) := by
    intro pc hpc
    rw [rootAt, List.getElem?_eq_getElem (by omega), Option.getD_some]
    exact hrep pc _ (List.getElem?_eq_getElem (by omega))
  -- at the start every number is on its own
  have hstart : ∀ x y, Same (List.range steps.length) x y → Connected steps x y := by
    intro x y hs
    have hself : ∀ w, Rep (List.range steps.length) w w := by
      intro w
      refine .self ?_
      rw [UnionFind.parentOf]
      by_cases hw : w < steps.length
      · simp [hw]
      · rw [List.getElem?_eq_none (by simpa using hw), Option.getD_none]
    obtain ⟨r, hx, hy⟩ := hs
    obtain rfl := hx.unique (hself x)
    obtain rfl := hy.unique (hself y)
    exact .refl _
  have hconn : ∀ x y, Same p x y → Connected steps x y := by
    refine linkAll_exact (Relation.EqvGen.is_equivalence _) hrange (by simp) (by simp) hp hstart ?_
    intro i s hi
    rw [Nat.zero_add]
    exact ⟨fun hf hlt ↦ .rel _ _ ⟨hlt, s, hi, Or.inl ⟨hf, rfl⟩⟩,
      fun t ht hlt ↦ .rel _ _ ⟨hlt, s, hi, Or.inr ht⟩⟩
  have hsame : ∀ x y, Connected steps x y → Same p x y := by
    intro x y hxy
    induction hxy with
    | rel x y hxy =>
      obtain ⟨hy, s, hs, hor⟩ := hxy
      have hs := hlink x s hs
      rw [Nat.zero_add] at hs
      rcases hor with ⟨hf, rfl⟩ | hj
      · exact hs.1 hf hy
      · exact hs.2 y hj hy
    | refl x =>
      obtain ⟨r, hr⟩ := UnionFind.exists_rep hd x
      exact ⟨r, hr, hr⟩
    | symm x y _ ih => exact ih.symm
    | trans x y z _ _ ihxy ihyz =>
      obtain ⟨r, hx, hy⟩ := ihxy
      obtain ⟨s, hy', hz⟩ := ihyz
      exact ⟨r, hx, hy.unique hy' ▸ hz⟩
  refine ⟨hlen, fun pc hpc ↦ ⟨⟨?_, ?_⟩, ?_⟩⟩
  · exact lt_of_le_of_lt ((hroot pc hpc).le hd) hpc
  · exact hconn _ _ ⟨_, hroot pc hpc, .self (hroot pc hpc).root⟩
  · rintro q ⟨-, hq⟩
    obtain ⟨r, h₁, h₂⟩ := hsame pc q hq
    rw [(hroot pc hpc).unique h₁]
    exact h₂.le hd

/-- Control does not leave a frame inside the code. -/
theorem rootAt_eq_of_edge {rs : List ℕ} (h : roots steps = some rs) {p q : ℕ} (hpq : Edge steps p q) :
    rootAt rs p = rootAt rs q := by
  obtain ⟨hq, s, hs, -⟩ := id hpq
  have hp := (List.getElem?_eq_some_iff.1 hs).1
  obtain ⟨-, hleast⟩ := roots_isLeast h
  have hpq : Connected steps p q := .rel _ _ hpq
  have hset : {x | x < steps.length ∧ Connected steps p x} =
      {x | x < steps.length ∧ Connected steps q x} :=
    Set.ext fun x ↦ and_congr_right fun _ ↦ ⟨.trans _ _ _ (.symm _ _ hpq), .trans _ _ _ hpq⟩
  exact (hleast p hp).unique (hset ▸ hleast q hq)

theorem roots_eq_none_iff : roots steps = none ↔ ∃ s ∈ steps, s.jump = .unknown := by
  have hall : ∀ (rest : List Step) (pc : ℕ) (p : List ℕ),
      linkAll steps.length pc rest p = none ↔ ∃ s ∈ rest, s.jump = .unknown := by
    intro rest
    induction rest with
    | nil => simp [linkAll]
    | cons s rest ih =>
      intro pc p
      cases hj : s.jump <;> simp [linkAll, link, hj, ih]
  rw [roots, Option.map_eq_none_iff, hall]

end CoilLang.Verify
