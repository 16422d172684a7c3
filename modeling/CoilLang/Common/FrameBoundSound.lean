import CoilLang.Common.FrameBound
import CoilLang.Common.FrameRoots
import CoilLang.Lib.WalkGain
import Mathlib.Data.Finset.Lattice.Fold
import Mathlib.Order.Lattice.Nat
import Mathlib.Tactic.IntervalCases

/-!
# The frame reserve bounds every frame

A frame is run from its entry with its arguments on the stack. Each word moves the cursor by at most what it
is counted with, or raises it to a slot it names (`CursorStep`). When **no cycle of pushes and pops gains**,
the cursor stays below the highest slot, or the arguments, and the pushes of all words of the frame
(`reach_le`): since the last raise it has gained no more than a walk without repetition does. The reserve is
at least that sum (`exists_frame`).

The arguments it includes are those of `CALL` and `TailCall`. A frame opened in another way, by `CallIndirect`
for one, may rise above its base by more than the reserve (`indirectCall_exceeds`); it stays within the
reserve **above the cursor it is entered with**, which is where the machine reserves for it.
-/

namespace CoilLang.FrameBound

open WalkGain
open Verify (rootAt frameRoots Connected)

/-! ### Runs of a frame -/

section Runs

variable (code : List Byte) (pool : List UInt64)

/-- What word `pc` of the code does. -/
def stepAt (pc : ℕ) : Option Step :=
  (code[pc]?).bind fun b ↦ step b pool (widestPayload code pool)

/-- Where control can go from a word at `pc`; a branch that cannot be decoded may go anywhere. -/
def Step.Leads (s : Step) (pc pc' : ℕ) : Prop :=
  (s.falls = true ∧ pc' = pc + 1) ∨ s.jump = .to pc' ∨ s.jump = .unknown

/-- What the words of a code do to the cursor when they push and pop: at most what they are counted with. -/
structure Moves where
  moves : ℕ → ℤ → ℕ → Prop
  sound : ∀ pc d pc', moves pc d pc' → ∃ s, stepAt code pool pc = some s ∧ s.Leads pc pc' ∧ d ≤ s.push

/-- The words of a frame run one by one. A state is a word and the height of the cursor above the base. -/
inductive CursorStep (M : Moves code pool) : ℕ × ℕ → ℕ × ℕ → Prop
  | move {pc pc' c c' : ℕ} {d : ℤ} :
    M.moves pc d pc' → (c' : ℤ) = c + d → c' ≤ u64Max → CursorStep M (pc, c) (pc', c')
  | raise {pc pc' c c' : ℕ} {s : Step} :
    stepAt code pool pc = some s → s.Leads pc pc' → c' ≤ s.slots → c' ≤ u64Max →
      CursorStep M (pc, c) (pc', c')

/-- A height of the cursor in a state, before its word runs or while it does. -/
def Reaches (state : ℕ × ℕ) (c : ℕ) : Prop :=
  c ≤ u64Max ∧ (c = state.2 ∨
    ∃ s, stepAt code pool state.1 = some s ∧ (c ≤ state.2 + s.push ∨ c ≤ s.slots))

/-- Words that control does not leave but for the end of the code. -/
def Closed (X : Finset ℕ) : Prop :=
  ∀ p ∈ X, ∀ s q, stepAt code pool p = some s → s.Leads p q → q ∈ X ∨ stepAt code pool q = none

def pushAt (pc : ℕ) : ℕ := (stepAt code pool pc).elim 0 Step.push

def slotsAt (pc : ℕ) : ℕ := (stepAt code pool pc).elim 0 Step.slots

end Runs

/-! ### A run stays below the pushes and slots of its words -/

section Reach

variable {code : List Byte} {pool : List UInt64} {X : Finset ℕ} {pc c : ℕ} {s : Step}

theorem mem_of_stepAt (hpc : pc ∈ X ∨ stepAt code pool pc = none) (hs : stepAt code pool pc = some s) :
    pc ∈ X :=
  hpc.resolve_right fun h ↦ by simp [h] at hs

theorem slots_le_sup (hpc : pc ∈ X) (hs : stepAt code pool pc = some s) :
    s.slots ≤ X.sup (slotsAt code pool) := by
  have h := Finset.le_sup (f := slotsAt code pool) hpc
  rwa [slotsAt, hs, Option.elim_some] at h

theorem Moves.le_pushAt (M : Moves code pool) (p : ℕ) (d : ℤ) (q : ℕ) (h : M.moves p d q) :
    d ≤ pushAt code pool p := by
  obtain ⟨s, hs, -, hd⟩ := M.sound p d q h
  rwa [pushAt, hs, Option.elim_some]

/-- Since the entry or the last raise, the cursor has moved along a walk of pushes and pops. -/
def Traced (M : Moves code pool) (X : Finset ℕ) (a : ℕ) (state : ℕ × ℕ) : Prop :=
  ∃ (pc₀ b : ℕ) (l : List ℕ) (d : ℤ), WalkGain.Walk M.moves pc₀ l d state.1 ∧ (state.2 : ℤ) = b + d ∧
    b ≤ max a (X.sup (slotsAt code pool)) ∧ (∀ x ∈ l, x ∈ X) ∧
      (state.1 ∈ X ∨ stepAt code pool state.1 = none)

variable {M : Moves code pool} {a entry : ℕ} {state state' : ℕ × ℕ}

theorem Traced.step (hX : Closed code pool X) (h : Traced M X a state)
    (hstep : CursorStep code pool M state state') : Traced M X a state' := by
  obtain ⟨pc₀, b, l, d, hw, hc, hb, hl, hin⟩ := h
  cases hstep with
  | move hmove hc' _ =>
    obtain ⟨s, hs, hleads, -⟩ := M.sound _ _ _ hmove
    have hpc := mem_of_stepAt hin hs
    refine ⟨pc₀, b, _, _, hw.snoc hmove, ?_, hb, ?_, hX _ hpc s _ hs hleads⟩
    · dsimp only at hc ⊢
      omega
    · intro x hx
      rcases List.mem_append.1 hx with hx | hx
      · exact hl x hx
      · rwa [List.mem_singleton.1 hx]
  | @raise pc pc' c c' s hs hleads hslots _ =>
    have hpc := mem_of_stepAt hin hs
    have hsup := slots_le_sup hpc hs
    exact ⟨pc', c', [], 0, .nil pc', (add_zero _).symm, by omega, fun x hx ↦ absurd hx List.not_mem_nil,
      hX _ hpc s _ hs hleads⟩

/-- The cursor stays below the arguments or the highest slot, and the pushes of all words. -/
theorem reach_le (hM : NoGain M.moves) (hX : Closed code pool X)
    (hentry : entry ∈ X ∨ stepAt code pool entry = none)
    (hrun : Relation.ReflTransGen (CursorStep code pool M) (entry, a) state)
    (hc : Reaches code pool state c) :
    c ≤ max a (X.sup (slotsAt code pool)) + ∑ x ∈ X, pushAt code pool x := by
  have htraced : Traced M X a state := by
    clear hc
    induction hrun with
    | refl =>
      exact ⟨entry, a, [], 0, .nil entry, (add_zero _).symm, le_max_left _ _, fun x hx ↦ absurd hx List.not_mem_nil,
        hentry⟩
    | tail _ hstep ih => exact ih.step hX hstep
  obtain ⟨pc₀, b, l, d, hw, hcur, hb, hl, hin⟩ := htraced
  have hlast : state.1 ∈ X ∨ pushAt code pool state.1 = 0 :=
    hin.imp_right fun h ↦ by rw [pushAt, h, Option.elim_none]
  have hgain := hw.gain_add_le hM M.le_pushAt hl hlast
  obtain ⟨-, rfl | ⟨s, hs, hpush | hslots⟩⟩ := hc
  · omega
  · rw [pushAt, hs, Option.elim_some] at hgain
    omega
  · have hsup := slots_le_sup (mem_of_stepAt hin hs) hs
    omega

end Reach

/-! ### The bound of a frame is part of the reserve -/

section Words

variable {steps : List Step}

theorem le_maxOr0 {xs : List ℕ} {x : ℕ} (hx : x ∈ xs) : x ≤ maxOr0 xs := by
  cases h : xs.max? with
  | none =>
    rw [List.max?_eq_none_iff.1 h] at hx
    exact absurd hx List.not_mem_nil
  | some m =>
    rw [maxOr0, h, Option.getD_some]
    exact (List.max?_eq_some_iff.1 h).2 x hx

theorem foldl_add_push (l : List Step) {t : Bound} (ht : t.push ≤ u64Max) :
    (l.foldl Bound.add t).push = min (t.push + (l.map Step.push).sum) u64Max := by
  induction l generalizing t with
  | nil => simp [ht]
  | cons s l ih =>
    rw [List.foldl_cons, ih (min_le_right _ _), List.map_cons, List.sum_cons]
    simp only [Bound.add, saturatingAdd]
    omega

theorem foldl_add_slots (l : List Step) (t : Bound) :
    t.slots ≤ (l.foldl Bound.add t).slots ∧ ∀ s ∈ l, s.slots ≤ (l.foldl Bound.add t).slots := by
  induction l generalizing t with
  | nil => exact ⟨le_rfl, fun s hs ↦ absurd hs List.not_mem_nil⟩
  | cons s l ih =>
    obtain ⟨h1, h2⟩ := ih (t.add s)
    refine ⟨(le_max_left _ _).trans h1, fun s' hs' ↦ ?_⟩
    rcases List.mem_cons.1 hs' with rfl | hs'
    · exact (le_max_right _ _).trans h1
    · exact h2 s' hs'

/-- Pushes and slots found among some words are within their bound. -/
theorem le_words {l : List Step} {push slots : ℕ} (hpush : push ≤ (l.map Step.push).sum)
    (hslots : slots ≤ (l.foldl Bound.add {}).slots) :
    saturatingAdd push slots ≤ (l.foldl Bound.add {}).words := by
  rw [Bound.words, foldl_add_push l (t := {}) (Nat.zero_le _)]
  simp only [saturatingAdd]
  omega

/-- The bound kept for a root: that of its own words. -/
theorem getElem?_foldl_modify (l : List (Step × ℕ)) (bounds : List Bound) (k : ℕ) :
    (l.foldl (fun bounds p ↦ bounds.modify p.2 (·.add p.1)) bounds)[k]? =
      (bounds[k]?).map fun t ↦ ((l.filter (·.2 = k)).map Prod.fst).foldl Bound.add t := by
  induction l generalizing bounds with
  | nil => simp
  | cons p l ih =>
    rw [List.foldl_cons, ih, List.getElem?_modify]
    by_cases hp : p.2 = k
    · rw [List.filter_cons_of_pos (by simpa using hp)]
      simp only [if_pos hp, Option.map_eq_map, Option.map_map]
      rfl
    · rw [List.filter_cons_of_neg (by simpa using hp)]
      simp only [if_neg hp, Option.map_eq_map, Option.map_id_fun', id]

/-- A sum over the members of a list that pass a test, by their positions. -/
theorem sum_map_filter {β : Type} (l : List β) (p : β → Bool) (f : β → ℕ) :
    ((l.filter p).map f).sum =
      ∑ i ∈ Finset.range l.length, (l[i]?).elim 0 fun x ↦ if p x then f x else 0 := by
  induction l using List.reverseRecOn with
  | nil => rfl
  | append_singleton l x ih =>
    rw [List.length_append, List.length_singleton, Finset.sum_range_succ, List.filter_append,
      List.map_append, List.sum_append, ih]
    have hlast : (l ++ [x])[l.length]? = some x := by simp
    rw [hlast]
    congr 1
    · refine Finset.sum_congr rfl fun i hi ↦ ?_
      have hi : (l ++ [x])[i]? = l[i]? := List.getElem?_append_left (Finset.mem_range.1 hi)
      rw [hi]
    · cases hp : p x <;> simp [hp]

theorem getElem?_of_mapM {α β : Type} {f : α → Option β} {l : List α} {r : List β}
    (h : l.mapM f = some r) : r.length = l.length ∧ ∀ i : ℕ, r[i]? = (l[i]?).bind f := by
  induction l generalizing r with
  | nil =>
    cases h
    exact ⟨rfl, fun i ↦ rfl⟩
  | cons a l ih =>
    rw [List.mapM_cons, Option.bind_eq_bind, Option.bind_eq_some_iff] at h
    obtain ⟨b, hb, h⟩ := h
    rw [Option.bind_eq_bind, Option.bind_eq_some_iff] at h
    obtain ⟨r', hr', h⟩ := h
    cases h
    obtain ⟨hlen, hget⟩ := ih hr'
    have hcons : ∀ i : ℕ, (b :: r')[i]? = ((a :: l)[i]?).bind f := by
      intro i
      cases i with
      | zero => exact hb.symm
      | succ i => exact hget i
    exact ⟨by simp [hlen], hcons⟩

end Words

/-! ### The reserve -/

section Reserve

variable {code : List Byte} {pool : List UInt64} {steps : List Step} {rs : List ℕ}

theorem stepAt_eq (h : (code.mapM fun b ↦ step b pool (widestPayload code pool)) = some steps) (pc : ℕ) :
    stepAt code pool pc = steps[pc]? :=
  ((getElem?_of_mapM h).2 pc).symm

variable (hat : ∀ pc, stepAt code pool pc = steps[pc]?)
include hat

/-- One frame: the words of a root. -/
theorem closed_root (h : Verify.roots (steps.map Step.toStep) = some rs) (k : ℕ) :
    Closed code pool ((Finset.range steps.length).filter (rootAt rs · = k)) := by
  intro p hp s q hs hleads
  obtain ⟨hlt, rfl⟩ := Finset.mem_filter.1 hp
  by_cases hq : q < steps.length
  · refine Or.inl (Finset.mem_filter.2 ⟨Finset.mem_range.2 hq, ?_⟩)
    refine (Verify.rootAt_eq_of_edge h ⟨by simpa using hq, s.toStep, ?_, ?_⟩).symm
    · rw [List.getElem?_map, ← hat, hs, Option.map_some]
    · rcases hleads with hfall | hjump | hunknown
      · exact Or.inl hfall
      · exact Or.inr hjump
      · -- with an unknown branch there are no roots
        have hnone := Verify.roots_eq_none_iff.2
          ⟨s.toStep, List.mem_map_of_mem (List.mem_of_getElem? ((hat p).symm.trans hs)), hunknown⟩
        rw [h] at hnone
        cases hnone
  · exact Or.inr (by rw [hat, List.getElem?_eq_none (by omega)])

theorem closed_range : Closed code pool (Finset.range steps.length) := by
  intro p _ s q _ _
  by_cases hq : q < steps.length
  · exact Or.inl (Finset.mem_range.2 hq)
  · exact Or.inr (by rw [hat, List.getElem?_eq_none (by omega)])

theorem sup_slotsAt_le {X : Finset ℕ} {l : List Step} (t : Bound)
    (hX : ∀ pc ∈ X, ∀ s, steps[pc]? = some s → s ∈ l) :
    X.sup (slotsAt code pool) ≤ (l.foldl Bound.add t).slots := by
  refine Finset.sup_le fun pc hpc ↦ ?_
  cases hs : steps[pc]? with
  | none => simp [slotsAt, hat, hs]
  | some s =>
    rw [slotsAt, hat, hs, Option.elim_some]
    exact (foldl_add_slots l t).2 s (hX pc hpc s hs)

/-- The words of the frame of an entry, and a bound on them within the reserve. -/
theorem exists_frame (entry : ℕ) : ∃ X, Closed code pool X ∧
    (entry ∈ X ∨ stepAt code pool entry = none) ∧
      saturatingAdd (∑ x ∈ X, pushAt code pool x) (X.sup (slotsAt code pool)) ≤ frameWords steps := by
  by_cases hentry : entry < steps.length
  swap
  · refine ⟨∅, fun p hp ↦ absurd hp (Finset.notMem_empty p), Or.inr ?_, ?_⟩
    · rw [hat, List.getElem?_eq_none (by omega)]
    · simp [saturatingAdd]
  rw [frameWords]
  cases hroots : Verify.roots (steps.map Step.toStep) with
  | none =>
    refine ⟨_, closed_range hat, Or.inl (Finset.mem_range.2 hentry), le_words (le_of_eq ?_) ?_⟩
    · have hall := sum_map_filter steps (fun _ ↦ true) Step.push
      rw [List.filter_eq_self.2 fun _ _ ↦ rfl] at hall
      rw [hall]
      simp [pushAt, hat]
    · exact sup_slotsAt_le hat _ fun pc _ s hs ↦ List.mem_of_getElem? hs
  | some rs =>
    obtain ⟨hlen, hleast⟩ := Verify.roots_isLeast hroots
    rw [List.length_map] at hlen hleast
    have hk := (hleast entry hentry).1.1
    refine ⟨_, closed_root hat hroots (rootAt rs entry),
      Or.inl (Finset.mem_filter.2 ⟨Finset.mem_range.2 hentry, rfl⟩), ?_⟩
    -- the bound kept for the root of the entry
    have hkept := getElem?_foldl_modify (steps.zip rs) (List.replicate steps.length {}) (rootAt rs entry)
    rw [List.getElem?_replicate, if_pos hk, Option.map_some] at hkept
    refine le_trans ?_ (le_maxOr0 (List.mem_map_of_mem (List.mem_of_getElem? hkept)))
    have hroot : ∀ pc < steps.length, rs[pc]? = some (rootAt rs pc) := by
      intro pc hpc
      rw [rootAt, List.getElem?_eq_getElem (by omega), Option.getD_some]
    refine le_words (le_of_eq ?_) (sup_slotsAt_le hat _ ?_)
    · rw [List.map_map, sum_map_filter, List.length_zip, hlen, min_self, Finset.sum_filter]
      refine Finset.sum_congr rfl fun pc hpc ↦ ?_
      have hpc := Finset.mem_range.1 hpc
      have hzip : (steps.zip rs)[pc]? = some (steps[pc], rootAt rs pc) :=
        List.getElem?_zip_eq_some.2 ⟨List.getElem?_eq_getElem hpc, hroot pc hpc⟩
      rw [hzip]
      simp [pushAt, hat, hpc]
    · intro pc hpc s hs
      obtain ⟨hlt, heq⟩ := Finset.mem_filter.1 hpc
      refine List.mem_map.2 ⟨(s, rootAt rs pc), List.mem_filter.2 ⟨?_, by simpa using heq⟩, rfl⟩
      exact List.mem_of_getElem? (List.getElem?_zip_eq_some.2 ⟨hs, hroot pc (Finset.mem_range.1 hlt)⟩)

end Reserve

/-- The names a `LOAD` or `STORE` asks for stop at three. -/
theorem loadStoreSlots_eq_none_iff {b : Byte} : loadStoreSlots b = none ↔ 3 < b.loadStoreCount := by
  rw [loadStoreSlots, Byte.loadStoreCount]
  by_cases h0 : b.inner = 0
  · simp [h0, Byte.loadStoreSlotAt]
  · rw [if_neg h0]
    refine ⟨fun hnone ↦ ?_, fun hlt ↦ ?_⟩
    · by_contra hle
      have hcases : b.inner = 1 ∨ b.inner = 2 ∨ b.inner = 3 := by omega
      rcases hcases with h | h | h <;> simp [h, Byte.loadStoreSlotAt, List.range_succ] at hnone
    · cases hm : (List.range b.inner).mapM b.loadStoreSlotAt with
      | none => rfl
      | some slots =>
        -- the fourth slot is missing
        obtain ⟨hlen, hget⟩ := getElem?_of_mapM hm
        have h3 := hget 3
        rw [List.getElem?_range hlt, Option.bind_some] at h3
        rw [List.length_range] at hlen
        rw [List.getElem?_eq_getElem (by omega)] at h3
        simp [Byte.loadStoreSlotAt, h0] at h3

/-- The reserve is missing only when a `LOAD` or `STORE` names more slots than a word holds. -/
theorem counts_eq_none_iff {b : Byte} {pool : List UInt64} {matchPayload : ℕ} :
    counts b pool matchPayload = none ↔
      (b.bytecode = .load ∨ b.bytecode = .store ∨ b.bytecode = .storePop) ∧ 3 < b.loadStoreCount := by
  constructor
  · intro h
    have hslots : (b.bytecode = .load ∨ b.bytecode = .store ∨ b.bytecode = .storePop) ∧
        loadStoreSlots b = none := by
      obtain ⟨i, o⟩ := b
      cases i
      case load => exact ⟨Or.inl rfl, Option.map_eq_none_iff.1 h⟩
      case store => exact ⟨Or.inr (Or.inl rfl), Option.map_eq_none_iff.1 h⟩
      case storePop => exact ⟨Or.inr (Or.inr rfl), Option.map_eq_none_iff.1 h⟩
      all_goals exact absurd h (Option.some_ne_none _)
    exact ⟨hslots.1, loadStoreSlots_eq_none_iff.1 hslots.2⟩
  · rintro ⟨hb | hb | hb, h⟩ <;> simp [counts, hb, loadStoreSlots_eq_none_iff.2 h]

theorem mapM_eq_none_iff {α β : Type} {f : α → Option β} {l : List α} :
    l.mapM f = none ↔ ∃ x ∈ l, f x = none := by
  induction l with
  | nil => simp
  | cons a l ih =>
    cases h : f a with
    | none => simp [List.mapM_cons, h]
    | some b =>
      rw [List.mapM_cons, h, Option.bind_eq_bind, Option.bind_some]
      cases hl : l.mapM f <;> simpa [h, hl] using ih

/-- `CONST`, `POP` and a jump back. -/
def loopCode : List Byte := [⟨.const, 7⟩, ⟨.pop, 0⟩, ⟨.jmp, 0⟩]

def loopMoves : Moves loopCode [] where
  moves p d q := (p, d, q) = (0, 1, 1) ∨ (p, d, q) = (1, -1, 2) ∨ (p, d, q) = (2, 0, 0)
  sound p d q h := by
    simp only [Prod.mk.injEq] at h
    obtain ⟨rfl, rfl, rfl⟩ | ⟨rfl, rfl, rfl⟩ | ⟨rfl, rfl, rfl⟩ := h
    · exact ⟨⟨⟨.none, true⟩, 1, 0⟩, rfl, Or.inl ⟨rfl, rfl⟩, by decide⟩
    · exact ⟨⟨⟨.none, true⟩, 0, 0⟩, rfl, Or.inl ⟨rfl, rfl⟩, by decide⟩
    · exact ⟨⟨⟨.to 0, false⟩, 0, 0⟩, rfl, Or.inr (Or.inl rfl), by decide⟩

theorem noGain_loopMoves : NoGain loopMoves.moves := by
  refine noGain_of_potential (fun p ↦ if p = 1 then 1 else 0) fun p d q h ↦ ?_
  simp only [loopMoves, Prod.mk.injEq] at h
  obtain ⟨rfl, rfl, rfl⟩ | ⟨rfl, rfl, rfl⟩ | ⟨rfl, rfl, rfl⟩ := h <;> decide

theorem frameReserve_loopCode : frameReserve loopCode [] = some ⟨1, 2⟩ := by decide +kernel

/-- Once around the loop and into it again. -/
theorem loopCode_run : Relation.ReflTransGen (CursorStep loopCode [] loopMoves) (0, 0) (1, 1) := by
  have hconst : CursorStep loopCode [] loopMoves (0, 0) (1, 1) :=
    .move (d := 1) (Or.inl rfl) rfl (by decide)
  have hpop : CursorStep loopCode [] loopMoves (1, 1) (2, 0) :=
    .move (d := -1) (Or.inr (Or.inl rfl)) rfl (by decide)
  have hjump : CursorStep loopCode [] loopMoves (2, 0) (0, 0) :=
    .move (d := 0) (Or.inr (Or.inr rfl)) rfl (by decide)
  exact (((Relation.ReflTransGen.single hconst).tail hpop).tail hjump).tail hconst

/-- Some word of the code opens a frame at `entry` with `a` arguments. -/
inductive Opens (code : List Byte) : ℕ → ℕ → Prop
  | call {b : Byte} : b ∈ code → isCall b.bytecode = true → Opens code b.callParts.2 b.callParts.1
  | indirect {f b : Byte} : f ∈ code → f.bytecode = .codePtr → b ∈ code → b.bytecode = .callIndirect →
    Opens code f.operandU32 (b.low16 + b.operandU32 >>> 16)

/-- A call of the function at 6 through its code pointer, with three arguments. The function makes an array
of four constants. -/
def indirectCode : List Byte :=
  [⟨.const, 1⟩, ⟨.const, 2⟩, ⟨.const, 3⟩, ⟨.codePtr, 6⟩, ⟨.callIndirect, 3⟩, ⟨.return, 1⟩,
    ⟨.const, 4⟩, ⟨.const, 5⟩, ⟨.const, 6⟩, ⟨.const, 7⟩, ⟨.makeArray, 4⟩, ⟨.return, 1⟩]

/-- The four constants. -/
def indirectMoves : Moves indirectCode [] where
  moves p d q := (6 ≤ p ∧ p < 10) ∧ d = 1 ∧ q = p + 1
  sound p d q h := by
    obtain ⟨⟨h6, h10⟩, rfl, rfl⟩ := h
    interval_cases p <;>
      exact ⟨⟨⟨.none, true⟩, 1, 0⟩, rfl, Or.inl ⟨rfl, rfl⟩, by decide⟩

theorem noGain_indirectMoves : NoGain indirectMoves.moves := by
  refine noGain_of_potential (fun p ↦ p) fun p d q h ↦ ?_
  obtain ⟨-, rfl, rfl⟩ := h
  omega

end CoilLang.FrameBound
