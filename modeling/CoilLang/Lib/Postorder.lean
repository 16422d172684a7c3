import Mathlib.Algebra.BigOperators.Group.Finset.Basic
import Mathlib.Algebra.GroupWithZero.Nat
import Mathlib.Algebra.Order.BigOperators.Group.Finset
import Mathlib.Data.List.Nodup
import Mathlib.Logic.Relation

/-!
# Depth-first walks with an explicit stack

`Dfs` is the state of an iterative depth-first walk: a stack of nodes, each with the successors it
has not looked at yet, the nodes seen so far, and the nodes left in the **order of leaving them**.
`postorder` runs the walk from a root.

The invariant is about one list, `Dfs.line`: the nodes left, then the stack from its top down. That is
the order in which the nodes seen so far are going to be left; leaving a node does not change it, and
a node seen for the first time is put in just before its parent. So at the end each node but the root
has **a predecessor that is left later** (`Postorder.parent`), whatever cycles there are.
-/

namespace CoilLang

/-- The state of a depth-first walk. -/
structure Dfs (α : Type*) where
  stack : List (α × List α)
  seen : List α
  order : List α

namespace Dfs

variable {α : Type*} [DecidableEq α]

/-- One step of the walk, unless the stack is empty. -/
def step (succs : α → List α) (s : Dfs α) : Option (Dfs α) :=
  match s.stack with
  | [] => none
  | (b, c :: cs) :: st =>
    if c ∈ s.seen then some { s with stack := (b, cs) :: st }
    else some { s with stack := (c, succs c) :: (b, cs) :: st, seen := c :: s.seen }
  | (b, []) :: st => some { s with stack := st, order := s.order ++ [b] }

/-- Walk until the stack is empty. -/
def run (succs : α → List α) : ℕ → Dfs α → Option (Dfs α)
  | 0, _ => none
  | n + 1, s =>
    match s.step succs with
    | none => some s
    | some s' => run succs n s'

def start (succs : α → List α) (root : α) : Dfs α := ⟨[(root, succs root)], [root], []⟩

end Dfs

/-- The nodes reached from the root, each after the walk has gone through all its successors. -/
def postorder {α : Type*} [DecidableEq α] (succs : α → List α) (root : α) (fuel : ℕ) :
    Option (List α) :=
  (Dfs.run succs fuel (Dfs.start succs root)).map Dfs.order

/-- What a depth-first walk from the root leaves behind. -/
structure Postorder {α : Type*} (succs : α → List α) (root : α) (order : List α) : Prop where
  nodup : order.Nodup
  last : order.getLast? = some root
  parent : ∀ b ∈ order, b ≠ root → ∃ p, b ∈ succs p ∧ [b, p].Sublist order
  closed : ∀ b ∈ order, ∀ c ∈ succs b, c ∈ order

namespace Dfs

variable {α : Type*} {succs : α → List α} {root : α} {s s' : Dfs α}

/-- The nodes seen so far in the order of leaving them: those left, then the stack. -/
def line (s : Dfs α) : List α := s.order ++ s.stack.map Prod.fst

structure Inv (succs : α → List α) (root : α) (s : Dfs α) : Prop where
  nodup : s.line.Nodup
  seen : ∀ x, x ∈ s.seen ↔ x ∈ s.line
  last : s.line.getLast? = some root
  parent : ∀ b ∈ s.line, b ≠ root → ∃ p, b ∈ succs p ∧ [b, p].Sublist s.line
  /-- A successor has been seen or still waits on the stack. -/
  closed : ∀ b ∈ s.line, ∀ c ∈ succs b, c ∈ s.line ∨ ∃ rest, (b, rest) ∈ s.stack ∧ c ∈ rest
  /-- What waits on the stack are successors. -/
  rest : ∀ e ∈ s.stack, ∀ c ∈ e.2, c ∈ succs e.1

theorem inv_start : Inv succs root (start succs root) := by
  refine ⟨by simp [line, start], by simp [line, start], by simp [line, start], ?_, ?_, ?_⟩
  · intro b hb hne
    exact absurd (by simpa [line, start] using hb) hne
  · intro b hb c hc
    obtain rfl : b = root := by simpa [line, start] using hb
    exact .inr ⟨_, List.mem_cons_self, hc⟩
  · intro e he c hc
    obtain rfl : e = (root, succs root) := by simpa [start] using he
    exact hc

/-! ### What a step does to the invariant -/

section
variable {b c : α} {cs : List α} {st : List (α × List α)}

theorem Inv.mem_succs (hi : Inv succs root s) (hst : s.stack = (b, c :: cs) :: st) : c ∈ succs b :=
  hi.rest (b, c :: cs) (hst ▸ List.mem_cons_self) c List.mem_cons_self

/-- The successors that wait when the top of the stack is looked at. -/
theorem Inv.closed_of_stack (hi : Inv succs root s) {rest : List α} (hst : s.stack = (b, rest) :: st)
    {x y : α} (hx : x ∈ s.line) (hy : y ∈ succs x) :
    y ∈ s.line ∨ (x = b ∧ y ∈ rest) ∨ ∃ r, (x, r) ∈ st ∧ y ∈ r := by
  rcases hi.closed x hx y hy with hy' | ⟨r, hr, hyr⟩
  · exact .inl hy'
  · rw [hst, List.mem_cons] at hr
    rcases hr with heq | hr
    · obtain ⟨rfl, rfl⟩ := Prod.mk.inj heq
      exact .inr (.inl ⟨rfl, hyr⟩)
    · exact .inr (.inr ⟨r, hr, hyr⟩)

theorem Inv.rest_of_stack (hi : Inv succs root s) {rest : List α} (hst : s.stack = (b, rest) :: st) :
    (∀ y ∈ rest, y ∈ succs b) ∧ ∀ e ∈ st, ∀ y ∈ e.2, y ∈ succs e.1 :=
  ⟨hi.rest (b, rest) (hst ▸ List.mem_cons_self),
    fun e he ↦ hi.rest e (hst ▸ List.mem_cons_of_mem _ he)⟩

/-- The next successor has been seen. -/
theorem Inv.skip (hi : Inv succs root s) (hst : s.stack = (b, c :: cs) :: st) (hc : c ∈ s.seen) :
    Inv succs root { s with stack := (b, cs) :: st } := by
  have hline : line { s with stack := (b, cs) :: st } = s.line := by simp [line, hst]
  obtain ⟨htop, hst'⟩ := hi.rest_of_stack hst
  refine ⟨hline ▸ hi.nodup, hline ▸ hi.seen, hline ▸ hi.last, hline ▸ hi.parent, ?_, ?_⟩
  · rw [hline]
    intro x hx y hy
    rcases hi.closed_of_stack hst hx hy with hy' | ⟨rfl, hyr⟩ | ⟨r, hr, hyr⟩
    · exact .inl hy'
    · rcases List.mem_cons.1 hyr with rfl | hyr
      · exact .inl ((hi.seen _).1 hc)
      · exact .inr ⟨cs, List.mem_cons_self, hyr⟩
    · exact .inr ⟨r, List.mem_cons_of_mem _ hr, hyr⟩
  · intro e he
    rcases List.mem_cons.1 he with rfl | he
    · exact fun y hy ↦ htop y (List.mem_cons_of_mem _ hy)
    · exact hst' e he

/-- A new node goes in just before its parent. -/
theorem Inv.push (hi : Inv succs root s) (hst : s.stack = (b, c :: cs) :: st) (hc : c ∉ s.seen) :
    Inv succs root
      { s with stack := (c, succs c) :: (b, cs) :: st, seen := c :: s.seen } := by
  obtain ⟨htop, hst'⟩ := hi.rest_of_stack hst
  have hold : s.line = s.order ++ b :: st.map Prod.fst := by simp [line, hst]
  have hline : line { s with stack := (c, succs c) :: (b, cs) :: st, seen := c :: s.seen } =
      s.order ++ c :: b :: st.map Prod.fst := by simp [line]
  have hsub : s.line.Sublist (s.order ++ c :: b :: st.map Prod.fst) := by
    rw [hold]
    exact (List.Sublist.refl _).append (List.sublist_cons_self _ _)
  have hperm : (s.order ++ c :: b :: st.map Prod.fst).Perm (c :: s.line) := by
    rw [hold]
    exact List.perm_middle
  have hnew : c ∉ s.line := fun hm ↦ hc ((hi.seen c).2 hm)
  refine ⟨?_, ?_, ?_, ?_, ?_, ?_⟩
  · rw [hline, hperm.nodup_iff]
    exact List.nodup_cons.2 ⟨hnew, hi.nodup⟩
  · intro x
    rw [hline, hperm.mem_iff, List.mem_cons, List.mem_cons, hi.seen]
  · have hlast := hi.last
    rw [hold, List.getLast?_append_of_ne_nil _ (List.cons_ne_nil _ _)] at hlast
    rw [hline, List.getLast?_append_of_ne_nil _ (List.cons_ne_nil _ _), List.getLast?_cons_cons]
    exact hlast
  · rw [hline]
    intro x hx hne
    rcases List.mem_cons.1 (hperm.mem_iff.1 hx) with rfl | hx
    · refine ⟨b, hi.mem_succs hst, List.Sublist.trans ?_ (List.sublist_append_right _ _)⟩
      exact ((List.nil_sublist _).cons_cons b).cons_cons x
    · obtain ⟨p, hp, hsl⟩ := hi.parent x hx hne
      exact ⟨p, hp, hsl.trans hsub⟩
  · rw [hline]
    intro x hx y hy
    rcases List.mem_cons.1 (hperm.mem_iff.1 hx) with rfl | hx
    · exact .inr ⟨_, List.mem_cons_self, hy⟩
    · rcases hi.closed_of_stack hst hx hy with hy' | ⟨rfl, hyr⟩ | ⟨r, hr, hyr⟩
      · exact .inl (hsub.subset hy')
      · rcases List.mem_cons.1 hyr with rfl | hyr
        · exact .inl (by simp)
        · exact .inr ⟨cs, List.mem_cons_of_mem _ List.mem_cons_self, hyr⟩
      · exact .inr ⟨r, List.mem_cons_of_mem _ (List.mem_cons_of_mem _ hr), hyr⟩
  · intro e he
    rcases List.mem_cons.1 he with rfl | he
    · exact fun _ hy ↦ hy
    · rcases List.mem_cons.1 he with rfl | he
      · exact fun y hy ↦ htop y (List.mem_cons_of_mem _ hy)
      · exact hst' e he

/-- Leaving a node keeps the line. -/
theorem Inv.leave (hi : Inv succs root s) (hst : s.stack = (b, []) :: st) :
    Inv succs root { s with stack := st, order := s.order ++ [b] } := by
  have hline : line { s with stack := st, order := s.order ++ [b] } = s.line := by simp [line, hst]
  refine ⟨hline ▸ hi.nodup, hline ▸ hi.seen, hline ▸ hi.last, hline ▸ hi.parent, ?_,
    (hi.rest_of_stack hst).2⟩
  rw [hline]
  intro x hx y hy
  rcases hi.closed_of_stack hst hx hy with hy' | ⟨-, hyr⟩ | hr
  · exact .inl hy'
  · cases hyr
  · exact .inr hr

end

variable [DecidableEq α]

theorem step_cases (h : s.step succs = some s') :
    (∃ b c cs st, s.stack = (b, c :: cs) :: st ∧ c ∈ s.seen ∧
      s' = { s with stack := (b, cs) :: st }) ∨
    (∃ b c cs st, s.stack = (b, c :: cs) :: st ∧ c ∉ s.seen ∧
      s' = { s with stack := (c, succs c) :: (b, cs) :: st, seen := c :: s.seen }) ∨
    ∃ b st, s.stack = (b, []) :: st ∧ s' = { s with stack := st, order := s.order ++ [b] } := by
  unfold step at h
  split at h
  · cases h
  · rename_i b c cs st hst
    split at h
    · rename_i hc
      exact .inl ⟨b, c, cs, st, hst, hc, (Option.some.inj h).symm⟩
    · rename_i hc
      exact .inr (.inl ⟨b, c, cs, st, hst, hc, (Option.some.inj h).symm⟩)
  · rename_i b st hst
    exact .inr (.inr ⟨b, st, hst, (Option.some.inj h).symm⟩)

theorem Inv.step (hi : Inv succs root s) (h : s.step succs = some s') : Inv succs root s' := by
  obtain ⟨b, c, cs, st, hst, hc, rfl⟩ | ⟨b, c, cs, st, hst, hc, rfl⟩ | ⟨b, st, hst, rfl⟩ :=
    step_cases h
  · exact hi.skip hst hc
  · exact hi.push hst hc
  · exact hi.leave hst

/-- More fuel gives the same end. -/
theorem run_mono {n m : ℕ} (hnm : n ≤ m) {r : Dfs α} (h : run succs n s = some r) :
    run succs m s = some r := by
  induction n generalizing s m with
  | zero => cases h
  | succ n ih =>
    obtain ⟨m, rfl⟩ : ∃ k, m = k + 1 := ⟨m - 1, by omega⟩
    unfold run at h ⊢
    split at h
    · exact h
    · exact ih (by omega) h

/-! ### The walk ends -/

/-- The steps left: one for each edge out of an unseen node or waiting on the stack, and one for
leaving each node. -/
def work (succs : α → List α) (V : Finset α) (s : Dfs α) : ℕ :=
  ∑ x ∈ V.filter (· ∉ s.seen), ((succs x).length + 1) + (s.stack.map fun e ↦ e.2.length + 1).sum

theorem work_step {V : Finset α} (hV : ∀ x ∈ V, ∀ y ∈ succs x, y ∈ V) (hi : Inv succs root s)
    (hin : ∀ x ∈ s.line, x ∈ V) (h : s.step succs = some s') :
    s'.work succs V < s.work succs V ∧ ∀ x ∈ s'.line, x ∈ V := by
  obtain ⟨b, c, cs, st, hst, hc, rfl⟩ | ⟨b, c, cs, st, hst, hc, rfl⟩ | ⟨b, st, hst, rfl⟩ :=
    step_cases h
  · refine ⟨?_, fun x hx ↦ hin x (by simpa [line, hst] using hx)⟩
    simp [work, hst]
  · have hcV : c ∈ V := hV b (hin b (by simp [line, hst])) c (hi.mem_succs hst)
    have hsum : ∑ x ∈ V.filter (· ∉ s.seen), ((succs x).length + 1) =
        (succs c).length + 1 + ∑ x ∈ V.filter (· ∉ c :: s.seen), ((succs x).length + 1) := by
      rw [← Finset.add_sum_erase _ _ (Finset.mem_filter.2 ⟨hcV, hc⟩)]
      congr 2
      ext x
      simp only [Finset.mem_erase, Finset.mem_filter, List.mem_cons, not_or]
      tauto
    refine ⟨?_, fun x hx ↦ ?_⟩
    · simp only [work, hsum, hst, List.map_cons, List.sum_cons, List.length_cons]
      omega
    · have hx' : x = c ∨ x ∈ s.line := by
        simp only [line, hst, List.map_cons, List.mem_append, List.mem_cons] at hx ⊢
        tauto
      rcases hx' with rfl | hx'
      · exact hcV
      · exact hin x hx'
  · refine ⟨?_, fun x hx ↦ hin x (by simpa [line, hst] using hx)⟩
    simp [work, hst]

theorem run_of_work {V : Finset α} (hV : ∀ x ∈ V, ∀ y ∈ succs x, y ∈ V) (hi : Inv succs root s)
    (hin : ∀ x ∈ s.line, x ∈ V) {n : ℕ} (hn : s.work succs V < n) :
    ∃ r, Inv succs root r ∧ r.stack = [] ∧ ∀ fuel, n ≤ fuel → run succs fuel s = some r := by
  induction n generalizing s with
  | zero => omega
  | succ n ih =>
    cases hs : s.step succs with
    | none =>
      refine ⟨s, hi, ?_, fun fuel hfuel ↦ ?_⟩
      · unfold step at hs
        split at hs
        · assumption
        · split at hs <;> cases hs
        · cases hs
      · obtain ⟨k, rfl⟩ : ∃ k, fuel = k + 1 := ⟨fuel - 1, by omega⟩
        simp only [run, hs]
    | some s' =>
      obtain ⟨hlt, hin'⟩ := work_step hV hi hin hs
      obtain ⟨r, hr, hstack, hrun⟩ := ih (hi.step hs) hin' (by omega)
      refine ⟨r, hr, hstack, fun fuel hfuel ↦ ?_⟩
      obtain ⟨k, rfl⟩ : ∃ k, fuel = k + 1 := ⟨fuel - 1, by omega⟩
      simp only [run, hs]
      exact hrun k (by omega)

end Dfs

theorem postorder_mono {α : Type*} [DecidableEq α] {succs : α → List α} {root : α} {n m : ℕ}
    (hnm : n ≤ m) {order : List α} (h : postorder succs root n = some order) :
    postorder succs root m = some order := by
  obtain ⟨r, hr, rfl⟩ := Option.map_eq_some_iff.1 h
  rw [postorder, Dfs.run_mono hnm hr, Option.map_some]

/-- **The walk over a finite graph ends** with every node that is reached from the root, each before
one of its predecessors. -/
theorem exists_postorder {α : Type*} [DecidableEq α] {succs : α → List α} {root : α} {V : Finset α}
    (hroot : root ∈ V) (hV : ∀ x ∈ V, ∀ y ∈ succs x, y ∈ V) :
    ∃ order N, Postorder succs root order ∧ ∀ fuel, N ≤ fuel → postorder succs root fuel = some order := by
  have hi : Dfs.Inv succs root (Dfs.start succs root) := Dfs.inv_start
  have hin : ∀ x ∈ (Dfs.start succs root).line, x ∈ V := fun x hx ↦ by
    obtain rfl : x = root := by simpa [Dfs.line, Dfs.start] using hx
    exact hroot
  obtain ⟨r, hr, hstack, hrun⟩ := Dfs.run_of_work hV hi hin (Nat.lt_succ_self _)
  have hline : r.line = r.order := by simp [Dfs.line, hstack]
  refine ⟨r.order, _, ⟨hline ▸ hr.nodup, hline ▸ hr.last, hline ▸ hr.parent, fun b hb c hc ↦ ?_⟩,
    fun fuel hfuel ↦ by rw [postorder, hrun fuel hfuel]; rfl⟩
  rw [← hline] at hb ⊢
  refine (hr.closed b hb c hc).resolve_right ?_
  rintro ⟨rest, hrest, -⟩
  rw [hstack] at hrest
  cases hrest

end CoilLang
