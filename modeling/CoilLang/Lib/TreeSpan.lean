import CoilLang.Lib.Idom
import Mathlib.Algebra.GroupWithZero.Nat

/-!
# Spans of a preorder walk

A walk down a tree numbers the nodes as it comes to them, and gives each node the span from its own
number to the last number given below it. **Of two nodes the one is above the other iff its span
contains the span of the other** (`spans_iff`), so one comparison of numbers replaces the way up.

The invariant is stated over the list of the nodes visited so far, in which a node's number is its
position: all nodes visited since a node on the stack are below it (`SpanInv.below`), and what is below
a node that has been left has been left as well (`SpanInv.closed`), so nothing joins its span later.
-/

namespace CoilLang

/-- The state of the walk: the way down to the current node, each node with the children still to
visit, the last number given, and the spans. -/
structure SpanWalk (α : Type*) where
  stack : List (α × List α)
  clock : ℕ
  span : α → ℕ × ℕ

namespace SpanWalk

variable {α : Type*} [DecidableEq α]

def step (children : α → List α) (s : SpanWalk α) : Option (SpanWalk α) :=
  match s.stack with
  | [] => none
  | (b, c :: cs) :: st =>
    some {
      stack := (c, children c) :: (b, cs) :: st
      clock := s.clock + 1
      span := Function.update s.span c (s.clock + 1, (s.span c).2) }
  | (b, []) :: st =>
    some { s with stack := st, span := Function.update s.span b ((s.span b).1, s.clock) }

def run (children : α → List α) : ℕ → SpanWalk α → Option (SpanWalk α)
  | 0, _ => none
  | n + 1, s =>
    match s.step children with
    | none => some s
    | some s' => run children n s'

def start (children : α → List α) (root : α) : SpanWalk α :=
  ⟨[(root, children root)], 0, fun _ ↦ (0, 0)⟩

end SpanWalk

/-- The spans of the nodes below the root. -/
def spans {α : Type*} [DecidableEq α] (children : α → List α) (root : α) (fuel : ℕ) :
    Option (α → ℕ × ℕ) :=
  (SpanWalk.run children fuel (SpanWalk.start children root)).map SpanWalk.span

/-- A tree by the pointers to the parents, which go up in `num`, and by the children. -/
structure UpTree {α : Type*} (root : α) (up : α → Option α) (num : α → ℕ) (children : α → List α) :
    Prop where
  up_root : up root = some root
  lt : ∀ {x y}, up x = some y → x ≠ root → num x < num y
  mem_children : ∀ {b c}, c ∈ children b ↔ c ≠ root ∧ up c = some b
  nodup : ∀ b, (children b).Nodup

namespace UpTree

variable {α : Type*} {root : α} {up : α → Option α} {num : α → ℕ} {children : α → List α}
  (ht : UpTree root up num children) {b c d x y : α}
include ht

theorem up_le (h : up x = some y) : num x ≤ num y := by
  by_cases hroot : x = root
  · rw [hroot, Option.some.inj (ht.up_root.symm.trans (hroot ▸ h))]
  · exact le_of_lt (ht.lt h hroot)

theorem not_anc_of_child (hc : c ∈ children b) : ¬ Anc up c b := by
  intro h
  obtain ⟨hroot, hup⟩ := ht.mem_children.1 hc
  have hle := h.num_le ht.up_le
  have hlt := ht.lt hup hroot
  omega

theorem ne_of_child (hc : c ∈ children b) : c ≠ b := by
  rintro rfl
  exact ht.not_anc_of_child hc (.refl c)

end UpTree

/-- The walk has visited `V`, in this order, and stands with `stack`. -/
structure WalkInv {α : Type*} [DecidableEq α] (root : α) (up : α → Option α) (children : α → List α)
    (V : List α) (stack : List (α × List α)) : Prop where
  nodup : V.Nodup
  root_mem : root ∈ V
  up_mem : ∀ {x y}, x ∈ V → up x = some y → y ∈ V ∧ V.idxOf y ≤ V.idxOf x
  path : (stack.map Prod.fst).Pairwise fun x y ↦ x ≠ y ∧ Anc up y x
  waiting : ∀ e ∈ stack, e.1 ∈ V ∧ e.2.Nodup ∧ (∀ c ∈ e.2, c ∈ children e.1) ∧
    ∀ c ∈ children e.1, c ∈ e.2 ↔ c ∉ V
  below : ∀ x ∈ stack.map Prod.fst, ∀ y ∈ V, V.idxOf x ≤ V.idxOf y → Anc up x y
  closed : ∀ x ∈ V, x ∉ stack.map Prod.fst → ∀ c ∈ children x, c ∈ V ∧ c ∉ stack.map Prod.fst

namespace WalkInv

variable {α : Type*} [DecidableEq α] {root : α} {up : α → Option α} {num : α → ℕ}
  {children : α → List α} {V : List α} {stack st : List (α × List α)} {cs : List α} {b c d x y : α}

theorem start (ht : UpTree root up num children) :
    WalkInv root up children [root] [(root, children root)] := by
  have hmem : ∀ {x}, x ∈ [root] → x = root := List.mem_singleton.1
  refine ⟨List.nodup_singleton _, List.mem_singleton.2 rfl, fun {x y} hx hxy ↦ ?_,
    List.pairwise_singleton _ _, ?_, ?_, fun x hx hnot ↦ absurd hx hnot⟩
  · rw [hmem hx] at hxy ⊢
    obtain rfl := Option.some.inj (ht.up_root.symm.trans hxy)
    exact ⟨List.mem_singleton.2 rfl, le_rfl⟩
  · intro e he
    obtain rfl : e = (root, children root) := List.mem_singleton.1 he
    refine ⟨List.mem_singleton.2 rfl, ht.nodup root, fun _ hc ↦ hc, fun c hc ↦ ⟨fun _ hr ↦ ?_, fun _ ↦ hc⟩⟩
    exact (ht.mem_children.1 hc).1 (hmem hr)
  · intro x hx y hy _
    rw [hmem hx, hmem hy]
    exact .refl _

/-- The way up from a visited node is visited, and before it. -/
theorem mem_of_anc (hi : WalkInv root up children V stack) (h : Anc up d x) (hx : x ∈ V) :
    d ∈ V ∧ V.idxOf d ≤ V.idxOf x := by
  induction h with
  | refl => exact ⟨hx, le_rfl⟩
  | up hc _ ih =>
    obtain ⟨hcV, hle⟩ := hi.up_mem hx hc
    obtain ⟨hd, hle'⟩ := ih hcV
    exact ⟨hd, hle'.trans hle⟩

/-- What is below a node that has been left has been left. -/
theorem left_of_anc (ht : UpTree root up num children) (hi : WalkInv root up children V stack)
    (h : Anc up d x) (hd : d ∈ V) (hleft : d ∉ stack.map Prod.fst) :
    x ∈ V ∧ x ∉ stack.map Prod.fst := by
  induction h with
  | refl => exact ⟨hd, hleft⟩
  | up hc _ ih =>
    rename_i x y d _
    obtain ⟨hyV, hy⟩ := ih hd hleft
    by_cases hroot : x = root
    · rw [hroot, Option.some.inj (ht.up_root.symm.trans (hroot ▸ hc))]
      exact ⟨hyV, hy⟩
    · exact hi.closed y hyV hy x (ht.mem_children.2 ⟨hroot, hc⟩)

theorem mem_of_stack (hi : WalkInv root up children V stack) (hx : x ∈ stack.map Prod.fst) : x ∈ V := by
  obtain ⟨e, he, rfl⟩ := List.mem_map.1 hx
  exact (hi.waiting e he).1

/-- The next child is new. -/
theorem next (ht : UpTree root up num children) (hi : WalkInv root up children V ((b, c :: cs) :: st)) :
    c ∉ V ∧ up c = some b := by
  obtain ⟨-, -, hsub, hwait⟩ := hi.waiting _ List.mem_cons_self
  have hcb := hsub c List.mem_cons_self
  exact ⟨(hwait c hcb).1 List.mem_cons_self, (ht.mem_children.1 hcb).2⟩

/-- The nodes above the next child are those on the way down. -/
theorem above_next (ht : UpTree root up num children)
    (hi : WalkInv root up children V ((b, c :: cs) :: st)) (hx : x ∈ b :: st.map Prod.fst) :
    Anc up x c := by
  refine .up (hi.next ht).2 ?_
  rcases List.mem_cons.1 hx with rfl | hx
  · exact .refl _
  · exact ((List.pairwise_cons.1 hi.path).1 x hx).2

/-- No node that has been left is above the next child. -/
theorem not_above_next (ht : UpTree root up num children)
    (hi : WalkInv root up children V ((b, c :: cs) :: st)) (hx : x ∈ V)
    (hleft : x ∉ b :: st.map Prod.fst) : ¬ Anc up x c := by
  intro h
  obtain ⟨hcV, hup⟩ := hi.next ht
  have hne : x ≠ c := fun heq ↦ hcV (heq ▸ hx)
  exact (hi.left_of_anc ht (h.of_ne hne hup) hx hleft).2 List.mem_cons_self

/-- The position of a visited node stays. -/
theorem idxOf_push (hx : x ∈ V) : (V ++ [c]).idxOf x = V.idxOf x := List.idxOf_append_of_mem hx

theorem idxOf_new (hc : c ∉ V) : (V ++ [c]).idxOf c = V.length := by
  rw [List.idxOf_append_of_notMem hc, List.idxOf_cons_self, Nat.add_zero]

/-- The way down to a new node. -/
theorem push (ht : UpTree root up num children) (hi : WalkInv root up children V ((b, c :: cs) :: st)) :
    WalkInv root up children (V ++ [c]) ((c, children c) :: (b, cs) :: st) := by
  obtain ⟨hcV, hcup⟩ := hi.next ht
  obtain ⟨hbV, hnd, hsub, hwait⟩ := hi.waiting _ List.mem_cons_self
  have hpath := hi.path
  have hne : ∀ x ∈ V, x ≠ c := fun x hx h ↦ hcV (h ▸ hx)
  have hlt : ∀ x ∈ V, V.idxOf x < V.length := fun x hx ↦ List.idxOf_lt_length_of_mem hx
  refine ⟨?_, List.mem_append_left _ hi.root_mem, ?_, ?_, ?_, ?_, ?_⟩
  · exact List.nodup_append.2 ⟨hi.nodup, List.nodup_singleton c, fun x hx y hy hxy ↦
      hne x hx (hxy.trans (List.mem_singleton.1 hy))⟩
  · intro x y hx hxy
    rcases List.mem_append.1 hx with hx | hx
    · obtain ⟨hy, hle⟩ := hi.up_mem hx hxy
      exact ⟨List.mem_append_left _ hy, by rwa [idxOf_push hx, idxOf_push hy]⟩
    · rw [List.mem_singleton.1 hx] at hxy ⊢
      obtain rfl := Option.some.inj (hcup.symm.trans hxy)
      exact ⟨List.mem_append_left _ hbV, by rw [idxOf_push hbV, idxOf_new hcV]; exact (hlt _ hbV).le⟩
  · refine List.pairwise_cons.2 ⟨fun x hx ↦ ⟨?_, hi.above_next ht hx⟩, hpath⟩
    exact (hne x (hi.mem_of_stack hx)).symm
  · intro e he
    have hV : ∀ {y}, y ∉ V ++ [c] ↔ y ∉ V ∧ y ≠ c := by simp [not_or]
    rcases List.mem_cons.1 he with rfl | he
    · refine ⟨by simp, ht.nodup c, fun _ h ↦ h, fun y hy ↦ ⟨fun _ ↦ hV.2 ⟨fun hyV ↦ ?_, ?_⟩, fun _ ↦ hy⟩⟩
      · exact hcV (hi.up_mem hyV (ht.mem_children.1 hy).2).1
      · exact ht.ne_of_child hy
    rcases List.mem_cons.1 he with rfl | he
    · obtain ⟨hcs, hnd'⟩ := List.nodup_cons.1 hnd
      refine ⟨List.mem_append_left _ hbV, hnd', fun y hy ↦ hsub y (List.mem_cons_of_mem _ hy), fun y hy ↦ ?_⟩
      rw [hV, ← hwait y hy, List.mem_cons]
      exact ⟨fun h ↦ ⟨.inr h, fun heq ↦ hcs (heq ▸ h)⟩, fun h ↦ h.1.resolve_left h.2⟩
    · obtain ⟨heV, hend, hesub, hewait⟩ := hi.waiting e (List.mem_cons_of_mem _ he)
      refine ⟨List.mem_append_left _ heV, hend, hesub, fun y hy ↦ ?_⟩
      have hyc : y ≠ c := fun hyc ↦ by
        rw [hyc] at hy
        have heq : e.1 = b := Option.some.inj ((ht.mem_children.1 hy).2.symm.trans hcup)
        exact ((List.pairwise_cons.1 hpath).1 e.1 (List.mem_map_of_mem he)).1 heq.symm
      rw [hV, hewait y hy]
      exact ⟨fun h ↦ ⟨h, hyc⟩, fun h ↦ h.1⟩
  · intro x hx y hy hle
    rcases List.mem_cons.1 hx with rfl | hx
    · rcases List.mem_append.1 hy with hy | hy
      · rw [idxOf_new hcV, idxOf_push hy] at hle
        exact absurd (hlt y hy) (by omega)
      · rw [List.mem_singleton.1 hy]
        exact .refl _
    · rcases List.mem_append.1 hy with hy | hy
      · rw [idxOf_push (hi.mem_of_stack hx), idxOf_push hy] at hle
        exact hi.below x hx y hy hle
      · rw [List.mem_singleton.1 hy]
        exact hi.above_next ht hx
  · intro x hx hnot y hy
    obtain ⟨hxc, hxs⟩ := not_or.1 (List.mem_cons.not.1 hnot)
    have hxV : x ∈ V := (List.mem_append.1 hx).resolve_right fun h ↦ hxc (List.mem_singleton.1 h)
    obtain ⟨hyV, hys⟩ := hi.closed x hxV hxs y hy
    exact ⟨List.mem_append_left _ hyV, List.mem_cons.not.2 (not_or.2 ⟨hne y hyV, hys⟩)⟩

/-- Leaving a node: its children have been left. -/
theorem leave (ht : UpTree root up num children) (hi : WalkInv root up children V ((b, []) :: st)) :
    WalkInv root up children V st := by
  refine ⟨hi.nodup, hi.root_mem, hi.up_mem, (List.pairwise_cons.1 hi.path).2,
    fun e he ↦ hi.waiting e (List.mem_cons_of_mem _ he),
    fun x hx ↦ hi.below x (List.mem_cons_of_mem _ hx), fun x hx hnot y hy ↦ ?_⟩
  by_cases hxb : x = b
  · obtain ⟨-, -, -, hwait⟩ := hi.waiting _ List.mem_cons_self
    refine ⟨?_, fun hys ↦ ?_⟩
    · by_contra hyV
      cases (hwait y (hxb ▸ hy)).2 hyV
    · exact ht.not_anc_of_child (hxb ▸ hy) ((List.pairwise_cons.1 hi.path).1 y hys).2
  · obtain ⟨hyV, hys⟩ := hi.closed x hx (List.mem_cons.not.2 (not_or.2 ⟨hxb, hnot⟩)) y hy
    exact ⟨hyV, fun h ↦ hys (List.mem_cons_of_mem _ h)⟩

end WalkInv

/-- The spans of the nodes that have been left, and the starts of the spans of the others. -/
structure SpanInv {α : Type*} [DecidableEq α] (up : α → Option α) (V : List α) (s : SpanWalk α) :
    Prop where
  clock : V.length = s.clock + 1
  starts : ∀ x ∈ V, (s.span x).1 = V.idxOf x
  stops : ∀ x ∈ V, x ∉ s.stack.map Prod.fst →
    V.idxOf x ≤ (s.span x).2 ∧ (s.span x).2 ≤ s.clock
  below : ∀ x ∈ V, x ∉ s.stack.map Prod.fst → ∀ y ∈ V, V.idxOf x ≤ V.idxOf y →
    V.idxOf y ≤ (s.span x).2 → Anc up x y
  nested : ∀ x ∈ V, x ∉ s.stack.map Prod.fst → ∀ y ∈ V, Anc up x y → (s.span y).2 ≤ (s.span x).2

namespace SpanInv

variable {α : Type*} [DecidableEq α] {root : α} {up : α → Option α} {num : α → ℕ}
  {children : α → List α} {V : List α} {s : SpanWalk α} {st : List (α × List α)} {cs : List α} {b c : α}

theorem start (children : α → List α) : SpanInv up [root] (SpanWalk.start children root) := by
  refine ⟨rfl, fun x hx ↦ ?_, fun x hx hnot ↦ absurd hx hnot, fun x hx hnot ↦ absurd hx hnot,
    fun x hx hnot ↦ absurd hx hnot⟩
  rw [List.mem_singleton.1 hx, List.idxOf_cons_self]
  rfl

theorem push (ht : UpTree root up num children) (hi : SpanInv up V s)
    (hw : WalkInv root up children V s.stack) (hst : s.stack = (b, c :: cs) :: st) :
    SpanInv up (V ++ [c]) ⟨(c, children c) :: (b, cs) :: st, s.clock + 1,
      Function.update s.span c (s.clock + 1, (s.span c).2)⟩ := by
  rw [hst] at hw
  have hcV := (hw.next ht).1
  have hspan : ∀ x ∈ V, Function.update s.span c (s.clock + 1, (s.span c).2) x = s.span x :=
    fun x hx ↦ Function.update_of_ne (show x ≠ c from fun h ↦ hcV (h ▸ hx)) _ _
  have hidx : ∀ x ∈ V, (V ++ [c]).idxOf x = V.idxOf x := fun x hx ↦ WalkInv.idxOf_push hx
  have hidxc : (V ++ [c]).idxOf c = V.length := WalkInv.idxOf_new hcV
  have hleft : ∀ x ∈ V ++ [c], x ∉ c :: b :: st.map Prod.fst →
      x ∈ V ∧ x ∉ s.stack.map Prod.fst := by
    intro x hx hnot
    obtain ⟨hxc, hxs⟩ := not_or.1 (List.mem_cons.not.1 hnot)
    exact ⟨(List.mem_append.1 hx).resolve_right fun h ↦ hxc (List.mem_singleton.1 h), hst ▸ hxs⟩
  refine ⟨by simp [hi.clock], fun x hx ↦ ?_, fun x hx hnot ↦ ?_, fun x hx hnot y hy ↦ ?_,
    fun x hx hnot y hy hanc ↦ ?_⟩
  · show (Function.update s.span c (s.clock + 1, (s.span c).2) x).1 = _
    rcases List.mem_append.1 hx with hx | hx
    · rw [hspan x hx, hidx x hx, hi.starts x hx]
    · rw [List.mem_singleton.1 hx, Function.update_self, hidxc, hi.clock]
  · obtain ⟨hxV, hxs⟩ := hleft x hx hnot
    obtain ⟨h₁, h₂⟩ := hi.stops x hxV hxs
    show _ ≤ (Function.update s.span c (s.clock + 1, (s.span c).2) x).2 ∧
      (Function.update s.span c (s.clock + 1, (s.span c).2) x).2 ≤ s.clock + 1
    rw [hspan x hxV, hidx x hxV]
    exact ⟨h₁, by omega⟩
  · obtain ⟨hxV, hxs⟩ := hleft x hx hnot
    show _ → _ ≤ (Function.update s.span c (s.clock + 1, (s.span c).2) x).2 → _
    rw [hspan x hxV, hidx x hxV]
    rcases List.mem_append.1 hy with hy | hy
    · rw [hidx y hy]
      exact hi.below x hxV hxs y hy
    · -- the new node comes after all the spans
      rw [List.mem_singleton.1 hy, hidxc, hi.clock]
      intro _ hle
      have := (hi.stops x hxV hxs).2
      omega
  · obtain ⟨hxV, hxs⟩ := hleft x hx hnot
    rcases List.mem_append.1 hy with hy | hy
    · show (Function.update s.span c (s.clock + 1, (s.span c).2) y).2 ≤
        (Function.update s.span c (s.clock + 1, (s.span c).2) x).2
      rw [hspan x hxV, hspan y hy]
      exact hi.nested x hxV hxs y hy hanc
    · rw [List.mem_singleton.1 hy] at hanc
      rw [hst] at hxs
      exact absurd hanc (hw.not_above_next ht hxV hxs)

theorem leave (ht : UpTree root up num children) (hi : SpanInv up V s)
    (hw : WalkInv root up children V s.stack) (hst : s.stack = (b, []) :: st) :
    SpanInv up V { s with stack := st, span := Function.update s.span b ((s.span b).1, s.clock) } := by
  rw [hst] at hw
  have hbV : b ∈ V := hw.mem_of_stack List.mem_cons_self
  have hle : ∀ x ∈ V, V.idxOf x ≤ s.clock := fun x hx ↦ by
    have := List.idxOf_lt_length_of_mem hx
    have := hi.clock
    omega
  have hself : Function.update s.span b ((s.span b).1, s.clock) b = ((s.span b).1, s.clock) :=
    Function.update_self ..
  have hother : ∀ {x}, x ≠ b → Function.update s.span b ((s.span b).1, s.clock) x = s.span x :=
    fun h ↦ Function.update_of_ne h _ _
  have hleft : ∀ {x}, x ≠ b → x ∉ st.map Prod.fst → x ∉ s.stack.map Prod.fst := by
    intro x hxb hnot
    rw [hst]
    exact List.mem_cons.not.2 (not_or.2 ⟨hxb, hnot⟩)
  refine ⟨hi.clock, fun x hx ↦ ?_, fun x hx hnot ↦ ?_, fun x hx hnot y hy ↦ ?_,
    fun x hx hnot y hy hanc ↦ ?_⟩
  · show (Function.update s.span b ((s.span b).1, s.clock) x).1 = _
    by_cases hxb : x = b
    · rw [hxb, hself]
      exact hi.starts b hbV
    · rw [hother hxb]
      exact hi.starts x hx
  · show _ ≤ (Function.update s.span b ((s.span b).1, s.clock) x).2 ∧
      (Function.update s.span b ((s.span b).1, s.clock) x).2 ≤ s.clock
    by_cases hxb : x = b
    · rw [hxb, hself]
      exact ⟨hle b hbV, le_rfl⟩
    · rw [hother hxb]
      exact hi.stops x hx (hleft hxb hnot)
  · show _ → _ ≤ (Function.update s.span b ((s.span b).1, s.clock) x).2 → _
    by_cases hxb : x = b
    · -- all that has been visited since is below
      rw [hxb]
      exact fun hby _ ↦ hw.below b List.mem_cons_self y hy hby
    · rw [hother hxb]
      exact hi.below x hx (hleft hxb hnot) y hy
  · show (Function.update s.span b ((s.span b).1, s.clock) y).2 ≤
      (Function.update s.span b ((s.span b).1, s.clock) x).2
    by_cases hyb : y = b
    · -- what is above a node on the stack has not been left
      by_cases hxb : x = b
      · rw [hyb, hxb]
      · have hxs := hleft hxb hnot
        rw [hst] at hxs
        exact absurd List.mem_cons_self (hyb ▸ (hw.left_of_anc ht hanc hx hxs).2)
    · rw [hother hyb]
      by_cases hxb : x = b
      · rw [hxb, hself]
        have hw' := hw.leave ht
        have hys := (hw'.left_of_anc ht hanc hx hnot).2
        exact (hi.stops y hy (hleft hyb hys)).2
      · rw [hother hxb]
        exact hi.nested x hx (hleft hxb hnot) y hy hanc

end SpanInv

/-! ### The walk ends -/

section
variable {α : Type*} [DecidableEq α] {children : α → List α} {s : SpanWalk α} {n m : ℕ}

/-- More fuel gives the same end. -/
theorem SpanWalk.run_mono (hnm : n ≤ m) {r : SpanWalk α} (h : SpanWalk.run children n s = some r) :
    SpanWalk.run children m s = some r := by
  induction n generalizing s m with
  | zero => cases h
  | succ n ih =>
    obtain ⟨m, rfl⟩ : ∃ k, m = k + 1 := ⟨m - 1, by omega⟩
    unfold SpanWalk.run at h ⊢
    split at h
    · exact h
    · exact ih (by omega) h

theorem spans_mono {root : α} (hnm : n ≤ m) {span : α → ℕ × ℕ}
    (h : spans children root n = some span) : spans children root m = some span := by
  obtain ⟨r, hr, rfl⟩ := Option.map_eq_some_iff.1 h
  rw [spans, SpanWalk.run_mono hnm hr, Option.map_some]

end

section
variable {α : Type*} [DecidableEq α] {root : α} {up : α → Option α} {num : α → ℕ}
  {children : α → List α} {V : List α} {s : SpanWalk α} {M : Finset α}

/-- The steps left. -/
def spanWork (children : α → List α) (M : Finset α) (V : List α) (stack : List (α × List α)) : ℕ :=
  ∑ x ∈ M.filter (· ∉ V), ((children x).length + 1) + (stack.map fun e ↦ e.2.length + 1).sum

theorem run_of_spanWork (ht : UpTree root up num children) (hM : ∀ x y, up x = some y → y ∈ M → x ∈ M)
    (hw : WalkInv root up children V s.stack) (hi : SpanInv up V s) (hV : ∀ x ∈ V, x ∈ M) {n : ℕ}
    (hn : spanWork children M V s.stack < n) :
    ∃ r V', WalkInv root up children V' [] ∧ SpanInv up V' r ∧ r.stack = [] ∧
      ∀ fuel, n ≤ fuel → SpanWalk.run children fuel s = some r := by
  induction n generalizing s V with
  | zero => omega
  | succ n ih =>
    have hrun : ∀ {s' r : SpanWalk α}, s.step children = some s' →
        (∀ fuel, n ≤ fuel → SpanWalk.run children fuel s' = some r) →
        ∀ fuel, n + 1 ≤ fuel → SpanWalk.run children fuel s = some r := by
      intro s' r hs hr fuel hfuel
      obtain ⟨k, rfl⟩ : ∃ k, fuel = k + 1 := ⟨fuel - 1, by omega⟩
      simp only [SpanWalk.run, hs]
      exact hr k (by omega)
    rcases hst : s.stack with _ | ⟨⟨b, _ | ⟨c, cs⟩⟩, st⟩
    · refine ⟨s, V, hst ▸ hw, hi, hst, fun fuel hfuel ↦ ?_⟩
      obtain ⟨k, rfl⟩ : ∃ k, fuel = k + 1 := ⟨fuel - 1, by omega⟩
      simp only [SpanWalk.run, SpanWalk.step, hst]
    · have hwork : spanWork children M V st < n := by
        simp only [spanWork, hst, List.map_cons, List.sum_cons, List.length_nil] at hn ⊢
        omega
      obtain ⟨r, V', hr₁, hr₂, hr₃, hr₄⟩ := ih ((hst ▸ hw).leave ht) (hi.leave ht hw hst) hV hwork
      exact ⟨r, V', hr₁, hr₂, hr₃, hrun (by simp only [SpanWalk.step, hst]) hr₄⟩
    · have hw' : WalkInv root up children V ((b, c :: cs) :: st) := hst ▸ hw
      obtain ⟨hcV, hcup⟩ := hw'.next ht
      have hcM : c ∈ M := hM c b hcup (hV b (hw'.mem_of_stack List.mem_cons_self))
      have hsum : ∑ x ∈ M.filter (· ∉ V), ((children x).length + 1) =
          (children c).length + 1 + ∑ x ∈ M.filter (· ∉ V ++ [c]), ((children x).length + 1) := by
        rw [← Finset.add_sum_erase _ _ (Finset.mem_filter.2 ⟨hcM, hcV⟩)]
        congr 2
        ext x
        simp only [Finset.mem_erase, Finset.mem_filter, List.mem_append, List.mem_singleton, not_or]
        tauto
      have hwork : spanWork children M (V ++ [c]) ((c, children c) :: (b, cs) :: st) < n := by
        simp only [spanWork, hsum, hst, List.map_cons, List.sum_cons, List.length_cons] at hn ⊢
        omega
      have hV' : ∀ x ∈ V ++ [c], x ∈ M := fun x hx ↦ by
        rcases List.mem_append.1 hx with hx | hx
        · exact hV x hx
        · exact List.mem_singleton.1 hx ▸ hcM
      obtain ⟨r, V', hr₁, hr₂, hr₃, hr₄⟩ := ih (hw'.push ht) (hi.push ht hw hst) hV' hwork
      exact ⟨r, V', hr₁, hr₂, hr₃, hrun (by simp only [SpanWalk.step, hst]) hr₄⟩

/-- **One node is above another iff its span contains the other's.** -/
theorem exists_spans (ht : UpTree root up num children) (hroot : root ∈ M)
    (hM : ∀ x y, up x = some y → (y ∈ M ↔ x ∈ M)) (hup : ∀ x ∈ M, Anc up root x) :
    ∃ span N, (∀ fuel, N ≤ fuel → spans children root fuel = some span) ∧
      ∀ d ∈ M, ∀ b ∈ M, Anc up d b ↔ (span d).1 ≤ (span b).1 ∧ (span b).2 ≤ (span d).2 := by
  obtain ⟨r, V, hw, hi, hstack, hrun⟩ := run_of_spanWork ht (fun x y h ↦ (hM x y h).1)
    (WalkInv.start ht) (SpanInv.start children) (fun x hx ↦ List.mem_singleton.1 hx ▸ hroot)
    (Nat.lt_succ_self _)
  refine ⟨r.span, _, fun fuel hfuel ↦ by rw [spans, hrun fuel hfuel]; rfl, fun d hd b hb ↦ ?_⟩
  have hall : ∀ x ∈ M, x ∈ V := fun x hx ↦
    (hw.left_of_anc ht (hup x hx) hw.root_mem List.not_mem_nil).1
  have hout : ∀ x, x ∉ r.stack.map Prod.fst := fun x hx ↦ by
    rw [hstack] at hx
    cases hx
  rw [hi.starts d (hall d hd), hi.starts b (hall b hb)]
  constructor
  · intro h
    exact ⟨(hw.mem_of_anc h (hall b hb)).2, hi.nested d (hall d hd) (hout d) b (hall b hb) h⟩
  · rintro ⟨hle, hle'⟩
    refine hi.below d (hall d hd) (hout d) b (hall b hb) hle ?_
    exact (hi.stops b (hall b hb) (hout b)).1.trans hle'

end

end CoilLang
