import Mathlib.Algebra.Group.Nat.Defs
import Mathlib.Data.Finset.Insert
import Mathlib.Logic.Function.Basic

/-!
# A stack with inline storage

`ArrayVec` keeps its first `N` elements in an inline array and the rest in a vector that **grows by `N` at a
time**. Its cursor is a number of its own: `seek` and a mutable index may move it any distance. What it is for
is the other half of this module, `Cursor`: a position in a sequence that has no end and holds the default
wherever nothing was written.

A write lands outside the vector when one growth does not reach it. `run_refines_iff` says that a run agrees
with the sequence exactly when every step stays **near** the elements already stored.
-/

namespace CoilLang

/-- The number of values of a `usize`. -/
def usizeCount : ℕ := 2 ^ 64

structure ArrayVec (α : Type) (N : ℕ) where
  current : ℕ
  storage : List α
  expansion : List α
  inline : storage.length = N

/-- What a client does with the vector; a reference `&mut T` is the function it applies to the element. -/
inductive ArrayVec.Action (α : Type)
  | push (value : α)
  | pop
  | get
  | getMut (f : α → α)
  | current
  | currentMut (f : α → α)
  | consume
  | setupCurrentAndAdvance (setup : α → α)
  | rewriteTopAndPush (maxLen : UInt64) (rewriteTop setupNew : α → α)
  | seek (value : UInt64)
  | clear
  | index (i : UInt64)
  | indexMut (i : UInt64) (f : α → α)
  | iter

/-- What a client sees: the elements it was given, the flag returned, the length. -/
structure ArrayVec.Output (α : Type) where
  seen : List α := []
  ok : Bool := true
  len : ℕ
  deriving DecidableEq

namespace ArrayVec

variable {α : Type} [Inhabited α] {N : ℕ}

instance : Inhabited (ArrayVec α N) :=
  ⟨0, List.replicate N default, [], List.length_replicate⟩

/-! ### The vector

`none` is an index outside the array or the vector. -/

/-- Room for `N` more elements when the cursor is past the end. -/
def grow (v : ArrayVec α N) (cursor : ℕ) : ArrayVec α N :=
  if v.expansion.length ≤ cursor then
    { v with expansion := v.expansion ++ List.replicate N default }
  else v

/-- The element at a position. -/
def read (v : ArrayVec α N) (i : ℕ) : Option α :=
  if i < N then v.storage[i]? else v.expansion[i - N]?

def write (v : ArrayVec α N) (i : ℕ) (x : α) : ArrayVec α N :=
  if i < N then { v with storage := v.storage.set i x, inline := by rw [List.length_set, v.inline] }
  else { v with expansion := v.expansion.set (i - N) x }

/-- The element at a position, as a mutable reference that `f` is applied to. -/
def slotMut (v : ArrayVec α N) (i : ℕ) (f : α → α) : Option (α × ArrayVec α N) :=
  let v := if i < N then v else v.grow (i - N)
  (v.read i).map fun x ↦ (x, v.write i (f x))

def wrapSucc (n : ℕ) : ℕ := (n + 1) % usizeCount

def currentMut (v : ArrayVec α N) (f : α → α) : Option (α × ArrayVec α N) := v.slotMut v.current f

def consume (v : ArrayVec α N) : ArrayVec α N := { v with current := wrapSucc v.current }

def setupCurrentAndAdvance (v : ArrayVec α N) (setup : α → α) : Option (α × ArrayVec α N) :=
  (v.currentMut setup).map fun r ↦ (r.1, r.2.consume)

def getMut (v : ArrayVec α N) (f : α → α) : Option (α × ArrayVec α N) :=
  if v.current = 0 then none else v.slotMut (v.current - 1) f

/-- The elements seen, and whether the new one was pushed. While both are inline the limit is not asked for. -/
def rewriteTopAndPush (v : ArrayVec α N) (maxLen : ℕ) (rewriteTop setupNew : α → α) :
    Option (List α × Bool × ArrayVec α N) :=
  if N ≤ v.current ∧ maxLen ≤ v.current then some ([], false, v)
  else
    (v.getMut rewriteTop).bind fun r ↦
      (r.2.setupCurrentAndAdvance setupNew).map fun r' ↦ ([r.1, r'.1], true, r'.2)

def push (v : ArrayVec α N) (value : α) : Option (ArrayVec α N) :=
  ({ v with current := wrapSucc v.current }.slotMut v.current fun _ ↦ value).map Prod.snd

def pop (v : ArrayVec α N) : Option (α × ArrayVec α N) :=
  if v.current = 0 then none
  else (v.read (v.current - 1)).map fun x ↦ (x, { v with current := v.current - 1 })

def get (v : ArrayVec α N) : Option α := if v.current = 0 then none else v.read (v.current - 1)

def indexMut (v : ArrayVec α N) (i : ℕ) (f : α → α) : Option (α × ArrayVec α N) :=
  { v with current := max v.current (wrapSucc i) }.slotMut i f

def iter (v : ArrayVec α N) : Option (List α) := (List.range v.current).mapM v.read

def step (v : ArrayVec α N) : Action α → Option (ArrayVec α N × Output α)
  | .push value => (v.push value).map fun v' ↦ (v', { len := v'.current })
  | .pop => v.pop.map fun r ↦ (r.2, { seen := [r.1], len := r.2.current })
  | .get => v.get.map fun x ↦ (v, { seen := [x], len := v.current })
  | .getMut f => (v.getMut f).map fun r ↦ (r.2, { seen := [r.1], len := r.2.current })
  | .current => (v.read v.current).map fun x ↦ (v, { seen := [x], len := v.current })
  | .currentMut f => (v.currentMut f).map fun r ↦ (r.2, { seen := [r.1], len := r.2.current })
  | .consume => some (v.consume, { len := v.consume.current })
  | .setupCurrentAndAdvance f =>
    (v.setupCurrentAndAdvance f).map fun r ↦ (r.2, { seen := [r.1], len := r.2.current })
  | .rewriteTopAndPush maxLen f g =>
    (v.rewriteTopAndPush maxLen.toNat f g).map fun r ↦
      (r.2.2, { seen := r.1, ok := r.2.1, len := r.2.2.current })
  | .seek value => some ({ v with current := value.toNat }, { len := value.toNat })
  | .clear => some ({ v with current := 0 }, { len := 0 })
  | .index i => (v.read i.toNat).map fun x ↦ (v, { seen := [x], len := v.current })
  | .indexMut i f => (v.indexMut i.toNat f).map fun r ↦ (r.2, { seen := [r.1], len := r.2.current })
  | .iter => v.iter.map fun xs ↦ (v, { seen := xs, len := v.current })

/-- What a client sees along a run. -/
def run : ArrayVec α N → List (Action α) → Option (List (Output α))
  | _, [] => some []
  | v, a :: as => (v.step a).bind fun r ↦ (r.1.run as).map (r.2 :: ·)

end ArrayVec

/-! ### The sequence -/

/-- A cursor over a sequence without end, and the positions written so far. -/
structure Cursor (α : Type) where
  current : ℕ
  cells : ℕ → α
  written : Finset ℕ

namespace Cursor

open ArrayVec

variable {α : Type}

instance [Inhabited α] : Inhabited (Cursor α) := ⟨0, fun _ ↦ default, ∅⟩

def modify (c : Cursor α) (p : ℕ) (f : α → α) : Cursor α :=
  { c with cells := Function.update c.cells p (f (c.cells p)), written := insert p c.written }

def move (c : Cursor α) (p : ℕ) : Cursor α := { c with current := p }

/-- `none` where a client may not act so: it reads a position that was never written, or the top of an empty
stack. -/
def step (c : Cursor α) : Action α → Option (Cursor α × Output α)
  | .push value =>
    some ((c.modify c.current fun _ ↦ value).move (c.current + 1), { len := c.current + 1 })
  | .pop =>
    if 0 < c.current ∧ c.current - 1 ∈ c.written then
      some (c.move (c.current - 1), { seen := [c.cells (c.current - 1)], len := c.current - 1 })
    else none
  | .get =>
    if 0 < c.current ∧ c.current - 1 ∈ c.written then
      some (c, { seen := [c.cells (c.current - 1)], len := c.current })
    else none
  | .getMut f =>
    if 0 < c.current then
      some (c.modify (c.current - 1) f, { seen := [c.cells (c.current - 1)], len := c.current })
    else none
  | .current =>
    if c.current ∈ c.written then some (c, { seen := [c.cells c.current], len := c.current }) else none
  | .currentMut f => some (c.modify c.current f, { seen := [c.cells c.current], len := c.current })
  | .consume => some (c.move (c.current + 1), { len := c.current + 1 })
  | .setupCurrentAndAdvance f =>
    some ((c.modify c.current f).move (c.current + 1),
      { seen := [c.cells c.current], len := c.current + 1 })
  | .rewriteTopAndPush maxLen f g =>
    if c.current = 0 then none
    else if maxLen.toNat ≤ c.current then some (c, { ok := false, len := c.current })
    else
      some (((c.modify (c.current - 1) f).modify c.current g).move (c.current + 1),
        { seen := [c.cells (c.current - 1), c.cells c.current], len := c.current + 1 })
  | .seek value => some (c.move value.toNat, { len := value.toNat })
  | .clear => some (c.move 0, { len := 0 })
  | .index i =>
    if i.toNat ∈ c.written then some (c, { seen := [c.cells i.toNat], len := c.current }) else none
  | .indexMut i f =>
    some ((c.modify i.toNat f).move (max c.current (i.toNat + 1)),
      { seen := [c.cells i.toNat], len := max c.current (i.toNat + 1) })
  | .iter =>
    if ∀ p < c.current, p ∈ c.written then
      some (c, { seen := (List.range c.current).map c.cells, len := c.current })
    else none

def run : Cursor α → List (Action α) → Option (List (Output α))
  | _, [] => some []
  | c, a :: as => (c.step a).bind fun r ↦ (r.1.run as).map (r.2 :: ·)

end Cursor

namespace ArrayVec

/-! ### Near steps -/

section Near

variable {α : Type} {N : ℕ}

/-- The number of elements there is room for. -/
def backing (v : ArrayVec α N) : ℕ := N + v.expansion.length

/-- One growth reaches the position. -/
def Within (v : ArrayVec α N) (p : ℕ) : Prop := p < v.backing + N

/-- The cursor can be advanced past the position. -/
def Below (p : ℕ) : Prop := p + 1 < usizeCount

/-- A step writes less than `N` past the room there is, does not advance the cursor past the largest `usize`,
and does not ask an inline stack to keep a limit. -/
def Near (v : ArrayVec α N) : Action α → Prop
  | .push _ | .setupCurrentAndAdvance _ => v.Within v.current ∧ Below v.current
  | .currentMut _ => v.Within v.current
  | .getMut _ => v.Within (v.current - 1)
  | .consume => Below v.current
  | .rewriteTopAndPush maxLen _ _ =>
    (v.current < maxLen.toNat → v.Within (v.current - 1) ∧ Below v.current) ∧
      (v.current < N → v.current < maxLen.toNat)
  | .indexMut i _ => v.Within i.toNat ∧ Below i.toNat
  | .pop | .get | .current | .seek _ | .clear | .index _ | .iter => True

end Near

variable {α : Type} {N : ℕ} {v v' : ArrayVec α N} {c c' : Cursor α}

/-- Every step of a run is near. -/
def AllNear [Inhabited α] : ArrayVec α N → List (Action α) → Prop
  | _, [] => True
  | v, a :: as => v.Near a ∧ ∀ r, v.step a = some r → r.1.AllNear as

/-! ### Stored elements -/

theorem read_eq_none {p : ℕ} (hp : v.backing ≤ p) : v.read p = none := by
  rw [backing] at hp
  rw [read, if_neg (by omega)]
  exact List.getElem?_eq_none (by omega)

@[simp] theorem write_current (i : ℕ) (x : α) : (v.write i x).current = v.current := by
  rw [write]
  split <;> rfl

@[simp] theorem write_backing (i : ℕ) (x : α) : (v.write i x).backing = v.backing := by
  rw [write]
  split
  · rfl
  · exact congrArg (N + ·) List.length_set

theorem read_write {i p : ℕ} (x : α) (hi : i < v.backing) :
    (v.write i x).read p = if p = i then some x else v.read p := by
  have hN := v.inline
  rw [backing] at hi
  rw [write]
  split
  · rename_i hiN
    rw [read, read]
    dsimp only
    rw [List.getElem?_set]
    by_cases hp : p = i
    · subst hp
      simp [hiN, hN]
    · simp [hp, Ne.symm hp]
  · rename_i hiN
    rw [read, read]
    dsimp only
    rw [List.getElem?_set]
    by_cases hp : p = i
    · subst hp
      simp [hiN, show p - N < v.expansion.length by omega]
    · have hne : p < N ∨ i - N ≠ p - N := by omega
      rcases hne with hlt | hne
      · simp [hlt, hp]
      · simp [hne, hp]

variable [Inhabited α]

/-- The elements stored are those of the sequence, and nothing was written past them. -/
structure Cells (v : ArrayVec α N) (c : Cursor α) : Prop where
  stored : ∀ p < v.backing, v.read p = some (c.cells p)
  rest : ∀ p, v.backing ≤ p → c.cells p = default ∧ p ∉ c.written

theorem Cells.read {p : ℕ} (h : Cells v c) (hp : p ∈ c.written) : v.read p = some (c.cells p) :=
  h.stored p (Nat.lt_of_not_le fun hle ↦ (h.rest p hle).2 hp)

theorem grow_current (k : ℕ) : (v.grow k).current = v.current := by
  rw [grow]
  split <;> rfl

theorem Cells.grow (h : Cells v c) (k : ℕ) : Cells (v.grow k) c := by
  rw [ArrayVec.grow]
  split
  · have hback : ({ v with expansion := v.expansion ++ List.replicate N default } : ArrayVec α N).backing =
        v.backing + N := by
      simp [backing, Nat.add_assoc]
    refine ⟨fun p hp ↦ ?_, fun p hp ↦ h.rest p (by omega)⟩
    rw [hback] at hp
    by_cases hpb : p < v.backing
    · rw [← h.stored p hpb, ArrayVec.read, ArrayVec.read]
      dsimp only
      rw [backing] at hpb
      split
      · rfl
      · exact List.getElem?_append_left (by omega)
    · rw [(h.rest p (by omega)).1, ArrayVec.read]
      rw [backing] at hp hpb
      dsimp only
      rw [if_neg (by omega), List.getElem?_append_right (by omega), List.getElem?_replicate, if_pos (by omega)]
  · exact h

/-- The vector that a write at `p` works on has room for it exactly when `p` is within one growth. -/
theorem lt_backing_grow_iff {p : ℕ} : (p < (if p < N then v else v.grow (p - N)).backing) ↔ v.Within p := by
  rw [Within, grow]
  split
  · rw [backing]
    omega
  · split
    · have hback : ({ v with expansion := v.expansion ++ List.replicate N default } : ArrayVec α N).backing =
          v.backing + N := by
        simp [backing, Nat.add_assoc]
      rw [hback]
    · rw [backing]
      omega

theorem Cells.modify {p : ℕ} (h : Cells v c) (hp : p < v.backing) (f : α → α) :
    Cells (v.write p (f (c.cells p))) (c.modify p f) := by
  refine ⟨fun q hq ↦ ?_, fun q hq ↦ ?_⟩
  · rw [write_backing] at hq
    rw [read_write _ hp, Cursor.modify]
    dsimp only
    by_cases hqp : q = p
    · rw [hqp, if_pos rfl, Function.update_self]
    · rw [if_neg hqp, Function.update_of_ne hqp, h.stored q hq]
  · rw [write_backing] at hq
    have hqp : q ≠ p := by omega
    obtain ⟨hdef, hnot⟩ := h.rest q hq
    rw [Cursor.modify]
    exact ⟨(Function.update_of_ne hqp _ _).trans hdef, fun hmem ↦
      (Finset.mem_insert.mp hmem).elim hqp hnot⟩

theorem slotMut_within {p : ℕ} (h : Cells v c) (hp : v.Within p) (f : α → α) :
    ∃ v', v.slotMut p f = some (c.cells p, v') ∧ v'.current = v.current ∧ p < v'.backing ∧
      Cells v' (c.modify p f) := by
  rw [slotMut]
  have hw : Cells (if p < N then v else v.grow (p - N)) c := by
    split
    · exact h
    · exact h.grow _
  have hcur : (if p < N then v else v.grow (p - N)).current = v.current := by
    split
    · rfl
    · exact grow_current _
  have hlt := lt_backing_grow_iff.mpr hp
  refine ⟨_, by rw [hw.stored p hlt]; rfl, ?_, ?_, hw.modify hlt f⟩
  · rw [write_current, hcur]
  · rwa [write_backing]

theorem slotMut_current {p : ℕ} {f : α → α} {r : α × ArrayVec α N} (h : v.slotMut p f = some r) :
    r.2.current = v.current := by
  rw [slotMut] at h
  obtain ⟨x, -, rfl⟩ := Option.map_eq_some_iff.mp h
  rw [write_current]
  split
  · rfl
  · exact grow_current _

theorem slotMut_beyond {p : ℕ} (hp : ¬ v.Within p) (f : α → α) : v.slotMut p f = none := by
  have hle : (if p < N then v else v.grow (p - N)).backing ≤ p :=
    Nat.le_of_not_lt fun hlt ↦ hp (lt_backing_grow_iff.mp hlt)
  rw [slotMut, read_eq_none hle]
  rfl

/-! ### Steps and runs -/

theorem wrapSucc_of_below {n : ℕ} (h : Below n) : wrapSucc n = n + 1 := Nat.mod_eq_of_lt h

theorem usizeCount_pos : 0 < usizeCount := Nat.two_pow_pos 64

theorem wrapSucc_lt (n : ℕ) : wrapSucc n < usizeCount := Nat.mod_lt _ usizeCount_pos

theorem wrapSucc_ne {n m : ℕ} (h : ¬ Below n) (hm : n + 1 ≤ m) : wrapSucc n ≠ m := by
  have hlt := wrapSucc_lt n
  rw [Below] at h
  omega

/-- The vector stands for the sequence. -/
structure Refines (v : ArrayVec α N) (c : Cursor α) : Prop where
  current : v.current = c.current
  cells : Cells v c
  usize : v.current < usizeCount

theorem refines_default : Refines (default : ArrayVec α N) (default : Cursor α) := by
  refine ⟨rfl, ⟨fun p hp ↦ ?_, fun p _ ↦ ⟨rfl, Finset.notMem_empty p⟩⟩, usizeCount_pos⟩
  have hpN : p < N := hp
  show (if p < N then (List.replicate N default)[p]? else _) = _
  rw [if_pos hpN, List.getElem?_replicate, if_pos hpN]
  rfl

theorem Cells.move (h : Cells v c) (n k : ℕ) : Cells { v with current := n } (c.move k) :=
  ⟨h.stored, h.rest⟩

omit [Inhabited α] in
theorem mapM_read {g : ℕ → α} {ps : List ℕ} (h : ∀ p ∈ ps, v.read p = some (g p)) :
    ps.mapM v.read = some (ps.map g) := by
  induction ps with
  | nil => rfl
  | cons p ps ih =>
    rw [List.mapM_cons, h p List.mem_cons_self, ih fun q hq ↦ h q (List.mem_cons_of_mem _ hq)]
    rfl

/-- A near step of the vector is the step of the sequence. -/
theorem step_near (hN : 0 < N) (h : Refines v c) {a : Action α} {o : Output α} (hc : c.step a = some (c', o))
    (hn : v.Near a) : ∃ v', v.step a = some (v', o) ∧ Refines v' c' := by
  obtain ⟨hcur, hcells, husize⟩ := h
  cases a with
  | push value =>
    cases hc
    obtain ⟨hw, hb⟩ := hn
    obtain ⟨v', hv', hcur', -, hcells'⟩ := slotMut_within
      (hcells.move (wrapSucc v.current) c.current) (v := { v with current := wrapSucc v.current }) hw
      fun _ ↦ value
    have hlen : v'.current = c.current + 1 := by rw [hcur', ← hcur, ← wrapSucc_of_below hb]
    rw [← hcur] at hcells' ⊢
    refine ⟨v', ?_, ?_, ⟨hcells'.stored, hcells'.rest⟩, ?_⟩
    · rw [ArrayVec.step, ArrayVec.push, hv']
      show some (v', _) = _
      rw [hlen, hcur]
    · rw [hlen, hcur]
      rfl
    · rw [hlen, ← hcur]
      exact hb
  | pop =>
    rw [Cursor.step] at hc
    split at hc
    · rename_i hpos
      cases hc
      refine ⟨{ v with current := v.current - 1 }, ?_, ?_, hcells.move _ _, Nat.lt_of_le_of_lt (Nat.sub_le _ _) husize⟩
      · rw [ArrayVec.step, ArrayVec.pop, if_neg (by omega), hcur, hcells.read hpos.2]
        rfl
      · show v.current - 1 = c.current - 1
        rw [hcur]
    · cases hc
  | get =>
    rw [Cursor.step] at hc
    split at hc
    · rename_i hpos
      cases hc
      refine ⟨v, ?_, hcur, hcells, husize⟩
      rw [ArrayVec.step, ArrayVec.get, if_neg (by omega), hcur, hcells.read hpos.2]
      rfl
    · cases hc
  | getMut f =>
    rw [Cursor.step] at hc
    split at hc
    · rename_i hpos
      cases hc
      obtain ⟨v', hv', hcur', -, hcells'⟩ := slotMut_within hcells hn f
      rw [hcur] at hcur' hcells'
      refine ⟨v', ?_, hcur', hcells', by omega⟩
      rw [ArrayVec.step, ArrayVec.getMut, if_neg (by omega), hv']
      show some (v', _) = _
      rw [hcur', hcur]
    · cases hc
  | current =>
    rw [Cursor.step] at hc
    split at hc
    · rename_i hw
      cases hc
      refine ⟨v, ?_, hcur, hcells, husize⟩
      rw [ArrayVec.step, hcur, hcells.read hw]
      rfl
    · cases hc
  | currentMut f =>
    cases hc
    obtain ⟨v', hv', hcur', -, hcells'⟩ := slotMut_within hcells hn f
    rw [hcur] at hcur' hcells'
    refine ⟨v', ?_, hcur', hcells', by omega⟩
    rw [ArrayVec.step, ArrayVec.currentMut, hv']
    show some (v', _) = _
    rw [hcur', hcur]
  | consume =>
    cases hc
    have hlen : v.consume.current = c.current + 1 := by
      rw [← hcur]
      exact wrapSucc_of_below hn
    refine ⟨v.consume, ?_, hlen, hcells.move _ _, wrapSucc_lt _⟩
    rw [ArrayVec.step, hlen]
  | setupCurrentAndAdvance f =>
    cases hc
    obtain ⟨hw, hb⟩ := hn
    obtain ⟨v', hv', hcur', -, hcells'⟩ := slotMut_within hcells hw f
    have hlen : v'.consume.current = c.current + 1 := by
      show wrapSucc v'.current = _
      rw [hcur', wrapSucc_of_below hb, hcur]
    rw [hcur] at hcells'
    refine ⟨v'.consume, ?_, hlen, hcells'.move _ _, wrapSucc_lt _⟩
    rw [ArrayVec.step, ArrayVec.setupCurrentAndAdvance, ArrayVec.currentMut, hv']
    show some (v'.consume, _) = _
    rw [hlen, hcur]
  | rewriteTopAndPush maxLen f g =>
    obtain ⟨hnear, hlimit⟩ := hn
    rw [Cursor.step] at hc
    split at hc
    · cases hc
    split at hc
    · rename_i hmax
      cases hc
      refine ⟨v, ?_, hcur, hcells, husize⟩
      have hinline : N ≤ v.current := Nat.le_of_not_lt fun hlt ↦ by
        have := hlimit hlt
        omega
      rw [ArrayVec.step, ArrayVec.rewriteTopAndPush, if_pos ⟨hinline, by omega⟩]
      show some (v, _) = _
      rw [hcur]
    · rename_i hpos hmax
      cases hc
      obtain ⟨hw, hb⟩ := hnear (by omega)
      obtain ⟨v₁, hv₁, hcur₁, hback₁, hcells₁⟩ := slotMut_within hcells hw f
      rw [hcur] at hcur₁ hcells₁ hv₁ hback₁ hb
      -- The new element is next to the one just written.
      have hw₁ : v₁.Within v₁.current := by
        rw [Within, hcur₁]
        omega
      obtain ⟨v₂, hv₂, hcur₂, -, hcells₂⟩ := slotMut_within hcells₁ hw₁ g
      rw [hcur₁] at hcells₂ hcur₂
      have hlen : v₂.consume.current = c.current + 1 := by
        show wrapSucc v₂.current = _
        rw [hcur₂, wrapSucc_of_below hb]
      have hsame : (c.modify (c.current - 1) f).cells c.current = c.cells c.current :=
        Function.update_of_ne (by omega) _ _
      refine ⟨v₂.consume, ?_, hlen, hcells₂.move _ _, wrapSucc_lt _⟩
      rw [ArrayVec.step, ArrayVec.rewriteTopAndPush, if_neg (by omega), ArrayVec.getMut, if_neg (by omega), hcur,
        hv₁, Option.bind_some, ArrayVec.setupCurrentAndAdvance, ArrayVec.currentMut, hv₂, hcur₁, hsame]
      show some (v₂.consume, _) = _
      rw [hlen]
  | seek value =>
    cases hc
    exact ⟨_, rfl, rfl, hcells.move _ _, value.toNat_lt⟩
  | clear =>
    cases hc
    exact ⟨_, rfl, rfl, hcells.move _ _, usizeCount_pos⟩
  | index i =>
    rw [Cursor.step] at hc
    split at hc
    · rename_i hw
      cases hc
      refine ⟨v, ?_, hcur, hcells, husize⟩
      rw [ArrayVec.step, hcells.read hw, hcur]
      rfl
    · cases hc
  | indexMut i f =>
    cases hc
    obtain ⟨hw, hb⟩ := hn
    obtain ⟨v', hv', hcur', -, hcells'⟩ := slotMut_within
      (hcells.move (max v.current (wrapSucc i.toNat)) c.current)
      (v := { v with current := max v.current (wrapSucc i.toNat) }) hw f
    have hlen : v'.current = max c.current (i.toNat + 1) := by
      rw [hcur', ← hcur, ← wrapSucc_of_below hb]
    refine ⟨v', ?_, hlen, ⟨hcells'.stored, hcells'.rest⟩, ?_⟩
    · rw [ArrayVec.step, ArrayVec.indexMut, hv']
      show some (v', _) = _
      rw [hlen]
      rfl
    · rw [hlen, ← hcur]
      exact max_lt husize hb
  | iter =>
    rw [Cursor.step] at hc
    split at hc
    · rename_i hall
      cases hc
      refine ⟨v, ?_, hcur, hcells, husize⟩
      have hreads : v.iter = some ((List.range c.current).map c.cells) := by
        rw [iter, hcur]
        exact mapM_read fun p hp ↦ hcells.read (hall p (List.mem_range.mp hp))
      rw [ArrayVec.step, hreads, hcur]
      rfl
    · cases hc

/-- A step that is not near ends outside the store, or shows something else than the sequence does. -/
theorem step_far (h : Refines v c) {a : Action α} {o : Output α} (hc : c.step a = some (c', o))
    (hn : ¬ v.Near a) : v.step a ≠ some (v', o) := by
  obtain ⟨hcur, hcells, husize⟩ := h
  cases a with
  | push value =>
    cases hc
    rw [Near, not_and_or] at hn
    intro hv
    rw [ArrayVec.step, ArrayVec.push] at hv
    by_cases hw : v.Within v.current
    · obtain ⟨v₁, hv₁, hcur₁, -⟩ := slotMut_within
        (hcells.move (wrapSucc v.current) c.current) (v := { v with current := wrapSucc v.current }) hw
        fun _ ↦ value
      rw [hv₁] at hv
      have hlen := congrArg Output.len (Prod.mk.inj (Option.some.inj hv)).2
      exact wrapSucc_ne (hn.resolve_left (not_not.mpr hw)) (Nat.le_refl _) (hcur₁.symm.trans (hlen.trans (by rw [hcur])))
    · rw [slotMut_beyond (v := { v with current := wrapSucc v.current }) hw] at hv
      cases hv
  | getMut f =>
    intro hv
    rw [ArrayVec.step, ArrayVec.getMut] at hv
    split at hv
    · cases hv
    · rw [slotMut_beyond hn] at hv
      cases hv
  | currentMut f =>
    rw [ArrayVec.step, ArrayVec.currentMut, slotMut_beyond hn]
    exact fun hv ↦ by cases hv
  | consume =>
    cases hc
    intro hv
    have hlen : wrapSucc v.current = c.current + 1 := congrArg Output.len (Prod.mk.inj (Option.some.inj hv)).2
    exact wrapSucc_ne hn (by rw [hcur]) hlen
  | setupCurrentAndAdvance f =>
    cases hc
    rw [Near, not_and_or] at hn
    intro hv
    rw [ArrayVec.step, ArrayVec.setupCurrentAndAdvance, ArrayVec.currentMut] at hv
    by_cases hw : v.Within v.current
    · obtain ⟨v₁, hv₁, hcur₁, -⟩ := slotMut_within hcells hw f
      rw [hv₁] at hv
      have hlen : wrapSucc v₁.current = c.current + 1 := congrArg Output.len (Prod.mk.inj (Option.some.inj hv)).2
      rw [hcur₁] at hlen
      exact wrapSucc_ne (hn.resolve_left (not_not.mpr hw)) (by rw [hcur]) hlen
    · rw [slotMut_beyond hw] at hv
      cases hv
  | rewriteTopAndPush maxLen f g =>
    intro hv
    rw [ArrayVec.step] at hv
    rw [Cursor.step] at hc
    split at hc
    · cases hc
    rename_i hpos
    by_cases hlimit : N ≤ v.current ∧ maxLen.toNat ≤ v.current
    · exact hn ⟨fun hlt ↦ by omega, fun hlt ↦ by omega⟩
    rw [ArrayVec.rewriteTopAndPush, if_neg hlimit, ArrayVec.getMut, if_neg (by omega)] at hv
    by_cases hw : v.Within (v.current - 1)
    · obtain ⟨v₁, hv₁, hcur₁, -, hcells₁⟩ := slotMut_within hcells hw f
      rw [hv₁, Option.bind_some, ArrayVec.setupCurrentAndAdvance, ArrayVec.currentMut] at hv
      cases hv₂ : v₁.slotMut v₁.current g with
      | none =>
        rw [hv₂] at hv
        cases hv
      | some r =>
        rw [hv₂] at hv
        split at hc
        · -- The sequence refuses where the inline stack pushes.
          cases hc
          have hok := congrArg Output.ok (Prod.mk.inj (Option.some.inj hv)).2
          cases hok
        · rename_i hmax
          cases hc
          have hb : ¬ Below v.current := fun hb ↦ hn ⟨fun _ ↦ ⟨hw, hb⟩, fun _ ↦ by omega⟩
          have hlen : wrapSucc r.2.current = c.current + 1 := congrArg Output.len (Prod.mk.inj (Option.some.inj hv)).2
          have hr : r.2.current = v.current := by
            rw [← hcur₁]
            exact slotMut_current hv₂
          rw [hr] at hlen
          exact wrapSucc_ne hb (by rw [hcur]) hlen
    · rw [slotMut_beyond hw] at hv
      cases hv
  | indexMut i f =>
    cases hc
    rw [Near, not_and_or] at hn
    intro hv
    rw [ArrayVec.step, ArrayVec.indexMut] at hv
    by_cases hw : v.Within i.toNat
    · obtain ⟨v₁, hv₁, hcur₁, -⟩ := slotMut_within
        (hcells.move (max v.current (wrapSucc i.toNat)) c.current)
        (v := { v with current := max v.current (wrapSucc i.toNat) }) hw f
      rw [hv₁] at hv
      have hlen := congrArg Output.len (Prod.mk.inj (Option.some.inj hv)).2
      have hlen' : max v.current (wrapSucc i.toNat) = max c.current (i.toNat + 1) := hcur₁.symm.trans hlen
      have hlt : max v.current (wrapSucc i.toNat) < usizeCount := max_lt husize (wrapSucc_lt _)
      have hge : ¬ i.toNat + 1 < usizeCount := hn.resolve_left (not_not.mpr hw)
      omega
    · rw [slotMut_beyond (v := { v with current := max v.current (wrapSucc i.toNat) }) hw] at hv
      cases hv
  | pop | get | current | seek value | clear | index i | iter => exact absurd trivial hn

theorem run_iff (hN : 0 < N) (h : Refines v c) {as : List (Action α)} {os : List (Output α)}
    (hc : c.run as = some os) : v.run as = some os ↔ v.AllNear as := by
  induction as generalizing v c os with
  | nil =>
    cases hc
    exact ⟨fun _ ↦ trivial, fun _ ↦ rfl⟩
  | cons a as ih =>
    rw [Cursor.run] at hc
    obtain ⟨⟨c', o⟩, hstep, hrest⟩ := Option.bind_eq_some_iff.mp hc
    obtain ⟨os', hos', rfl⟩ := Option.map_eq_some_iff.mp hrest
    rw [run, AllNear]
    constructor
    · intro hv
      obtain ⟨⟨v', o'⟩, hv', hvrest⟩ := Option.bind_eq_some_iff.mp hv
      obtain ⟨os₁, hos₁, heq⟩ := Option.map_eq_some_iff.mp hvrest
      obtain ⟨rfl, rfl⟩ := List.cons.inj heq
      have hnear : v.Near a := not_not.mp fun hfar ↦ step_far h hstep hfar hv'
      obtain ⟨v₁, hv₁, href⟩ := step_near hN h hstep hnear
      rw [hv'] at hv₁
      cases hv₁
      refine ⟨hnear, fun r hr ↦ ?_⟩
      rw [hv'] at hr
      cases hr
      exact (ih href hos').mp hos₁
    · rintro ⟨hnear, hall⟩
      obtain ⟨v', hv', href⟩ := step_near hN h hstep hnear
      rw [hv', Option.bind_some, (ih href hos').mpr (hall _ hv')]
      rfl

/-- **A run from the empty vector shows what the sequence shows, and stays inside the store, exactly when all
its steps are near.** -/
theorem run_refines_iff (hN : 0 < N) (as : List (Action α)) (os : List (Output α))
    (hc : (default : Cursor α).run as = some os) :
    (default : ArrayVec α N).run as = some os ↔ (default : ArrayVec α N).AllNear as :=
  run_iff hN refines_default hc

/-- A spilled element, written and read back. -/
theorem spilled_near :
    (default : ArrayVec ℕ 2).AllNear [.seek 2, .push 7, .pop] :=
  (run_refines_iff (by decide) [.seek 2, .push 7, .pop] [{ len := 2 }, { len := 3 }, { seen := [7], len := 2 }]
    rfl).mp rfl

/-- After a seek past the next growth, the element at the cursor is outside the store. -/
theorem seek_beyond_growth : ¬ ∀ (N : ℕ) (as : List (Action ℕ)) (os : List (Output ℕ)), 0 < N →
    (default : Cursor ℕ).run as = some os → (default : ArrayVec ℕ N).run as = some os := by
  intro h
  have hrun := h 1 [.seek 2, .currentMut id] [{ len := 2 }, { seen := [0], len := 2 }] (by decide) rfl
  have hnone : (default : ArrayVec ℕ 1).run [.seek 2, .currentMut id] = none := rfl
  rw [hnone] at hrun
  cases hrun

end ArrayVec

end CoilLang
