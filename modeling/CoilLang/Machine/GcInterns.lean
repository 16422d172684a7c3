import CoilLang.Machine.GcSweep
import CoilLang.Machine.TableRefines

/-!
# The intern table of the heap

The interned strings of the heap, a list here, are the keys of a hash table whose hash is that of the text (`Tabled`).
A lookup in the one answers as a lookup in the other, and interning a string and unlinking the unmarked ones do the
same to both, whatever the heap allocates on the way.
-/

namespace CoilLang.Gc.Heap

open Machine.Table (Store Interns)

variable {h h' : Heap} {s : Store ℕ Unit} {H : Option String → ℕ} {a : ℕ} {str : String}

/-- The text of the string at `a`. -/
def text (h : Heap) (a : ℕ) : Option String :=
  match (h.cells a).map Cell.obj with
  | some (.string s) => some s
  | _ => none

/-- The table has the interned strings of the heap. -/
structure Tabled (H : Option String → ℕ) (h : Heap) (s : Store ℕ Unit) : Prop where
  interns : Interns h.text H s fun a ↦ if a ∈ h.strings then some () else none
  texts : ∀ a ∈ h.strings, (h.text a).isSome = true

theorem text_eq_some : h.text a = some str ↔ ∃ c, h.cells a = some c ∧ c.obj = .string str := by
  rw [text]
  cases h.cells a with
  | none => simp
  | some c => cases hobj : c.obj <;> simp [hobj]

theorem findString_eq_none : h.findString str = none ↔ ∀ a ∈ h.strings, h.text a ≠ some str := by
  rw [findString, List.find?_eq_none]
  refine forall₂_congr fun a _ ↦ not_congr ?_
  rw [text_eq_some, Option.any_eq_true]
  simp

theorem findString_some (hfind : h.findString str = some a) : a ∈ h.strings ∧ h.text a = some str := by
  refine ⟨List.mem_of_find?_eq_some hfind, text_eq_some.mpr ?_⟩
  have := List.find?_some hfind
  rw [Option.any_eq_true] at this
  simpa using this

namespace Tabled

theorem find (hT : Tabled H h s) (str : String) :
    s.find h.text (some str) (H (some str)) = some (h.findString str) := by
  obtain ⟨r, hr, hfound⟩ := hT.interns.find (some str)
  have hmem : ∀ a, (if a ∈ h.strings then some () else none).isSome = true ↔ a ∈ h.strings := by
    intro a
    split <;> simp [*]
  rw [hr]
  cases hfind : h.findString str with
  | some a =>
    obtain ⟨ha, htext⟩ := findString_some hfind
    rw [(hfound a).mpr ⟨(hmem a).mpr ha, htext⟩]
  | none =>
    cases r with
    | none => rfl
    | some a =>
      obtain ⟨ha, htext⟩ := (hfound a).mp rfl
      exact absurd htext (findString_eq_none.mp hfind a ((hmem a).mp ha))

/-- A new string is put into both. -/
theorem push (hT : Tabled H h s) (ha : h.text a = some str) (hnone : h.findString str = none) :
    ∃ s', s.intern h.text H (some str) a = some (a, s') ∧ Tabled H { h with strings := a :: h.strings } s' := by
  obtain ⟨s', hs', h'⟩ := hT.interns.intern_of_none ha (hnone ▸ hT.find str)
  refine ⟨s', hs', ⟨?_, fun b hb ↦ ?_⟩⟩
  · have hmap : (fun b ↦ if b ∈ a :: h.strings then some () else none) =
        Function.update (fun b ↦ if b ∈ h.strings then some () else none) a (some ()) := by
      funext b
      rw [Function.update_apply]
      rcases eq_or_ne b a with rfl | hne
      · simp
      · simp [hne]
    rw [hmap]
    exact h'
  · rcases List.mem_cons.mp hb with rfl | hb
    · exact Option.isSome_iff_exists.mpr ⟨str, ha⟩
    · exact hT.texts b hb

theorem internRef (hT : Tabled H h s) (ha : h.text a = some str) (copy : ℕ) :
    ∃ s', s.internRef h.text H a copy false = some ((h.internRef a str).1, s') ∧ Tabled H (h.internRef a str).2 s' := by
  rw [Store.internRef, ha, Heap.internRef]
  cases hfind : h.findString str with
  | some b => exact ⟨s, by rw [Store.intern, hT.find, hfind]; rfl, hT⟩
  | none => exact hT.push ha hfind

theorem intern {env : Env} (hT : Tabled H h s) (hok : h.Ok) (hintern : h.intern env str = some (a, h')) :
    ∃ s', s.intern h'.text H (some str) a = some (a, s') ∧ Tabled H h' s' := by
  rw [Heap.intern] at hintern
  cases hfind : h.findString str with
  | some b =>
    rw [hfind] at hintern
    cases hintern
    exact ⟨s, by rw [Store.intern, hT.find, hfind]; rfl, hT⟩
  | none =>
    rw [hfind] at hintern
    obtain ⟨⟨p, h₁⟩, halloc, heq⟩ := Option.map_eq_some_iff.mp hintern
    cases heq
    have hplaced := alloc_spec hok halloc
    obtain ⟨c, hcells, hobj, -⟩ := hplaced.cell
    have hstrings : h₁.strings = h.strings := by rw [hplaced.rest]
    -- The slot of the new string had no object, so no interned string was there.
    have htext : ∀ b ∈ h.strings, h.text b = h₁.text b := by
      intro b hb
      have hne : b ≠ p := by
        rintro rfl
        obtain ⟨str', hstr'⟩ := Option.isSome_iff_exists.mp (hT.texts b hb)
        obtain ⟨c', hc', -⟩ := text_eq_some.mp hstr'
        rw [hplaced.free] at hc'
        cases hc'
      rw [text, text, hcells, Function.update_of_ne hne]
    have hT₁ : Tabled H h₁ s := by
      refine ⟨?_, fun b hb ↦ ?_⟩
      · rw [hstrings]
        refine hT.interns.congr fun b hb ↦ htext b ?_
        by_contra hnot
        rw [if_neg hnot] at hb
        cases hb
      · rw [hstrings] at hb
        rw [← htext b hb]
        exact hT.texts b hb
    have hself : h₁.text p = some str := text_eq_some.mpr ⟨c, by rw [hcells, Function.update_self], hobj⟩
    refine hT₁.push hself (findString_eq_none.mpr fun b hb ↦ ?_)
    rw [hstrings] at hb
    rw [← htext b hb]
    exact findString_eq_none.mp hfind b hb

theorem unlink (hT : Tabled H h s) :
    ∃ s', s.unlink h.text H h.isMarked = some s' ∧ Tabled H h.unlinkUnmarkedInterns s' := by
  obtain ⟨s', hs', h'⟩ := hT.interns.unlink h.isMarked
  refine ⟨s', hs', ⟨?_, fun b hb ↦ hT.texts b (List.mem_of_mem_filter hb)⟩⟩
  have hmap : (fun b ↦ if b ∈ h.unlinkUnmarkedInterns.strings then some () else none) =
      fun b ↦ if h.isMarked b then if b ∈ h.strings then some () else none else none := by
    funext b
    rw [unlinkUnmarkedInterns]
    cases hm : h.isMarked b <;> simp [hm]
  rw [hmap]
  exact h'

end Tabled

end CoilLang.Gc.Heap
