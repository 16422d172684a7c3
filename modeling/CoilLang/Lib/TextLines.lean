import Mathlib.Data.List.Basic

/-!
# Texts of lines and fields

A text is a list of characters. `lines` splits it as the standard library does, at line feeds, and drops
**one carriage return before a line feed**; `splitn` splits a line at a separator, into a bounded number of
fields, the last of which may hold separators; `stripPrefix` takes a known start off.

What is written line by line is read line by line when no line has a line feed in it
(`lines_flatMap`), except for that carriage return.
-/

namespace CoilLang

/-- Drop a carriage return at the end. -/
def stripCr (line : List Char) : List Char := if line.getLast? = some '\r' then line.dropLast else line

/-- The lines of a text, `cur` being the current one so far in reverse. -/
def linesFrom (cur : List Char) : List Char → List (List Char)
  | [] => if cur = [] then [] else [cur.reverse]
  | c :: cs => if c = '\n' then stripCr cur.reverse :: linesFrom [] cs else linesFrom (c :: cur) cs

def lines (text : List Char) : List (List Char) := linesFrom [] text

/-- At most `n` fields around a separator. -/
def splitn (sep : Char) : ℕ → List Char → List (List Char)
  | 0, _ => []
  | 1, s => [s]
  | n + 1, s =>
    match s.dropWhile (· ≠ sep) with
    | [] => [s]
    | _ :: rest => s.takeWhile (· ≠ sep) :: splitn sep n rest

def stripPrefix (start : List Char) (s : List Char) : Option (List Char) :=
  if start.isPrefixOf s then some (s.drop start.length) else none

variable {l cur text : List Char}

theorem linesFrom_append (hl : '\n' ∉ l) (rest : List Char) :
    linesFrom cur (l ++ '\n' :: rest) = stripCr (cur.reverse ++ l) :: lines rest := by
  induction l generalizing cur with
  | nil => simp [linesFrom, lines]
  | cons c l ih =>
    rw [List.mem_cons, not_or] at hl
    rw [List.cons_append, linesFrom, if_neg (Ne.symm hl.1), ih hl.2]
    simp

theorem stripCr_of_notMem (h : '\r' ∉ l) : stripCr l = l :=
  if_neg fun he ↦ h (List.mem_of_getLast? he)

/-- **Lines are read as they were written**, if there is no line feed inside one, up to a carriage
return at the end. -/
theorem lines_flatMap {ls : List (List Char)} (h : ∀ l ∈ ls, '\n' ∉ l) :
    lines (ls.flatMap (· ++ ['\n'])) = ls.map stripCr := by
  induction ls with
  | nil => rfl
  | cons l ls ih =>
    rw [List.flatMap_cons, List.append_assoc, List.singleton_append, lines,
      linesFrom_append (h l List.mem_cons_self), ih fun m hm ↦ h m (List.mem_cons_of_mem _ hm)]
    rfl

theorem stripCr_sublist (line : List Char) : (stripCr line).Sublist line := by
  unfold stripCr
  split
  · exact List.dropLast_sublist _
  · exact List.Sublist.refl _

/-- No line has a line feed in it. -/
theorem notMem_of_mem_lines (hl : l ∈ lines text) : '\n' ∉ l := by
  suffices h : ∀ cur, '\n' ∉ cur → l ∈ linesFrom cur text → '\n' ∉ l from h [] (by simp) hl
  clear hl
  induction text with
  | nil =>
    intro cur hcur hl
    rw [linesFrom] at hl
    split at hl
    · cases hl
    · rw [List.mem_singleton.1 hl, List.mem_reverse]
      exact hcur
  | cons c cs ih =>
    intro cur hcur hl
    rw [linesFrom] at hl
    split at hl
    · rcases List.mem_cons.1 hl with rfl | hl
      · exact fun hm ↦ hcur (List.mem_reverse.1 ((stripCr_sublist _).mem hm))
      · exact ih [] (by simp) hl
    · rename_i hc
      refine ih (c :: cur) ?_ hl
      rw [List.mem_cons, not_or]
      exact ⟨fun h ↦ hc h.symm, hcur⟩

theorem stripCr_concat (l : List Char) (d : Char) :
    stripCr (l ++ [d]) = if d = '\r' then l else l ++ [d] := by
  simp [stripCr]

theorem stripCr_append_cons (l : List Char) (c : Char) (s : List Char) (hc : c ≠ '\r') :
    stripCr (l ++ c :: s) = l ++ c :: stripCr s := by
  rcases List.eq_nil_or_concat s with rfl | ⟨t, d, rfl⟩
  · rw [stripCr_concat, if_neg hc]
    rfl
  · rw [List.concat_eq_append, ← List.cons_append, ← List.append_assoc, stripCr_concat,
      stripCr_concat]
    split <;> simp

theorem splitn_append {sep : Char} (hl : sep ∉ l) (n : ℕ) (rest : List Char) :
    splitn sep (n + 2) (l ++ sep :: rest) = l :: splitn sep (n + 1) rest := by
  have hne : ∀ c ∈ l, decide (c ≠ sep) = true := fun c hc ↦ decide_eq_true fun h ↦ hl (h ▸ hc)
  rw [splitn, List.dropWhile_append_of_pos hne, List.takeWhile_append_of_pos hne]
  · simp
  · simp

/-- Fields hold only what was split. -/
theorem mem_of_mem_splitn {sep c : Char} {n : ℕ} {s f : List Char} (hf : f ∈ splitn sep n s)
    (hc : c ∈ f) : c ∈ s := by
  fun_induction splitn sep n s with
  | case1 s => cases hf
  | case2 s => rwa [List.mem_singleton.1 hf] at hc
  | case3 n s hn hdrop => rwa [List.mem_singleton.1 hf] at hc
  | case4 n s hn x rest hdrop ih =>
    rcases List.mem_cons.1 hf with rfl | hf
    · exact (List.takeWhile_sublist _).mem hc
    · have hmem : c ∈ s.dropWhile (· ≠ sep) := hdrop ▸ List.mem_cons_of_mem _ (ih hf)
      exact (List.dropWhile_sublist _).mem hmem

@[simp] theorem stripPrefix_append (start s : List Char) : stripPrefix start (start ++ s) = some s := by
  simp [stripPrefix]

theorem stripPrefix_of_ne {x y : Char} (h : x ≠ y) (start s : List Char) :
    stripPrefix (x :: start) (y :: s) = none := by
  simp [stripPrefix, h]

theorem mem_of_stripPrefix {start s r : List Char} (h : stripPrefix start s = some r) {c : Char}
    (hc : c ∈ r) : c ∈ s := by
  unfold stripPrefix at h
  split at h
  · cases h
    exact List.mem_of_mem_drop hc
  · cases h

end CoilLang
