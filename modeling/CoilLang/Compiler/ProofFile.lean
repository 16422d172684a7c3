import CoilLang.Lib.TextLines
import Mathlib.Algebra.Order.BigOperators.Group.Finset
import Mathlib.Data.Finset.Sort
import Mathlib.Data.Prod.Lex
import Mathlib.Data.String.Basic

/-!
# Proof files

`foo.coil.proof` keeps what was proved about `foo.coil`: the clauses and the index sites whose checks a
build may drop. Each is one line, its fields separated by tabs, and the text of a clause, which is
taken from the source as it stands, is the last field of its line.

A tab in a clause does no harm, since the last field takes the rest of the line. **A line break does**: the
rest of the clause is read as lines of its own, and `parse` may find an index site there that was never
proved (`parse_threeLines`). A carriage return at the end of a clause is lost as well. Without these the
file is read back exactly (`parse_render_iff`), when index sites have no text, as they are made.

The file is a list of characters here, and the two hash sets of the source are finite sets; they are
written in order.
-/

namespace CoilLang.ProofFile

/-! ### The words of the file -/

/-- `coil-proof 1` -/
def MAGIC : List Char := ['c', 'o', 'i', 'l', '-', 'p', 'r', 'o', 'o', 'f', ' ', '1']

/-- What the lines start with. -/
def COMPILER : List Char := ['c', 'o', 'm', 'p', 'i', 'l', 'e', 'r', ' ']

def SOURCE : List Char := ['s', 'o', 'u', 'r', 'c', 'e', ' ']

def COMPLETE : List Char := ['c', 'o', 'm', 'p', 'l', 'e', 't', 'e', ' ']

def CHECK : List Char := ['c', 'h', 'e', 'c', 'k', ' ']

def BOUNDS : List Char := ['b', 'o', 'u', 'n', 'd', 's', ' ']

def boolText : Bool → List Char
  | true => ['t', 'r', 'u', 'e']
  | false => ['f', 'a', 'l', 's', 'e']

/-- The version of the compiler and of the format, `0.1.0+1`. -/
def version : List Char := ['0', '.', '1', '.', '0', '+', '1']

/-- A clause or index site: the function, its span, and, for a clause, its text. -/
structure Site where
  fn : String
  start : Fin (2 ^ 64)
  stop : Fin (2 ^ 64)
  clause : String
  deriving DecidableEq

/-- Sites are ordered as the tuples of the source. -/
def Site.key (s : Site) : String ×ₗ Fin (2 ^ 64) ×ₗ Fin (2 ^ 64) ×ₗ String :=
  toLex (s.fn, toLex (s.start, toLex (s.stop, s.clause)))

theorem Site.key_injective : Function.Injective Site.key := by
  intro s t h
  cases s
  cases t
  simpa [Site.key] using h

instance : LinearOrder Site := LinearOrder.lift' Site.key Site.key_injective

structure Proof where
  /-- Every contract goal of the module was proved. -/
  complete : Bool
  /-- Proved `ensures` and `invariant` clauses. -/
  checks : Finset Site
  /-- Proved index sites (empty clause text). -/
  bounds : Finset Site
  deriving DecidableEq

/-! ### Writing and reading -/

/-- FNV-1a. -/
def hash (source : String) : UInt64 :=
  source.toUTF8.data.foldl (fun h b ↦ (h ^^^ b.toUInt64) * 0x100000001b3) 0xcbf29ce484222325

def hex16 (n : UInt64) : List Char := List.leftpad 16 '0' (Nat.toDigits 16 n.toNat)

def decimal (n : Fin (2 ^ 64)) : List Char := Nat.toDigits 10 n

/-- The part of a site both kinds of lines have. -/
def Site.span (s : Site) : List Char :=
  s.fn.toList ++ '\t' :: (decimal s.start ++ '\t' :: decimal s.stop)

def checkLine (s : Site) : List Char := CHECK ++ (s.span ++ '\t' :: s.clause.toList)

def boundsLine (s : Site) : List Char := BOUNDS ++ s.span

def header (p : Proof) (source : String) : List (List Char) :=
  [MAGIC, COMPILER ++ version, SOURCE ++ hex16 (hash source),
    COMPLETE ++ boolText p.complete]

namespace Proof

/-- The lines of the file. -/
def renderLines (p : Proof) (source : String) : List (List Char) :=
  header p source ++ (p.checks.sort (· ≤ ·)).map checkLine ++ (p.bounds.sort (· ≤ ·)).map boundsLine

def render (p : Proof) (source : String) : List Char :=
  (p.renderLines source).flatMap (· ++ ['\n'])

end Proof

/-- An unsigned machine integer: digits after an optional sign. -/
def parseUsize (s : List Char) : Option (Fin (2 ^ 64)) :=
  let digits := if s.head? = some '+' then s.tail else s
  let n := Nat.ofDigitChars 10 digits 0
  if digits ≠ [] ∧ digits.all Char.isDigit then
    if h : n < 2 ^ 64 then some ⟨n, h⟩ else none
  else none

/-- Add the site of a line to the proof. -/
def parseLine (p : Proof) (line : List Char) : Option Proof :=
  match stripPrefix CHECK line with
  | some rest =>
    match splitn '\t' 4 rest with
    | [f, s, e, clause] => do
      let start ← parseUsize s
      let stop ← parseUsize e
      return { p with checks := insert ⟨.ofList f, start, stop, .ofList clause⟩ p.checks }
    | _ => none
  | none =>
    match stripPrefix BOUNDS line with
    | some rest =>
      match splitn '\t' 3 rest with
      | [f, s, e] => do
        let start ← parseUsize s
        let stop ← parseUsize e
        return { p with bounds := insert ⟨.ofList f, start, stop, ""⟩ p.bounds }
      | _ => none
    | none => if line ≠ [] then none else some p

/-- The proof in `text`, when it was made from `source` by this compiler. -/
def parse (text : List Char) (source : String) : Option Proof :=
  match lines text with
  | magic :: compiler :: src :: complete :: rest => do
    if magic ≠ MAGIC then none
    else if (← stripPrefix COMPILER compiler) ≠ version then none
    else if (← stripPrefix SOURCE src) ≠ hex16 (hash source) then none
    else
      let complete ← stripPrefix COMPLETE complete
      rest.foldlM parseLine ⟨complete = boolText true, ∅, ∅⟩
  | _ => none

/-! ### Reading back -/

theorem decimal_isDigit {n : Fin (2 ^ 64)} {c : Char} (hc : c ∈ decimal n) : c.isDigit = true :=
  Nat.isDigit_of_mem_toDigits (by decide) (by decide) hc

theorem notMem_decimal {n : Fin (2 ^ 64)} {c : Char} (hc : c.isDigit = false) : c ∉ decimal n :=
  fun h ↦ by simp [decimal_isDigit h] at hc

theorem parseUsize_decimal (n : Fin (2 ^ 64)) : parseUsize (decimal n) = some n := by
  have hne : decimal n ≠ [] := Nat.toDigits_ne_nil
  have hplus : (decimal n).head? ≠ some '+' := fun h ↦
    notMem_decimal (by decide) (List.mem_of_mem_head? h)
  have hall : (decimal n).all Char.isDigit = true := List.all_eq_true.2 fun c hc ↦ decimal_isDigit hc
  have hval : Nat.ofDigitChars 10 (decimal n) 0 = n := Nat.ofDigitChars_ten_toDigits
  unfold parseUsize
  simp [hplus, hne, hall, hval]

/-- The names a proof file can hold: no tab and no line feed. -/
def Site.Named (s : Site) : Prop := '\t' ∉ s.fn.toList ∧ '\n' ∉ s.fn.toList

theorem splitn_span {s : Site} (hs : s.Named) (clause : List Char) :
    splitn '\t' 4 (s.span ++ '\t' :: clause) =
      [s.fn.toList, decimal s.start, decimal s.stop, clause] := by
  have htab (n : Fin (2 ^ 64)) : '\t' ∉ decimal n := notMem_decimal (by decide)
  rw [Site.span, List.append_assoc, List.cons_append, List.append_assoc, List.cons_append,
    splitn_append hs.1 2, splitn_append (htab _) 1, splitn_append (htab _) 0]
  rfl

theorem splitn_span_three {s : Site} (hs : s.Named) :
    splitn '\t' 3 s.span = [s.fn.toList, decimal s.start, decimal s.stop] := by
  have htab : '\t' ∉ decimal s.start := notMem_decimal (by decide)
  rw [Site.span, splitn_append hs.1 1, splitn_append htab 0]
  rfl

/-- A site whose text lost the carriage return at its end. -/
def Site.dropCr (s : Site) : Site := { s with clause := .ofList (stripCr s.clause.toList) }

/-- A site without its text. -/
def Site.dropClause (s : Site) : Site := { s with clause := "" }

theorem parseLine_checkLine {s : Site} (hs : s.Named) (p : Proof) :
    parseLine p (stripCr (checkLine s)) = some { p with checks := insert s.dropCr p.checks } := by
  rw [checkLine, ← List.append_assoc, stripCr_append_cons _ _ _ (by decide), List.append_assoc,
    parseLine, stripPrefix_append]
  simp only [splitn_span hs, parseUsize_decimal]
  simp [Site.dropCr]

theorem stripCr_boundsLine (s : Site) : stripCr (boundsLine s) = boundsLine s := by
  have hstop : stripCr (decimal s.stop) = decimal s.stop :=
    stripCr_of_notMem (notMem_decimal (c := '\r') (by decide))
  rw [boundsLine, Site.span, ← List.cons_append, ← List.append_assoc, ← List.append_assoc,
    stripCr_append_cons _ '\t' _ (by decide), hstop]

theorem parseLine_boundsLine {s : Site} (hs : s.Named) (p : Proof) :
    parseLine p (boundsLine s) = some { p with bounds := insert s.dropClause p.bounds } := by
  have hcheck : stripPrefix CHECK (boundsLine s) = none :=
    stripPrefix_of_ne (by decide) CHECK.tail (BOUNDS.tail ++ s.span)
  rw [parseLine, hcheck, boundsLine, stripPrefix_append]
  simp only [splitn_span_three hs, parseUsize_decimal]
  simp [Site.dropClause]

theorem foldlM_checkLine (sites : List Site) (hs : ∀ s ∈ sites, s.Named) (p : Proof) :
    (sites.map fun s ↦ stripCr (checkLine s)).foldlM parseLine p =
      some { p with checks := sites.foldl (fun c s ↦ insert s.dropCr c) p.checks } := by
  induction sites generalizing p with
  | nil => rfl
  | cons s sites ih =>
    rw [List.map_cons, List.foldlM_cons, parseLine_checkLine (hs s List.mem_cons_self),
      Option.bind_eq_bind, Option.bind_some, ih fun t ht ↦ hs t (List.mem_cons_of_mem _ ht),
      List.foldl_cons]

theorem foldlM_boundsLine (sites : List Site) (hs : ∀ s ∈ sites, s.Named) (p : Proof) :
    (sites.map fun s ↦ stripCr (boundsLine s)).foldlM parseLine p =
      some { p with bounds := sites.foldl (fun c s ↦ insert s.dropClause c) p.bounds } := by
  induction sites generalizing p with
  | nil => rfl
  | cons s sites ih =>
    rw [List.map_cons, List.foldlM_cons, stripCr_boundsLine,
      parseLine_boundsLine (hs s List.mem_cons_self), Option.bind_eq_bind, Option.bind_some,
      ih fun t ht ↦ hs t (List.mem_cons_of_mem _ ht), List.foldl_cons]

/-- Inserting the images of sorted sites one by one gives the image of the set. -/
theorem foldl_insert_sort (φ : Site → Site) (s : Finset Site) :
    (s.sort (· ≤ ·)).foldl (fun c x ↦ insert (φ x) c) ∅ = s.image φ := by
  have hfold : ∀ (l : List Site) (c : Finset Site),
      l.foldl (fun c x ↦ insert (φ x) c) c = c ∪ (l.map φ).toFinset := by
    intro l
    induction l with
    | nil => simp
    | cons x l ih =>
      intro c
      rw [List.foldl_cons, ih]
      ext y
      simp
  rw [hfold, Finset.empty_union]
  ext y
  simp

theorem notMem_toDigits {c : Char} (hc : ∀ d < 16, Nat.digitChar d ≠ c) (n : ℕ) :
    c ∉ Nat.toDigits 16 n := by
  induction n using Nat.strong_induction_on with
  | _ n ih =>
    by_cases hn : n < 16
    · rw [Nat.toDigits_of_lt_base hn, List.mem_singleton]
      exact (hc n hn).symm
    · rw [Nat.toDigits_of_base_le (by decide) (Nat.le_of_not_lt hn), List.mem_append, not_or,
        List.mem_singleton]
      exact ⟨ih _ (by omega), (hc _ (Nat.mod_lt _ (by decide))).symm⟩

theorem notMem_hex16 {c : Char} (hc : ∀ d < 16, Nat.digitChar d ≠ c) (h0 : c ≠ '0') (n : UInt64) :
    c ∉ hex16 n := by
  rw [hex16, List.leftpad, List.mem_append, not_or]
  exact ⟨fun h ↦ h0 (List.eq_of_mem_replicate h), notMem_toDigits hc _⟩

/-- The header has no line feed and no carriage return. -/
theorem notMem_header {c : Char} (hc : c = '\n' ∨ c = '\r') (p : Proof) (source : String) :
    ∀ l ∈ header p source, c ∉ l := by
  have hhex : c ∉ hex16 (hash source) := by
    rcases hc with rfl | rfl <;> exact notMem_hex16 (by decide) (by decide) _
  intro l hl
  simp only [header, List.mem_cons, List.not_mem_nil, or_false] at hl
  rcases hl with rfl | rfl | rfl | rfl
  · rcases hc with rfl | rfl <;> decide
  · rcases hc with rfl | rfl <;> decide
  · rw [List.mem_append, not_or]
    refine ⟨?_, hhex⟩
    rcases hc with rfl | rfl <;> decide
  · rcases hc with rfl | rfl <;> cases p.complete <;> decide

theorem notMem_span {s : Site} (hs : s.Named) : '\n' ∉ s.span := by
  simp only [Site.span, List.mem_append, List.mem_cons, not_or]
  exact ⟨hs.2, by decide, notMem_decimal (by decide), by decide, notMem_decimal (by decide)⟩

/-- A file with the header of a proof is read line by line. -/
theorem parse_header (p : Proof) (source : String) {ls : List (List Char)}
    (hls : ∀ l ∈ ls, '\n' ∉ l) :
    parse ((header p source ++ ls).flatMap (· ++ ['\n'])) source =
      (ls.map stripCr).foldlM parseLine ⟨p.complete, ∅, ∅⟩ := by
  have hlf : ∀ l ∈ header p source ++ ls, '\n' ∉ l := by
    intro l hl
    rcases List.mem_append.1 hl with hl | hl
    · exact notMem_header (Or.inl rfl) p source l hl
    · exact hls l hl
  have hheader : (header p source).map stripCr = header p source :=
    (List.map_congr_left fun l hl ↦
      stripCr_of_notMem (notMem_header (Or.inr rfl) p source l hl)).trans (List.map_id _)
  have hcomplete : decide (boolText p.complete = boolText true) = p.complete := by
    cases p.complete <;> decide
  rw [parse, lines_flatMap hlf, List.map_append, hheader]
  simp [header, hcomplete]

theorem notMem_checkLine {s : Site} (hs : s.Named) (hc : '\n' ∉ s.clause.toList) :
    '\n' ∉ checkLine s := by
  simp only [checkLine, List.mem_append, List.mem_cons, not_or]
  exact ⟨by decide, notMem_span hs, by decide, hc⟩

theorem notMem_boundsLine {s : Site} (hs : s.Named) : '\n' ∉ boundsLine s := by
  simp only [boundsLine, List.mem_append, not_or]
  exact ⟨by decide, notMem_span hs⟩

/-- What is read back when no clause has a line feed. -/
theorem parse_render {p : Proof} (hchecks : ∀ s ∈ p.checks, s.Named)
    (hbounds : ∀ s ∈ p.bounds, s.Named) (hc : ∀ s ∈ p.checks, '\n' ∉ s.clause.toList)
    (source : String) : parse (p.render source) source =
      some ⟨p.complete, p.checks.image Site.dropCr, p.bounds.image Site.dropClause⟩ := by
  have hls : ∀ l ∈ (p.checks.sort (· ≤ ·)).map checkLine ++ (p.bounds.sort (· ≤ ·)).map boundsLine,
      '\n' ∉ l := by
    intro l hl
    rcases List.mem_append.1 hl with hl | hl
    · obtain ⟨s, hs, rfl⟩ := List.mem_map.1 hl
      have hs := (Finset.mem_sort _).1 hs
      exact notMem_checkLine (hchecks s hs) (hc s hs)
    · obtain ⟨s, hs, rfl⟩ := List.mem_map.1 hl
      exact notMem_boundsLine (hbounds s ((Finset.mem_sort _).1 hs))
  have h1 := foldlM_checkLine (p.checks.sort (· ≤ ·))
    (fun s hs ↦ hchecks s ((Finset.mem_sort _).1 hs)) ⟨p.complete, ∅, ∅⟩
  have h2 := fun q ↦ foldlM_boundsLine (p.bounds.sort (· ≤ ·))
    (fun s hs ↦ hbounds s ((Finset.mem_sort _).1 hs)) q
  rw [foldl_insert_sort] at h1
  rw [Proof.render, Proof.renderLines, List.append_assoc, parse_header p source hls,
    List.map_append, List.map_map, List.map_map, List.foldlM_append]
  simp only [Function.comp_def, h1, h2, Option.bind_eq_bind, Option.bind_some, foldl_insert_sort]

/-! ### When the file is read back exactly -/

/-- What a line can add to a proof: clauses without a line feed, and index sites without text. -/
def Readable (p : Proof) : Prop :=
  (∀ s ∈ p.checks, '\n' ∉ s.clause.toList) ∧ ∀ s ∈ p.bounds, s.clause = ""

theorem readable_parseLine {p q : Proof} {line : List Char} (hl : '\n' ∉ line) (hp : Readable p)
    (h : parseLine p line = some q) : Readable q := by
  unfold parseLine at h
  split at h
  · rename_i rest hrest
    split at h
    · rename_i f s e clause hsplit
      have hmem : clause ∈ splitn '\t' 4 rest := by simp [hsplit]
      have hclause : '\n' ∉ clause := fun hm ↦ hl (mem_of_stripPrefix hrest (mem_of_mem_splitn hmem hm))
      cases hs : parseUsize s with
      | none => simp [hs] at h
      | some start =>
        cases he : parseUsize e with
        | none => simp [hs, he] at h
        | some stop =>
          simp only [hs, he, Option.bind_eq_bind, Option.bind_some] at h
          cases h
          refine ⟨fun t ht ↦ ?_, hp.2⟩
          rcases Finset.mem_insert.1 ht with rfl | ht
          · simpa using hclause
          · exact hp.1 t ht
    · cases h
  · split at h
    · rename_i rest hrest
      split at h
      · rename_i f s e hsplit
        cases hs : parseUsize s with
        | none => simp [hs] at h
        | some start =>
          cases he : parseUsize e with
          | none => simp [hs, he] at h
          | some stop =>
            simp only [hs, he, Option.bind_eq_bind, Option.bind_some] at h
            cases h
            refine ⟨hp.1, fun t ht ↦ ?_⟩
            rcases Finset.mem_insert.1 ht with rfl | ht
            · rfl
            · exact hp.2 t ht
      · cases h
    · split at h
      · cases h
      · cases h
        exact hp

theorem readable_of_parse {text : List Char} {source : String} {q : Proof}
    (h : parse text source = some q) : Readable q := by
  have hrun : ∀ (ls : List (List Char)) (p : Proof), (∀ l ∈ ls, '\n' ∉ l) → Readable p →
      ls.foldlM parseLine p = some q → Readable q := by
    intro ls
    induction ls with
    | nil =>
      intro p _ hp h
      cases h
      exact hp
    | cons l ls ih =>
      intro p hls hp h
      rw [List.foldlM_cons] at h
      cases hl : parseLine p l with
      | none => simp [hl] at h
      | some p' =>
        rw [hl] at h
        exact ih p' (fun m hm ↦ hls m (List.mem_cons_of_mem _ hm))
          (readable_parseLine (hls l List.mem_cons_self) hp hl) h
  have hlines : ∀ l ∈ lines text, '\n' ∉ l := fun l hl ↦ notMem_of_mem_lines hl
  unfold parse at h
  split at h
  · rename_i magic compiler src complete rest htext
    rw [htext] at hlines
    have hrest : ∀ l ∈ rest, '\n' ∉ l := fun l hl ↦ hlines l (by simp [hl])
    split at h
    · cases h
    · cases h1 : stripPrefix COMPILER compiler with
      | none => simp [h1] at h
      | some v =>
        rw [h1] at h
        simp only [Option.bind_eq_bind, Option.bind_some] at h
        split at h
        · cases h
        · cases h2 : stripPrefix SOURCE src with
          | none => simp [h2] at h
          | some w =>
            rw [h2] at h
            simp only [Option.bind_some] at h
            split at h
            · cases h
            · cases h3 : stripPrefix COMPLETE complete with
              | none => simp [h3] at h
              | some c =>
                rw [h3] at h
                exact hrun rest _ hrest ⟨by simp, by simp⟩ h
  · cases h

/-- A map that lowers a measure wherever it changes something keeps a finite set only by keeping its
elements. -/
theorem image_eq_self_iff {α : Type*} [DecidableEq α] {φ : α → α} (μ : α → ℕ)
    (hφ : ∀ x, φ x = x ∨ μ (φ x) < μ x) (s : Finset α) : s.image φ = s ↔ ∀ x ∈ s, φ x = x := by
  refine ⟨fun h x hx ↦ (hφ x).resolve_right fun hlt ↦ ?_, fun h ↦ ?_⟩
  · have hinj : Set.InjOn φ s := Finset.card_image_iff.1 (by rw [h])
    have hsum : ∑ y ∈ s, μ (φ y) = ∑ y ∈ s, μ y := by
      conv_rhs => rw [← h]
      exact (Finset.sum_image hinj).symm
    have hstrict : ∑ y ∈ s, μ (φ y) < ∑ y ∈ s, μ y :=
      Finset.sum_lt_sum (fun y _ ↦ (hφ y).elim (fun he ↦ by rw [he]) Nat.le_of_lt) ⟨x, hx, hlt⟩
    omega
  · ext x
    rw [Finset.mem_image]
    exact ⟨fun ⟨y, hy, he⟩ ↦ he ▸ (h y hy).symm ▸ hy, fun hx ↦ ⟨x, hx, h x hx⟩⟩

theorem dropCr_eq_iff (s : Site) : s.dropCr = s ↔ s.clause.toList.getLast? ≠ some '\r' := by
  have heq : s.dropCr = s ↔ stripCr s.clause.toList = s.clause.toList := by
    rw [Site.dropCr]
    refine ⟨fun h ↦ ?_, fun h ↦ by rw [h, String.ofList_toList]⟩
    have hclause := congrArg (fun t ↦ t.clause.toList) h
    simpa using hclause
  rw [heq, stripCr]
  split
  · rename_i h
    have hne : s.clause.toList ≠ [] := fun h0 ↦ by simp [h0] at h
    have hlen : s.clause.toList.dropLast.length < s.clause.toList.length := by
      have hpos := List.length_pos_iff.2 hne
      rw [List.length_dropLast]
      omega
    exact iff_of_false (fun he ↦ by simp [he] at hlen) (not_not.2 h)
  · rename_i h
    exact iff_of_true rfl h

theorem dropCr_lt (s : Site) :
    s.dropCr = s ∨ s.dropCr.clause.toList.length < s.clause.toList.length := by
  by_cases h : s.clause.toList.getLast? = some '\r'
  · have hne : s.clause.toList ≠ [] := fun h0 ↦ by simp [h0] at h
    have hpos := List.length_pos_iff.2 hne
    refine Or.inr ?_
    simp only [Site.dropCr, String.toList_ofList, stripCr, if_pos h, List.length_dropLast]
    omega
  · exact Or.inl ((dropCr_eq_iff s).2 h)

theorem dropClause_lt (s : Site) :
    s.dropClause = s ∨ s.dropClause.clause.toList.length < s.clause.toList.length := by
  by_cases h : s.clause = ""
  · exact Or.inl (by rw [Site.dropClause, ← h])
  · refine Or.inr ?_
    have hne : s.clause.toList ≠ [] := fun h0 ↦ h (String.toList_inj.1 (h0.trans rfl))
    simpa [Site.dropClause] using List.length_pos_iff.2 hne

theorem dropClause_eq_iff (s : Site) : s.dropClause = s ↔ s.clause = "" := by
  refine ⟨fun h ↦ ?_, fun h ↦ by rw [Site.dropClause, ← h]⟩
  exact (congrArg Site.clause h).symm

/-- **A proof is read back exactly when no clause has a line feed in it or a carriage return at its
end, and index sites have no text.** -/
theorem parse_render_iff (p : Proof) (hn : ∀ s ∈ p.checks ∪ p.bounds, s.Named) (source : String) :
    parse (p.render source) source = some p ↔
      (∀ s ∈ p.checks, '\n' ∉ s.clause.toList ∧ s.clause.toList.getLast? ≠ some '\r') ∧
        ∀ s ∈ p.bounds, s.clause = "" := by
  have hchecks : ∀ s ∈ p.checks, s.Named := fun s hs ↦ hn s (Finset.mem_union_left _ hs)
  have hbounds : ∀ s ∈ p.bounds, s.Named := fun s hs ↦ hn s (Finset.mem_union_right _ hs)
  have himage (hc : ∀ s ∈ p.checks, '\n' ∉ s.clause.toList) :
      parse (p.render source) source = some p ↔ (∀ s ∈ p.checks, s.dropCr = s) ∧
        ∀ s ∈ p.bounds, s.dropClause = s := by
    rw [parse_render hchecks hbounds hc source, Option.some.injEq,
      ← image_eq_self_iff (fun s ↦ s.clause.toList.length) dropCr_lt,
      ← image_eq_self_iff (fun s ↦ s.clause.toList.length) dropClause_lt]
    cases p
    simp
  refine ⟨fun h ↦ ?_, fun ⟨hc, hb⟩ ↦ ?_⟩
  · have hread := readable_of_parse h
    obtain ⟨h1, -⟩ := (himage hread.1).1 h
    exact ⟨fun s hs ↦ ⟨hread.1 s hs, (dropCr_eq_iff s).1 (h1 s hs)⟩, hread.2⟩
  · exact (himage fun s hs ↦ (hc s hs).1).2 ⟨fun s hs ↦ (dropCr_eq_iff s).2 (hc s hs).2,
      fun s hs ↦ (dropClause_eq_iff s).2 (hb s hs)⟩

/-- A clause with a tab is read back. -/
theorem parse_render_tab :
    let p : Proof := ⟨true, {⟨"clamp", 10, 30, "ensures result >=\tlo"⟩}, {⟨"last", 40, 52, ""⟩}⟩
    parse (p.render "fn f() \x7b\x7d") "fn f() \x7b\x7d" = some p :=
  (parse_render_iff _ (by simp [Site.Named]) _).2 (by simp)

/-! ### A clause of several lines -/

/-- **A clause of three lines is read as three sites** when its second line reads like an index site and
its third like a clause. -/
theorem parse_threeLines {s t u : Site} (hs : s.Named) (ht : t.Named) (hu : u.Named) {c : String}
    (hc : '\n' ∉ c.toList) (huc : '\n' ∉ u.clause.toList)
    (h : s.clause.toList = c.toList ++ '\n' :: (boundsLine t ++ '\n' :: checkLine u))
    (complete : Bool) (source : String) :
    parse (Proof.render ⟨complete, {s}, ∅⟩ source) source =
      some ⟨complete, insert u.dropCr {({ s with clause := c } : Site).dropCr},
        {t.dropClause}⟩ := by
  obtain ⟨s', hs'⟩ : ∃ s' : Site, s' = { s with clause := c } := ⟨_, rfl⟩
  have hnamed : s'.Named := hs' ▸ hs
  have hline : checkLine s ++ ['\n'] =
      [checkLine s', boundsLine t, checkLine u].flatMap (· ++ ['\n']) := by
    simp [checkLine, h, hs', Site.span]
  have hls : ∀ l ∈ [checkLine s', boundsLine t, checkLine u], '\n' ∉ l := by
    intro l hl
    simp only [List.mem_cons, List.not_mem_nil, or_false] at hl
    rcases hl with rfl | rfl | rfl
    · exact notMem_checkLine hnamed (hs' ▸ hc)
    · exact notMem_boundsLine ht
    · exact notMem_checkLine hu huc
  have hrender : Proof.render ⟨complete, {s}, ∅⟩ source =
      (header ⟨complete, {s}, ∅⟩ source ++
        [checkLine s', boundsLine t, checkLine u]).flatMap (· ++ ['\n']) := by
    rw [Proof.render, Proof.renderLines, Finset.sort_singleton, Finset.sort_empty, List.map_nil,
      List.append_nil, List.flatMap_append, List.flatMap_append, ← hline, List.map_singleton,
      List.flatMap_singleton]
  rw [hrender, parse_header _ _ hls, ← hs']
  simp only [List.map_cons, List.map_nil, List.foldlM_cons, List.foldlM_nil, stripCr_boundsLine,
    parseLine_checkLine hnamed, parseLine_boundsLine ht, parseLine_checkLine hu,
    Option.bind_eq_bind, Option.bind_some, insert_empty_eq]
  rfl

/-- A proved clause whose message spans lines. -/
def spanningSite : Site :=
  ⟨"clamp", 10, 30, "ensures result >= lo (\"\nbounds last\t40\t52\ncheck clamp\t0\t0\t\")"⟩

/-- The file of this proof is accepted, with an index site that was never proved. -/
theorem parse_spanningSite :
    let p : Proof := ⟨true, {spanningSite}, ∅⟩
    (∀ s ∈ p.checks ∪ p.bounds, s.Named) ∧ parse (p.render "") "" ≠ some p ∧
      ∃ q, parse (p.render "") "" = some q ∧ ⟨"last", 40, 52, ""⟩ ∈ q.bounds := by
  have hs : spanningSite.Named := by simp [Site.Named, spanningSite]
  have h := parse_threeLines (s := spanningSite) (t := ⟨"last", 40, 52, ""⟩)
    (u := ⟨"clamp", 0, 0, "\")"⟩) (c := "ensures result >= lo (\"") hs (by simp [Site.Named])
    (by simp [Site.Named]) (by simp) (by simp) (by decide +kernel) true ""
  refine ⟨by simpa using hs, fun he ↦ ?_, _, h, by simp [Site.dropClause]⟩
  have hbounds := congrArg (Option.map Proof.bounds) (h.symm.trans he)
  simp at hbounds

end CoilLang.ProofFile
