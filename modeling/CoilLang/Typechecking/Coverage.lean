import Mathlib.Algebra.GroupWithZero.Nat
import Mathlib.Data.Finset.Card
import Mathlib.Data.List.Basic
import Mathlib.Data.List.Nodup

/-!
# Match usefulness

The usefulness test of `typechecking/infer/coverage.rs`: an arm is reachable when it is useful
against the arms above it, and a match without a catch-all is exhaustive when `_` is not useful
against all of its arms. The test is Maranget's, on one-column matrices.

Rows and query are plain lists, as in the source. `r[0]` on a row is the head of a non-empty list:
every row of a matrix has the length of the query, so the `[]` cases below are never reached from
`useful`.

**Termination is not structural.** A wildcard query under a complete signature grows by the arity of
the variant, so neither the query nor the matrix shrinks as a list. What shrinks is the number of
constructor and literal nodes (`matrixNodes`), and where that is unchanged the query's length.
-/

namespace CoilLang.Coverage

/-- One pattern's shape for usefulness: a wildcard (or a binding), an integer literal, or variant
`tag` of an enum with `variants` variants and its payload sub-patterns in declaration order. -/
inductive CoverageTree where
  | any
  | int (n : Int64)
  | ctor (tag variants : UInt32) (fields : List CoverageTree)

/-! ### The measure -/

mutual

/-- Constructor and literal nodes of a pattern. -/
def CoverageTree.nodes : CoverageTree → ℕ
  | .any => 0
  | .int _ => 1
  | .ctor _ _ fields => rowNodes fields + 1

/-- Constructor and literal nodes of a row. -/
def rowNodes : List CoverageTree → ℕ
  | [] => 0
  | p :: ps => p.nodes + rowNodes ps

end

@[simp] theorem nodes_any : CoverageTree.any.nodes = 0 := by simp [CoverageTree.nodes]

@[simp] theorem rowNodes_nil : rowNodes [] = 0 := by simp [rowNodes]

@[simp] theorem rowNodes_cons (p : CoverageTree) (ps : List CoverageTree) :
    rowNodes (p :: ps) = p.nodes + rowNodes ps := by simp [rowNodes]

@[simp] theorem rowNodes_append (ps qs : List CoverageTree) :
    rowNodes (ps ++ qs) = rowNodes ps + rowNodes qs := by
  induction ps with
  | nil => simp
  | cons p ps ih => simp [ih, Nat.add_assoc]

@[simp] theorem rowNodes_replicate_any (k : ℕ) :
    rowNodes (List.replicate k CoverageTree.any) = 0 := by
  induction k with
  | zero => simp
  | succ k ih => simp [List.replicate_succ, ih]

/-- Constructor and literal nodes of a matrix. -/
def matrixNodes (rows : List (List CoverageTree)) : ℕ :=
  (rows.map rowNodes).sum

@[simp] theorem matrixNodes_nil : matrixNodes [] = 0 := rfl

@[simp] theorem matrixNodes_cons (r : List CoverageTree) (rows : List (List CoverageTree)) :
    matrixNodes (r :: rows) = rowNodes r + matrixNodes rows := by simp [matrixNodes]

/-- Rewriting rows one by one into rows that are no larger (or dropping them) does not grow the
matrix. -/
theorem matrixNodes_filterMap_le {f : List CoverageTree → Option (List CoverageTree)}
    (hf : ∀ r r', f r = some r' → rowNodes r' ≤ rowNodes r) (rows : List (List CoverageTree)) :
    matrixNodes (rows.filterMap f) ≤ matrixNodes rows := by
  induction rows with
  | nil => simp
  | cons r rows ih =>
    rcases h : f r with - | r'
    · simp only [List.filterMap_cons, h, matrixNodes_cons]
      omega
    · have := hf r r' h
      simp only [List.filterMap_cons, h, matrixNodes_cons]
      omega

/-- And it shrinks the matrix when one row gets strictly smaller. -/
theorem matrixNodes_filterMap_lt {f : List CoverageTree → Option (List CoverageTree)}
    (hf : ∀ r r', f r = some r' → rowNodes r' ≤ rowNodes r) {rows : List (List CoverageTree)}
    {r₀ : List CoverageTree} (hmem : r₀ ∈ rows)
    (hlt : ∀ r', f r₀ = some r' → rowNodes r' < rowNodes r₀) (hsome : (f r₀).isSome) :
    matrixNodes (rows.filterMap f) < matrixNodes rows := by
  induction rows with
  | nil => simp at hmem
  | cons r rows ih =>
    rcases List.mem_cons.1 hmem with rfl | hmem
    · obtain ⟨r', hr'⟩ := Option.isSome_iff_exists.1 hsome
      have h₁ := hlt r' hr'
      have h₂ := matrixNodes_filterMap_le hf rows
      simp only [List.filterMap_cons, hr', matrixNodes_cons]
      omega
    · have h₁ := ih hmem
      rcases h : f r with - | r'
      · simp only [List.filterMap_cons, h, matrixNodes_cons]
        omega
      · have := hf r r' h
        simp only [List.filterMap_cons, h, matrixNodes_cons]
        omega

/-! ### The three matrices a column splits into -/

/-- A row that matches variant `tag`, its payload spliced in front. -/
def specializeRow (tag : UInt32) (arity : ℕ) : List CoverageTree → Option (List CoverageTree)
  | .ctor t _ fields :: rest => if t = tag then some (fields ++ rest) else none
  | .any :: rest => some (List.replicate arity .any ++ rest)
  | _ => none

/-- Rows that match variant `tag`, its payload spliced in front. -/
def specialize (rows : List (List CoverageTree)) (tag : UInt32) (arity : ℕ) :
    List (List CoverageTree) :=
  rows.filterMap (specializeRow tag arity)

/-- A row that matches the literal `n`, its first column dropped. -/
def literalRow (n : Int64) : List CoverageTree → Option (List CoverageTree)
  | .any :: rest => some rest
  | .int m :: rest => if m = n then some rest else none
  | _ => none

/-- Rows that match the literal `n`, the first column dropped. -/
def literalRows (rows : List (List CoverageTree)) (n : Int64) : List (List CoverageTree) :=
  rows.filterMap (literalRow n)

/-- A row with `_` in the first column, that column dropped. -/
def defaultRow : List CoverageTree → Option (List CoverageTree)
  | .any :: rest => some rest
  | _ => none

/-- Rows with `_` in the first column, that column dropped. -/
def defaultRows (rows : List (List CoverageTree)) : List (List CoverageTree) :=
  rows.filterMap defaultRow

/-- `heads.entry(tag).or_insert(arity)`: the first arity seen for a tag stays. The map is only
counted and searched with `any`, so its order does not matter. -/
def insertHead (heads : List (UInt32 × ℕ)) (tag : UInt32) (arity : ℕ) : List (UInt32 × ℕ) :=
  if tag ∈ heads.map Prod.fst then heads else heads ++ [(tag, arity)]

/-- One row's contribution to the head variants and to the number of variants. -/
def noteHead (acc : List (UInt32 × ℕ) × UInt32) (r : List CoverageTree) :
    List (UInt32 × ℕ) × UInt32 :=
  match r with
  | .ctor tag n fields :: _ => (insertHead acc.1 tag fields.length, n)
  | _ => acc

/-- Head variants of the first column with their arities, and the number of variants its last
constructor row states (`0` when there is none). -/
def headVariants (rows : List (List CoverageTree)) : List (UInt32 × ℕ) × UInt32 :=
  rows.foldl noteHead ([], 0)

/-! ### The measure goes down -/

theorem rowNodes_specializeRow_le (tag : UInt32) (arity : ℕ) (r r' : List CoverageTree)
    (h : specializeRow tag arity r = some r') : rowNodes r' ≤ rowNodes r := by
  match r with
  | [] => simp [specializeRow] at h
  | .any :: rest => simp [specializeRow] at h; simp [← h]
  | .int _ :: rest => simp [specializeRow] at h
  | .ctor t _ fields :: rest =>
    simp only [specializeRow, Option.ite_none_right_eq_some, Option.some.injEq] at h
    simp only [← h.2, rowNodes_append, rowNodes_cons, CoverageTree.nodes]
    omega

theorem rowNodes_literalRow_le (n : Int64) (r r' : List CoverageTree)
    (h : literalRow n r = some r') : rowNodes r' ≤ rowNodes r := by
  match r with
  | [] => simp [literalRow] at h
  | .any :: rest => simp [literalRow] at h; simp [h]
  | .int _ :: rest => simp [literalRow] at h; simp [h.2]
  | .ctor _ _ _ :: rest => simp [literalRow] at h

theorem rowNodes_defaultRow_le (r r' : List CoverageTree) (h : defaultRow r = some r') :
    rowNodes r' ≤ rowNodes r := by
  match r with
  | [] => simp [defaultRow] at h
  | .any :: rest => simp [defaultRow] at h; simp [h]
  | .int _ :: rest => simp [defaultRow] at h
  | .ctor _ _ _ :: rest => simp [defaultRow] at h

theorem matrixNodes_specialize_lt {rows : List (List CoverageTree)} {tag n : UInt32}
    {fields rest : List CoverageTree} (h : .ctor tag n fields :: rest ∈ rows) (arity : ℕ) :
    matrixNodes (specialize rows tag arity) < matrixNodes rows := by
  refine matrixNodes_filterMap_lt (rowNodes_specializeRow_le tag arity) h ?_ (by simp [specializeRow])
  intro r' hr'
  simp only [specializeRow, if_true, Option.some.injEq] at hr'
  simp only [← hr', rowNodes_append, rowNodes_cons, CoverageTree.nodes]
  omega

/-- The fold behind `headVariants`, from any accumulator: a listed head was there before or heads
some row with that arity. -/
theorem mem_headVariants_foldl {rows : List (List CoverageTree)}
    {acc : List (UInt32 × ℕ) × UInt32} {tag : UInt32} {arity : ℕ}
    (h : (tag, arity) ∈ (rows.foldl noteHead acc).1) :
    (tag, arity) ∈ acc.1 ∨
      ∃ n fields rest, .ctor tag n fields :: rest ∈ rows ∧ fields.length = arity := by
  induction rows generalizing acc with
  | nil => exact Or.inl h
  | cons r rows ih =>
    rw [List.foldl_cons] at h
    rcases ih h with hacc | ⟨n, fields, rest, hmem, hlen⟩
    · match r with
      | [] => exact Or.inl hacc
      | .any :: _ => exact Or.inl hacc
      | .int _ :: _ => exact Or.inl hacc
      | .ctor t n fields :: rest =>
        simp only [noteHead, insertHead] at hacc
        split at hacc
        · exact Or.inl hacc
        · rcases List.mem_append.1 hacc with hacc | hacc
          · exact Or.inl hacc
          · rw [List.mem_singleton, Prod.mk.injEq] at hacc
            obtain ⟨rfl, rfl⟩ := hacc
            exact Or.inr ⟨n, fields, rest, by simp, rfl⟩
    · exact Or.inr ⟨n, fields, rest, List.mem_cons_of_mem _ hmem, hlen⟩

/-- A listed head variant heads some row, with the listed arity. -/
theorem exists_row_of_mem_headVariants {rows : List (List CoverageTree)} {tag : UInt32} {arity : ℕ}
    (h : (tag, arity) ∈ (headVariants rows).1) :
    ∃ n fields rest, .ctor tag n fields :: rest ∈ rows ∧ fields.length = arity := by
  rcases mem_headVariants_foldl h with h | h
  · simp at h
  · exact h

/-! ### Usefulness -/

/-- Whether some value vector matched by `q` is matched by none of `rows`. -/
def usefulVec (rows : List (List CoverageTree)) (q : List CoverageTree) : Bool :=
  match q with
  | [] => rows.isEmpty
  | .ctor tag _ fields :: rest => usefulVec (specialize rows tag fields.length) (fields ++ rest)
  | .int n :: rest => usefulVec (literalRows rows n) rest
  | .any :: rest =>
    if !(headVariants rows).1.isEmpty &&
        UInt32.ofNat (headVariants rows).1.length == (headVariants rows).2 then
      -- every variant heads some row: `_` is useful under one of them
      (headVariants rows).1.attach.any fun h ↦
        usefulVec (specialize rows h.1.1 h.1.2) (List.replicate h.1.2 .any ++ rest)
    else
      -- a variant (or every other literal) is missing: only rows with `_` here can cover it
      usefulVec (defaultRows rows) rest
termination_by (matrixNodes rows + rowNodes q, q.length)
decreasing_by
  · have := matrixNodes_filterMap_le (rowNodes_specializeRow_le tag fields.length) rows
    apply Prod.Lex.left
    simp only [specialize, rowNodes_append, rowNodes_cons, CoverageTree.nodes]
    omega
  · have := matrixNodes_filterMap_le (rowNodes_literalRow_le n) rows
    apply Prod.Lex.left
    simp only [literalRows, rowNodes_cons, CoverageTree.nodes]
    omega
  · obtain ⟨⟨tag, arity⟩, hh⟩ := h
    obtain ⟨n, fields, r, hmem, -⟩ := exists_row_of_mem_headVariants hh
    have := matrixNodes_specialize_lt hmem arity
    apply Prod.Lex.left
    simp only [rowNodes_append, rowNodes_replicate_any, rowNodes_cons, CoverageTree.nodes]
    omega
  · have hle : matrixNodes (defaultRows rows) ≤ matrixNodes rows :=
      matrixNodes_filterMap_le rowNodes_defaultRow_le rows
    simp only [rowNodes_cons, nodes_any, List.length_cons, Nat.zero_add]
    rcases Nat.lt_or_ge (matrixNodes (defaultRows rows)) (matrixNodes rows) with h | h
    · exact Prod.Lex.left _ _ (by omega)
    · rw [show matrixNodes (defaultRows rows) = matrixNodes rows by omega]
      exact Prod.Lex.right _ (by omega)

/-- Whether some value matched by `q` is matched by none of `rows`. -/
def useful (rows : List CoverageTree) (q : CoverageTree) : Bool :=
  usefulVec (rows.map fun r ↦ [r]) [q]

end CoilLang.Coverage
