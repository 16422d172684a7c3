import Mathlib.Data.Finset.Card
import CoilLang.Typechecking.Coverage

/-!
# Usefulness is exact

What `useful` decides, said about values: `useful rows q` holds exactly when some value of the
scrutinee's type is matched by `q` and by none of `rows` (`usefulVec_iff`).

Types are integers and enums, an enum being its variants' payload types, so enums may be recursive
and mutually recursive. Two facts about them carry the proof, both used only where a column has no
complete signature and a value has to be *made*:

* every column's type has a value, since the rest of a vector must be filled in;
* some integer occurs as no literal, so a column of literals never covers its type.

The complete-signature test counts head tags. It is the number of variants exactly when every tag of
the enum heads some row (`exists_mem_headVariants`), which is where the well-typedness of the rows
comes in: their tags are distinct, in range, and agree on the number of variants.
-/

namespace CoilLang.Coverage

/-! ### Values, matching and types -/

/-- A value a pattern is tried on. -/
inductive Value where
  | int (n : Int64)
  | ctor (tag : UInt32) (args : List Value)

mutual

/-- Whether a pattern matches a value. -/
def CoverageTree.accepts : CoverageTree → Value → Bool
  | .any, _ => true
  | .int n, .int m => n == m
  | .ctor t _ fields, .ctor u args => t == u && acceptsAll fields args
  | .int _, .ctor _ _ => false
  | .ctor _ _ _, .int _ => false

/-- Whether a row matches a value vector, column by column. -/
def acceptsAll : List CoverageTree → List Value → Bool
  | [], [] => true
  | p :: ps, v :: vs => p.accepts v && acceptsAll ps vs
  | [], _ :: _ => false
  | _ :: _, [] => false

end

/-- The type of a scrutinee or of a payload: integers, or an enum by name. -/
inductive ScrutTy where
  | int
  | enum (name : String)

/-- The payload types of an enum's variants, in tag order. -/
abbrev Enums := String → List (List ScrutTy)

variable (E : Enums)

mutual

/-- A value has a type. -/
def Value.HasTy : Value → ScrutTy → Prop
  | .int _, .int => True
  | .ctor tag args, .enum e => ∃ us, (E e)[tag.toNat]? = some us ∧ HasTys args us
  | .int _, .enum _ => False
  | .ctor _ _, .int => False

/-- A value vector has the types of the columns. -/
def HasTys : List Value → List ScrutTy → Prop
  | [], [] => True
  | v :: vs, t :: ts => v.HasTy t ∧ HasTys vs ts
  | [], _ :: _ => False
  | _ :: _, [] => False

end

mutual

/-- A pattern has a type: a constructor states its enum's number of variants, has a tag in range
and as many sub-patterns as its variant has payloads. -/
def CoverageTree.WellTyped : CoverageTree → ScrutTy → Prop
  | .any, _ => True
  | .int _, .int => True
  | .ctor tag n fields, .enum e =>
    n.toNat = (E e).length ∧ ∃ us, (E e)[tag.toNat]? = some us ∧ RowTyped fields us
  | .int _, .enum _ => False
  | .ctor _ _ _, .int => False

/-- A row has the types of the columns. -/
def RowTyped : List CoverageTree → List ScrutTy → Prop
  | [], [] => True
  | p :: ps, t :: ts => p.WellTyped t ∧ RowTyped ps ts
  | [], _ :: _ => False
  | _ :: _, [] => False

end

mutual

/-- The integer `n` is no literal of the pattern. -/
def CoverageTree.Avoids (n : Int64) : CoverageTree → Prop
  | .any => True
  | .int m => m ≠ n
  | .ctor _ _ fields => RowAvoids n fields

/-- The integer `n` is no literal of the row. -/
def RowAvoids (n : Int64) : List CoverageTree → Prop
  | [] => True
  | p :: ps => p.Avoids n ∧ RowAvoids n ps

end

attribute [simp] CoverageTree.accepts acceptsAll Value.HasTy HasTys CoverageTree.WellTyped RowTyped
  CoverageTree.Avoids RowAvoids

/-! ### Vectors and rows -/

variable {E}

theorem length_of_hasTys : ∀ {vs : List Value} {ts : List ScrutTy}, HasTys E vs ts →
    vs.length = ts.length
  | [], [], _ => rfl
  | _ :: _, _ :: _, h => congrArg (· + 1) (length_of_hasTys h.2)
  | [], _ :: _, h => absurd h (by simp)
  | _ :: _, [], h => absurd h (by simp)

theorem length_of_rowTyped : ∀ {ps : List CoverageTree} {ts : List ScrutTy}, RowTyped E ps ts →
    ps.length = ts.length
  | [], [], _ => rfl
  | _ :: _, _ :: _, h => congrArg (· + 1) (length_of_rowTyped h.2)
  | [], _ :: _, h => absurd h (by simp)
  | _ :: _, [], h => absurd h (by simp)

theorem hasTys_append {vs ws : List Value} {ts us : List ScrutTy} (hv : HasTys E vs ts)
    (hw : HasTys E ws us) : HasTys E (vs ++ ws) (ts ++ us) := by
  induction vs generalizing ts with
  | nil =>
    cases ts with
    | nil => exact hw
    | cons => simp at hv
  | cons v vs ih =>
    cases ts with
    | nil => simp at hv
    | cons t ts => exact ⟨hv.1, ih hv.2⟩

/-- A vector for spliced columns is a payload vector followed by the other columns. -/
theorem exists_append_of_hasTys {ts us : List ScrutTy} {vs : List Value}
    (h : HasTys E vs (ts ++ us)) :
    ∃ args ws, vs = args ++ ws ∧ HasTys E args ts ∧ HasTys E ws us := by
  induction ts generalizing vs with
  | nil => exact ⟨[], vs, rfl, trivial, h⟩
  | cons t ts ih =>
    cases vs with
    | nil => simp at h
    | cons v vs =>
      obtain ⟨args, ws, rfl, hargs, hws⟩ := ih h.2
      exact ⟨v :: args, ws, rfl, ⟨h.1, hargs⟩, hws⟩

theorem rowTyped_append {ps qs : List CoverageTree} {ts us : List ScrutTy} (hp : RowTyped E ps ts)
    (hq : RowTyped E qs us) : RowTyped E (ps ++ qs) (ts ++ us) := by
  induction ps generalizing ts with
  | nil =>
    cases ts with
    | nil => exact hq
    | cons => simp at hp
  | cons p ps ih =>
    cases ts with
    | nil => simp at hp
    | cons t ts => exact ⟨hp.1, ih hp.2⟩

theorem rowTyped_replicate_any (ts : List ScrutTy) :
    RowTyped E (List.replicate ts.length .any) ts := by
  induction ts with
  | nil => trivial
  | cons t ts ih => exact ⟨trivial, ih⟩

theorem rowAvoids_append {n : Int64} {ps qs : List CoverageTree} :
    RowAvoids n (ps ++ qs) ↔ RowAvoids n ps ∧ RowAvoids n qs := by
  induction ps with
  | nil => simp
  | cons p ps ih => simp [ih, and_assoc]

theorem rowAvoids_replicate_any (n : Int64) (k : ℕ) : RowAvoids n (List.replicate k .any) := by
  induction k with
  | zero => trivial
  | succ k ih => exact ⟨trivial, ih⟩

theorem acceptsAll_append {ps qs : List CoverageTree} {vs ws : List Value}
    (h : ps.length = vs.length) :
    acceptsAll (ps ++ qs) (vs ++ ws) = (acceptsAll ps vs && acceptsAll qs ws) := by
  induction ps generalizing vs with
  | nil =>
    cases vs with
    | nil => simp
    | cons => simp at h
  | cons p ps ih =>
    cases vs with
    | nil => simp at h
    | cons v vs => simp [ih (by simpa using h), Bool.and_assoc]

theorem acceptsAll_replicate_any (vs : List Value) :
    acceptsAll (List.replicate vs.length .any) vs = true := by
  induction vs with
  | nil => rfl
  | cons v vs ih => simpa [List.replicate_succ] using ih

/-- A vector of values for inhabited columns. -/
theorem exists_hasTys {ts : List ScrutTy} (h : ∀ t ∈ ts, ∃ v, Value.HasTy E v t) :
    ∃ vs, HasTys E vs ts := by
  induction ts with
  | nil => exact ⟨[], trivial⟩
  | cons t ts ih =>
    obtain ⟨v, hv⟩ := h t (by simp)
    obtain ⟨vs, hvs⟩ := ih fun u hu ↦ h u (List.mem_cons_of_mem _ hu)
    exact ⟨v :: vs, hv, hvs⟩

/-! ### Splitting a column -/

/-- No row of the matrix matches the vector. -/
def Unmatched (rows : List (List CoverageTree)) (vs : List Value) : Prop :=
  ∀ r ∈ rows, acceptsAll r vs = false

/-- Rewriting rows one by one keeps what they leave unmatched, when each row matches the old vector
exactly when it survives into a row that matches the new one. -/
theorem unmatched_filterMap_iff {f : List CoverageTree → Option (List CoverageTree)}
    {rows : List (List CoverageTree)} {vs ws : List Value}
    (h : ∀ r ∈ rows, acceptsAll r vs = true ↔ ∃ r', f r = some r' ∧ acceptsAll r' ws = true) :
    Unmatched rows vs ↔ Unmatched (rows.filterMap f) ws := by
  constructor
  · intro hu r' hr'
    obtain ⟨r, hr, hf⟩ := List.mem_filterMap.1 hr'
    by_contra hacc
    have := (h r hr).2 ⟨r', hf, by simpa using hacc⟩
    rw [hu r hr] at this
    exact absurd this (by simp)
  · intro hu r hr
    by_contra hacc
    obtain ⟨r', hf, hr'⟩ := (h r hr).1 (by simpa using hacc)
    rw [hu r' (List.mem_filterMap.2 ⟨r, hr, hf⟩)] at hr'
    exact absurd hr' (by simp)

variable {e : String} {ts us : List ScrutTy} {tag : UInt32}

/-- A row matches a variant's value exactly when its specialization matches the payload spliced in
front of the other columns. -/
theorem acceptsAll_ctor_iff {r : List CoverageTree} (hr : RowTyped E r (.enum e :: ts))
    (htag : (E e)[tag.toNat]? = some us) {args vs : List Value} (hargs : HasTys E args us) :
    acceptsAll r (.ctor tag args :: vs) = true ↔
      ∃ r', specializeRow tag us.length r = some r' ∧ acceptsAll r' (args ++ vs) = true := by
  have hlen := length_of_hasTys hargs
  match r, hr with
  | .any :: rest, _ =>
    rw [← hlen]
    simp [specializeRow, acceptsAll_append, acceptsAll_replicate_any]
  | .int _ :: rest, hr => simp at hr
  | .ctor t n fields :: rest, hr =>
    simp only [RowTyped, CoverageTree.WellTyped] at hr
    obtain ⟨⟨-, us', hus', hf⟩, -⟩ := hr
    by_cases ht : t = tag
    · subst ht
      rw [htag, Option.some.injEq] at hus'
      subst hus'
      simp [specializeRow, acceptsAll_append ((length_of_rowTyped hf).trans hlen.symm)]
    · simp [specializeRow, ht]

theorem unmatched_specialize_iff {rows : List (List CoverageTree)}
    (hrows : ∀ r ∈ rows, RowTyped E r (.enum e :: ts)) (htag : (E e)[tag.toNat]? = some us)
    {args vs : List Value} (hargs : HasTys E args us) :
    Unmatched rows (.ctor tag args :: vs) ↔
      Unmatched (specialize rows tag us.length) (args ++ vs) :=
  unmatched_filterMap_iff fun r hr ↦ acceptsAll_ctor_iff (hrows r hr) htag hargs

theorem rowTyped_specialize {rows : List (List CoverageTree)}
    (hrows : ∀ r ∈ rows, RowTyped E r (.enum e :: ts)) (htag : (E e)[tag.toNat]? = some us) :
    ∀ r ∈ specialize rows tag us.length, RowTyped E r (us ++ ts) := by
  intro r' hr'
  obtain ⟨r, hr, hf⟩ := List.mem_filterMap.1 hr'
  match r, hrows r hr with
  | .any :: rest, h =>
    simp only [specializeRow, Option.some.injEq] at hf
    exact hf ▸ rowTyped_append (rowTyped_replicate_any us) h.2
  | .int _ :: rest, h => simp at h
  | .ctor t n fields :: rest, h =>
    simp only [specializeRow, Option.ite_none_right_eq_some, Option.some.injEq] at hf
    obtain ⟨rfl, rfl⟩ := hf
    simp only [RowTyped, CoverageTree.WellTyped] at h
    obtain ⟨⟨-, us', hus', hfields⟩, hrest⟩ := h
    rw [htag, Option.some.injEq] at hus'
    exact rowTyped_append (hus' ▸ hfields) hrest

theorem rowAvoids_specialize {rows : List (List CoverageTree)} {n : Int64} {k : ℕ}
    (hrows : ∀ r ∈ rows, RowAvoids n r) : ∀ r ∈ specialize rows tag k, RowAvoids n r := by
  intro r' hr'
  obtain ⟨r, hr, hf⟩ := List.mem_filterMap.1 hr'
  match r, hrows r hr with
  | .any :: rest, h =>
    simp only [specializeRow, Option.some.injEq] at hf
    exact hf ▸ rowAvoids_append.2 ⟨rowAvoids_replicate_any n k, h.2⟩
  | .int _ :: rest, h => simp [specializeRow] at hf
  | .ctor t _ fields :: rest, h =>
    simp only [specializeRow, Option.ite_none_right_eq_some, Option.some.injEq] at hf
    exact hf.2 ▸ rowAvoids_append.2 h

/-- The literal split, on values of the literal. -/
theorem unmatched_literalRows_iff {rows : List (List CoverageTree)} {n : Int64} {vs : List Value} :
    Unmatched rows (.int n :: vs) ↔ Unmatched (literalRows rows n) vs := by
  refine unmatched_filterMap_iff fun r _ ↦ ?_
  match r with
  | [] => simp [literalRow]
  | .any :: rest => simp [literalRow]
  | .int m :: rest => by_cases h : m = n <;> simp [literalRow, h]
  | .ctor _ _ _ :: rest => simp [literalRow]

/-- Rows that survive a split that only drops the first column keep their other columns' types. -/
theorem rowTyped_of_tail {rows : List (List CoverageTree)} {t : ScrutTy}
    {f : List CoverageTree → Option (List CoverageTree)}
    (hf : ∀ r r', f r = some r' → ∃ p, r = p :: r') (hrows : ∀ r ∈ rows, RowTyped E r (t :: ts)) :
    ∀ r ∈ rows.filterMap f, RowTyped E r ts := by
  intro r' hr'
  obtain ⟨r, hr, h⟩ := List.mem_filterMap.1 hr'
  obtain ⟨p, rfl⟩ := hf r r' h
  exact (hrows _ hr).2

theorem rowAvoids_of_tail {rows : List (List CoverageTree)} {n : Int64}
    {f : List CoverageTree → Option (List CoverageTree)}
    (hf : ∀ r r', f r = some r' → ∃ p, r = p :: r') (hrows : ∀ r ∈ rows, RowAvoids n r) :
    ∀ r ∈ rows.filterMap f, RowAvoids n r := by
  intro r' hr'
  obtain ⟨r, hr, h⟩ := List.mem_filterMap.1 hr'
  obtain ⟨p, rfl⟩ := hf r r' h
  exact (hrows _ hr).2

theorem exists_cons_of_literalRow (n : Int64) (r r' : List CoverageTree)
    (h : literalRow n r = some r') : ∃ p, r = p :: r' := by
  match r with
  | [] => simp [literalRow] at h
  | .any :: rest => exact ⟨.any, by simpa [literalRow] using h⟩
  | .int m :: rest =>
    simp only [literalRow, Option.ite_none_right_eq_some, Option.some.injEq] at h
    exact ⟨.int m, by rw [h.2]⟩
  | .ctor _ _ _ :: rest => simp [literalRow] at h

theorem exists_cons_of_defaultRow (r r' : List CoverageTree) (h : defaultRow r = some r') :
    ∃ p, r = p :: r' := by
  match r with
  | [] => simp [defaultRow] at h
  | .any :: rest => exact ⟨.any, by simpa [defaultRow] using h⟩
  | .int _ :: rest => simp [defaultRow] at h
  | .ctor _ _ _ :: rest => simp [defaultRow] at h

/-! ### Counting head variants -/

theorem nodup_insertHead {heads : List (UInt32 × ℕ)} {k : ℕ} (h : (heads.map Prod.fst).Nodup) :
    ((insertHead heads tag k).map Prod.fst).Nodup := by
  unfold insertHead
  split
  · exact h
  · rename_i hmem
    rw [List.map_append]
    exact h.append (by simp) (by simpa using hmem)

theorem nodup_headVariants_foldl (rows : List (List CoverageTree))
    {acc : List (UInt32 × ℕ) × UInt32} (h : (acc.1.map Prod.fst).Nodup) :
    ((rows.foldl noteHead acc).1.map Prod.fst).Nodup := by
  induction rows generalizing acc with
  | nil => exact h
  | cons r rows ih =>
    refine ih ?_
    match r with
    | [] => exact h
    | .any :: _ => exact h
    | .int _ :: _ => exact h
    | .ctor _ _ _ :: _ => exact nodup_insertHead h

/-- Head tags are listed once. -/
theorem nodup_headVariants (rows : List (List CoverageTree)) :
    ((headVariants rows).1.map Prod.fst).Nodup :=
  nodup_headVariants_foldl rows (by simp)

/-- The fold behind `headVariants` keeps what it has, and after a constructor row it lists that
row's tag and the number of variants some constructor row states. -/
theorem headVariants_foldl_spec (rows : List (List CoverageTree))
    (acc : List (UInt32 × ℕ) × UInt32) :
    (∀ t ∈ acc.1.map Prod.fst, t ∈ (rows.foldl noteHead acc).1.map Prod.fst) ∧
      ∀ t n fields rest, .ctor t n fields :: rest ∈ rows →
        t ∈ (rows.foldl noteHead acc).1.map Prod.fst := by
  induction rows generalizing acc with
  | nil => simp
  | cons r rows ih =>
    obtain ⟨hkeep, hrow⟩ := ih (noteHead acc r)
    have hacc : ∀ t ∈ acc.1.map Prod.fst, t ∈ (noteHead acc r).1.map Prod.fst := by
      intro t ht
      match r with
      | [] => exact ht
      | .any :: _ => exact ht
      | .int _ :: _ => exact ht
      | .ctor u _ fields :: _ =>
        simp only [noteHead, insertHead]
        split
        · exact ht
        · rw [List.map_append]
          exact List.mem_append_left _ ht
    refine ⟨fun t ht ↦ hkeep t (hacc t ht), fun t n fields rest hmem ↦ ?_⟩
    rcases List.mem_cons.1 hmem with rfl | hmem
    · refine hkeep t ?_
      simp only [noteHead, insertHead]
      split
      · assumption
      · simp
    · exact hrow t n fields rest hmem

theorem mem_headVariants_of_row {rows : List (List CoverageTree)} {n : UInt32}
    {fields rest : List CoverageTree} (h : .ctor tag n fields :: rest ∈ rows) :
    tag ∈ (headVariants rows).1.map Prod.fst :=
  (headVariants_foldl_spec rows ([], 0)).2 tag n fields rest h

/-- The number of variants the fold ends with is stated by a constructor row, or was there before. -/
theorem headVariants_foldl_snd (rows : List (List CoverageTree))
    (acc : List (UInt32 × ℕ) × UInt32) :
    (rows.foldl noteHead acc = acc ∨
      ∃ t fields rest, .ctor t (rows.foldl noteHead acc).2 fields :: rest ∈ rows) := by
  induction rows generalizing acc with
  | nil => simp
  | cons r rows ih =>
    rw [List.foldl_cons]
    rcases ih (noteHead acc r) with h | ⟨t, fields, rest, h⟩
    · rw [h]
      match r with
      | [] => exact Or.inl rfl
      | .any :: _ => exact Or.inl rfl
      | .int _ :: _ => exact Or.inl rfl
      | .ctor t _ fields :: rest => exact Or.inr ⟨t, fields, rest, by simp [noteHead]⟩
    · exact Or.inr ⟨t, fields, rest, List.mem_cons_of_mem _ h⟩

/-- Under typed rows the stated number of variants is the enum's, once some variant heads a row. -/
theorem headVariants_snd {rows : List (List CoverageTree)}
    (hrows : ∀ r ∈ rows, RowTyped E r (.enum e :: ts)) (hne : (headVariants rows).1 ≠ []) :
    (headVariants rows).2.toNat = (E e).length := by
  rcases headVariants_foldl_snd rows ([], 0) with h | ⟨t, fields, rest, h⟩
  · exact absurd (congrArg Prod.fst h) hne
  · have := hrows _ h
    simp only [RowTyped, CoverageTree.WellTyped] at this
    exact this.1.1

/-- A listed head variant is a variant of the column's enum, with that arity. -/
theorem getElem?_of_mem_headVariants {rows : List (List CoverageTree)}
    (hrows : ∀ r ∈ rows, RowTyped E r (.enum e :: ts)) {k : ℕ}
    (h : (tag, k) ∈ (headVariants rows).1) :
    ∃ us, (E e)[tag.toNat]? = some us ∧ us.length = k := by
  obtain ⟨n, fields, rest, hmem, rfl⟩ := exists_row_of_mem_headVariants h
  have := hrows _ hmem
  simp only [RowTyped, CoverageTree.WellTyped] at this
  obtain ⟨⟨-, us, hus, hf⟩, -⟩ := this
  exact ⟨us, hus, (length_of_rowTyped hf).symm⟩

/-- The head tags as numbers: distinct and below the number of variants. -/
theorem headTags_subset_range {rows : List (List CoverageTree)}
    (hrows : ∀ r ∈ rows, RowTyped E r (.enum e :: ts)) :
    (((headVariants rows).1.map Prod.fst).map UInt32.toNat).toFinset ⊆
      Finset.range (E e).length := by
  intro k hk
  simp only [List.mem_toFinset, List.mem_map] at hk
  obtain ⟨t, ⟨⟨t', a⟩, hmem, rfl⟩, rfl⟩ := hk
  obtain ⟨us, hus, -⟩ := getElem?_of_mem_headVariants hrows hmem
  exact Finset.mem_range.2 (List.getElem?_eq_some_iff.1 hus).1

theorem card_headTags (rows : List (List CoverageTree)) :
    (((headVariants rows).1.map Prod.fst).map UInt32.toNat).toFinset.card =
      (headVariants rows).1.length := by
  rw [List.toFinset_card_of_nodup
    ((nodup_headVariants rows).map fun a b h ↦ UInt32.toNat_inj.1 h)]
  simp

/-- **A complete signature lists every variant**: when the count of head tags is the number of
variants, each tag of the enum heads some row. -/
theorem exists_mem_headVariants {rows : List (List CoverageTree)}
    (hrows : ∀ r ∈ rows, RowTyped E r (.enum e :: ts))
    (hcount : (headVariants rows).1.length = (E e).length) (htag : tag.toNat < (E e).length) :
    ∃ k, (tag, k) ∈ (headVariants rows).1 := by
  have heq := Finset.eq_of_subset_of_card_le (headTags_subset_range hrows)
    (by rw [card_headTags, Finset.card_range, hcount])
  have hmem := Finset.mem_range.2 htag
  rw [← heq, List.mem_toFinset, List.mem_map] at hmem
  obtain ⟨t, ht, htoNat⟩ := hmem
  obtain ⟨⟨t', k⟩, hk, rfl⟩ := List.mem_map.1 ht
  obtain rfl : t' = tag := UInt32.toNat_inj.1 htoNat
  exact ⟨k, hk⟩

/-- **An incomplete one misses a variant.** -/
theorem exists_missing_variant {rows : List (List CoverageTree)}
    (hrows : ∀ r ∈ rows, RowTyped E r (.enum e :: ts)) (hsize : (E e).length < 2 ^ 32)
    (hcount : (headVariants rows).1.length ≠ (E e).length) :
    ∃ t : UInt32, t.toNat < (E e).length ∧ t ∉ (headVariants rows).1.map Prod.fst := by
  by_contra hall
  simp only [not_exists, not_and, not_not] at hall
  refine hcount ?_
  rw [← card_headTags, ← Finset.card_range (E e).length]
  congr 1
  refine Finset.Subset.antisymm (headTags_subset_range hrows) fun k hk ↦ ?_
  have hk := Finset.mem_range.1 hk
  have hto : (UInt32.ofNat k).toNat = k := UInt32.toNat_ofNat_of_lt' (by
    show k < 2 ^ 32
    omega)
  rw [List.mem_toFinset, List.mem_map]
  exact ⟨UInt32.ofNat k, hall _ (by rwa [hto]), hto⟩

/-! ### What the query can match -/

/-- Some vector of the columns' types is matched by the query and by no row. -/
def HasUnmatched (E : Enums) (rows : List (List CoverageTree)) (q : List CoverageTree)
    (ts : List ScrutTy) : Prop :=
  ∃ vs, HasTys E vs ts ∧ acceptsAll q vs = true ∧ Unmatched rows vs

/-- A column restricted to one variant: the values `p` matches there are those whose payload
`fields` matches. -/
theorem hasUnmatched_specialize_iff {rows : List (List CoverageTree)} {rest : List CoverageTree}
    {p : CoverageTree} {fields : List CoverageTree}
    (hrows : ∀ r ∈ rows, RowTyped E r (.enum e :: ts)) (htag : (E e)[tag.toNat]? = some us)
    (hlen : fields.length = us.length)
    (hp : ∀ args, HasTys E args us → p.accepts (.ctor tag args) = acceptsAll fields args) :
    (∃ args vs, HasTys E args us ∧ HasTys E vs ts ∧
        acceptsAll (p :: rest) (.ctor tag args :: vs) = true ∧
          Unmatched rows (.ctor tag args :: vs)) ↔
      HasUnmatched E (specialize rows tag us.length) (fields ++ rest) (us ++ ts) := by
  constructor
  · rintro ⟨args, vs, hargs, hvs, hacc, hun⟩
    refine ⟨args ++ vs, hasTys_append hargs hvs, ?_,
      (unmatched_specialize_iff hrows htag hargs).1 hun⟩
    rw [acceptsAll_append (hlen.trans (length_of_hasTys hargs).symm), ← hp args hargs]
    exact hacc
  · rintro ⟨ws, hws, hacc, hun⟩
    obtain ⟨args, vs, rfl, hargs, hvs⟩ := exists_append_of_hasTys hws
    refine ⟨args, vs, hargs, hvs, ?_, (unmatched_specialize_iff hrows htag hargs).2 hun⟩
    rw [acceptsAll_append (hlen.trans (length_of_hasTys hargs).symm), ← hp args hargs] at hacc
    exact hacc

theorem hasUnmatched_ctor_iff {rows : List (List CoverageTree)} {rest fields : List CoverageTree}
    {n : UInt32} (hrows : ∀ r ∈ rows, RowTyped E r (.enum e :: ts))
    (htag : (E e)[tag.toNat]? = some us) (hlen : fields.length = us.length) :
    HasUnmatched E rows (.ctor tag n fields :: rest) (.enum e :: ts) ↔
      HasUnmatched E (specialize rows tag fields.length) (fields ++ rest) (us ++ ts) := by
  rw [hlen, ← hasUnmatched_specialize_iff (p := .ctor tag n fields) hrows htag hlen
    (fun args _ ↦ by simp)]
  constructor
  · rintro ⟨vs, hvs, hacc, hun⟩
    match vs, hvs with
    | .int _ :: vs, hvs => simp at hvs
    | .ctor t args :: vs, hvs =>
      obtain ⟨⟨us', hus', hargs⟩, htail⟩ : (∃ us', (E e)[t.toNat]? = some us' ∧
        HasTys E args us') ∧ HasTys E vs ts := by simpa using hvs
      obtain rfl : tag = t := by
        have : (tag == t && acceptsAll fields args && acceptsAll rest vs) = true := by
          simpa using hacc
        simpa using (Bool.and_eq_true_iff.1 (Bool.and_eq_true_iff.1 this).1).1
      rw [htag, Option.some.injEq] at hus'
      subst hus'
      exact ⟨args, vs, hargs, htail, hacc, hun⟩
  · rintro ⟨args, vs, hargs, hvs, hacc, hun⟩
    exact ⟨.ctor tag args :: vs, ⟨by simpa using ⟨us, htag, hargs⟩, hvs⟩, hacc, hun⟩

theorem hasUnmatched_int_iff {rows : List (List CoverageTree)} {rest : List CoverageTree}
    {n : Int64} :
    HasUnmatched E rows (.int n :: rest) (.int :: ts) ↔
      HasUnmatched E (literalRows rows n) rest ts := by
  constructor
  · rintro ⟨vs, hvs, hacc, hun⟩
    match vs, hvs with
    | .ctor _ _ :: vs, hvs => simp at hvs
    | .int m :: vs, hvs =>
      obtain ⟨rfl, htail⟩ : n = m ∧ acceptsAll rest vs = true := by simpa using hacc
      exact ⟨vs, hvs.2, htail, unmatched_literalRows_iff.1 hun⟩
  · rintro ⟨vs, hvs, hacc, hun⟩
    exact ⟨.int n :: vs, ⟨by simp, hvs⟩, by simpa using hacc, unmatched_literalRows_iff.2 hun⟩

/-- **Complete signature.** Every value of the column is under some head variant, so `_` is useful
exactly when it is useful under one of them. -/
theorem hasUnmatched_any_iff_exists_head {rows : List (List CoverageTree)}
    {rest : List CoverageTree} (hrows : ∀ r ∈ rows, RowTyped E r (.enum e :: ts))
    (hcount : (headVariants rows).1.length = (E e).length) :
    HasUnmatched E rows (.any :: rest) (.enum e :: ts) ↔
      ∃ t k us, (t, k) ∈ (headVariants rows).1 ∧ (E e)[t.toNat]? = some us ∧ us.length = k ∧
        HasUnmatched E (specialize rows t k) (List.replicate k .any ++ rest) (us ++ ts) := by
  have hany : ∀ (t : UInt32) (us : List ScrutTy) (args : List Value), HasTys E args us →
      CoverageTree.any.accepts (.ctor t args) =
        acceptsAll (List.replicate us.length .any) args := by
    intro t us args hargs
    rw [← length_of_hasTys hargs, acceptsAll_replicate_any]
    simp
  constructor
  · rintro ⟨vs, hvs, hacc, hun⟩
    match vs, hvs with
    | .int _ :: vs, hvs => simp at hvs
    | .ctor t args :: vs, hvs =>
      obtain ⟨⟨us, hus, hargs⟩, htail⟩ : (∃ us, (E e)[t.toNat]? = some us ∧ HasTys E args us) ∧
        HasTys E vs ts := by simpa using hvs
      obtain ⟨k, hk⟩ := exists_mem_headVariants hrows hcount (List.getElem?_eq_some_iff.1 hus).1
      obtain ⟨us', hus', hlen⟩ := getElem?_of_mem_headVariants hrows hk
      rw [hus, Option.some.injEq] at hus'
      subst hus' hlen
      exact ⟨t, _, us, hk, hus, rfl, (hasUnmatched_specialize_iff hrows hus (by simp)
        (hany t us)).1 ⟨args, vs, hargs, htail, hacc, hun⟩⟩
  · rintro ⟨t, k, us, -, hus, rfl, h⟩
    obtain ⟨args, vs, hargs, hvs, hacc, hun⟩ :=
      (hasUnmatched_specialize_iff hrows hus (by simp) (hany t us)).2 h
    exact ⟨.ctor t args :: vs, ⟨by simpa using ⟨us, hus, hargs⟩, hvs⟩, hacc, hun⟩

/-- **Incomplete signature.** With a value of the column's type that no constructor or literal row
matches, only rows with `_` in the column count. -/
theorem hasUnmatched_any_iff_default {rows : List (List CoverageTree)} {rest : List CoverageTree}
    {t : ScrutTy} {v : Value} (hv : v.HasTy E t)
    (hmiss : ∀ p rest, p :: rest ∈ rows → p.accepts v = true → p = .any)
    (hrows : ∀ r ∈ rows, RowTyped E r (t :: ts)) :
    HasUnmatched E rows (.any :: rest) (t :: ts) ↔ HasUnmatched E (defaultRows rows) rest ts := by
  constructor
  · rintro ⟨vs, hvs, hacc, hun⟩
    cases vs with
    | nil => simp at hvs
    | cons w vs =>
      refine ⟨vs, hvs.2, by simpa using hacc, fun r' hr' ↦ ?_⟩
      obtain ⟨r, hr, hf⟩ := List.mem_filterMap.1 hr'
      rcases r with _ | ⟨_ | _ | _, rest'⟩
      · simp [defaultRow] at hf
      · obtain rfl : rest' = r' := by simpa [defaultRow] using hf
        simpa using hun _ hr
      · simp [defaultRow] at hf
      · simp [defaultRow] at hf
  · rintro ⟨vs, hvs, hacc, hun⟩
    refine ⟨v :: vs, ⟨hv, hvs⟩, by simpa using hacc, fun r hr ↦ ?_⟩
    have htyped := hrows r hr
    cases r with
    | nil => simp at htyped
    | cons p rest' =>
      by_cases hp : p.accepts v = true
      · obtain rfl := hmiss p rest' hr hp
        simpa using hun rest' (List.mem_filterMap.2 ⟨_, hr, rfl⟩)
      · simp [acceptsAll, hp]

/-- The value the incomplete case needs: in an integer column a literal no row mentions, in an enum
column a variant no row is headed by (or, without constructor rows, any value). -/
theorem exists_value_not_headed {rows : List (List CoverageTree)} {t : ScrutTy} {n : Int64}
    (hpay : ∀ e, ∀ us ∈ E e, ∀ u ∈ us, ∃ v, Value.HasTy E v u) (ht : ∃ v, Value.HasTy E v t)
    (hrows : ∀ r ∈ rows, RowTyped E r (t :: ts)) (hn : ∀ r ∈ rows, RowAvoids n r)
    (hinc : ¬ ((headVariants rows).1 ≠ [] ∧
      UInt32.ofNat (headVariants rows).1.length = (headVariants rows).2)) :
    ∃ v, Value.HasTy E v t ∧ ∀ p rest, p :: rest ∈ rows → p.accepts v = true → p = .any := by
  cases t with
  | int =>
    refine ⟨.int n, by simp, fun p rest hmem hacc ↦ ?_⟩
    match p, hrows _ hmem with
    | .any, _ => rfl
    | .int m, _ => exact absurd (by simpa using hacc) (hn _ hmem).1
    | .ctor _ _ _, h => simp at h
  | enum e =>
    by_cases hne : (headVariants rows).1 = []
    · obtain ⟨v, hv⟩ := ht
      refine ⟨v, hv, fun p rest hmem _ ↦ ?_⟩
      match p, hrows _ hmem with
      | .any, _ => rfl
      | .int _, h => simp at h
      | .ctor tag m fields, _ =>
        have := mem_headVariants_of_row hmem
        rw [hne] at this
        simp at this
    · have hsnd := headVariants_snd hrows hne
      have hsize : (E e).length < 2 ^ 32 := hsnd ▸ UInt32.toNat_lt _
      have hcount : (headVariants rows).1.length ≠ (E e).length := by
        intro h
        refine hinc ⟨hne, ?_⟩
        rw [h, ← hsnd, UInt32.ofNat_toNat]
      obtain ⟨tag, htag, hmiss⟩ := exists_missing_variant hrows hsize hcount
      obtain ⟨args, hargs⟩ := exists_hasTys (hpay e _ (List.getElem_mem htag))
      refine ⟨.ctor tag args, by
        simpa using ⟨_, List.getElem?_eq_getElem htag, hargs⟩, fun p rest hmem hacc ↦ ?_⟩
      match p, hrows _ hmem with
      | .any, _ => rfl
      | .int _, h => simp at h
      | .ctor tag' m fields, _ =>
        obtain ⟨rfl, -⟩ : tag' = tag ∧ acceptsAll fields args = true := by simpa using hacc
        exact absurd (mem_headVariants_of_row hmem) hmiss

/-! ### Exactness -/

/-- **Usefulness is exact** on matrices: it holds exactly when some vector is matched by the query
and by no row. Induction along the recursion of `usefulVec`; the columns' types follow the query. -/
theorem usefulVec_iff (E : Enums) (hpay : ∀ e, ∀ us ∈ E e, ∀ u ∈ us, ∃ v, Value.HasTy E v u)
    {n : Int64} (rows : List (List CoverageTree)) (q : List CoverageTree) {ts : List ScrutTy}
    (hts : ∀ t ∈ ts, ∃ v, Value.HasTy E v t) (hrows : ∀ r ∈ rows, RowTyped E r ts)
    (hq : RowTyped E q ts) (hn : ∀ r ∈ rows, RowAvoids n r) :
    usefulVec rows q = true ↔ HasUnmatched E rows q ts := by
  induction rows, q using usefulVec.induct generalizing ts with
  | case1 rows =>
    match ts, hq with
    | [], _ =>
      rw [usefulVec]
      constructor
      · intro h
        obtain rfl := List.isEmpty_iff.1 h
        exact ⟨[], by simp, by simp, by simp [Unmatched]⟩
      · rintro ⟨vs, hvs, -, hun⟩
        match vs, hvs with
        | [], _ =>
          rw [List.isEmpty_iff, List.eq_nil_iff_forall_not_mem]
          intro r hr
          match r, hrows r hr, hun r hr with
          | [], _, h => simp at h
  | case2 rows tag m fields rest ih =>
    match ts, hq with
    | .int :: ts, hq => simp at hq
    | .enum e :: ts, hq =>
      obtain ⟨⟨-, us, hus, hf⟩, hrest⟩ : (m.toNat = (E e).length ∧
        ∃ us, (E e)[tag.toNat]? = some us ∧ RowTyped E fields us) ∧ RowTyped E rest ts := by
          simpa using hq
      have hlen := length_of_rowTyped hf
      have hcols : ∀ t ∈ us ++ ts, ∃ v, Value.HasTy E v t := by
        intro t ht
        rcases List.mem_append.1 ht with ht | ht
        · exact hpay e us (List.mem_of_getElem? hus) t ht
        · exact hts t (List.mem_cons_of_mem _ ht)
      rw [usefulVec, hasUnmatched_ctor_iff hrows hus hlen]
      exact ih hcols (hlen ▸ rowTyped_specialize hrows hus) (rowTyped_append hf hrest)
        (rowAvoids_specialize hn)
  | case3 rows k rest ih =>
    match ts, hq with
    | .enum e :: ts, hq => simp at hq
    | .int :: ts, hq =>
      rw [usefulVec, hasUnmatched_int_iff]
      exact ih (fun t ht ↦ hts t (List.mem_cons_of_mem _ ht))
        (rowTyped_of_tail (exists_cons_of_literalRow k) hrows) hq.2
        (rowAvoids_of_tail (exists_cons_of_literalRow k) hn)
  | case4 rows rest hcomplete ih =>
    match ts, hq with
    | t :: ts, hq =>
      obtain ⟨hne, hcount⟩ : (headVariants rows).1 ≠ [] ∧
          UInt32.ofNat (headVariants rows).1.length = (headVariants rows).2 := by
        simpa using hcomplete
      -- a head variant exists, so the column is an enum's
      obtain ⟨⟨tag₀, k₀⟩, hhead⟩ := List.exists_mem_of_ne_nil _ hne
      obtain ⟨m, fields, r, hmem, -⟩ := exists_row_of_mem_headVariants hhead
      cases t with
      | int => exact absurd (hrows _ hmem) (by simp)
      | enum e =>
        have hsnd := headVariants_snd hrows hne
        have hle : (headVariants rows).1.length ≤ (E e).length := by
          rw [← card_headTags, ← Finset.card_range (E e).length]
          exact Finset.card_le_card (headTags_subset_range hrows)
        have hcount' : (headVariants rows).1.length = (E e).length := by
          rw [← hsnd, ← hcount, UInt32.toNat_ofNat_of_lt']
          exact lt_of_le_of_lt hle (hsnd ▸ UInt32.toNat_lt _)
        have hbranch : ∀ (t : UInt32) (us : List ScrutTy), (E e)[t.toNat]? = some us →
            ∀ h : (t, us.length) ∈ (headVariants rows).1,
            (usefulVec (specialize rows t us.length) (List.replicate us.length .any ++ rest) = true ↔
              HasUnmatched E (specialize rows t us.length)
                (List.replicate us.length .any ++ rest) (us ++ ts)) := by
          intro t us hus h
          refine ih ⟨(t, us.length), h⟩ ?_ (rowTyped_specialize hrows hus)
            (rowTyped_append (rowTyped_replicate_any us) hq.2) (rowAvoids_specialize hn)
          intro u hu
          rcases List.mem_append.1 hu with hu | hu
          · exact hpay e us (List.mem_of_getElem? hus) u hu
          · exact hts u (List.mem_cons_of_mem _ hu)
        rw [usefulVec, if_pos hcomplete, hasUnmatched_any_iff_exists_head hrows hcount',
          List.any_eq_true]
        constructor
        · rintro ⟨⟨⟨t, k⟩, hmem⟩, -, huse⟩
          obtain ⟨us, hus, rfl⟩ := getElem?_of_mem_headVariants hrows hmem
          exact ⟨t, us.length, us, hmem, hus, rfl, (hbranch t us hus hmem).1 huse⟩
        · rintro ⟨t, k, us, hmem, hus, rfl, hun⟩
          exact ⟨⟨(t, us.length), hmem⟩, List.mem_attach _ _, (hbranch t us hus hmem).2 hun⟩
  | case5 rows rest hincomplete ih =>
    match ts, hq with
    | t :: ts, hq =>
      have hinc : ¬ ((headVariants rows).1 ≠ [] ∧
          UInt32.ofNat (headVariants rows).1.length = (headVariants rows).2) := by
        simpa using hincomplete
      obtain ⟨v, hv, hmiss⟩ := exists_value_not_headed hpay (hts t (by simp)) hrows hn hinc
      rw [usefulVec, if_neg hincomplete, hasUnmatched_any_iff_default hv hmiss hrows]
      exact ih (fun u hu ↦ hts u (List.mem_cons_of_mem _ hu))
        (rowTyped_of_tail exists_cons_of_defaultRow hrows) hq.2
        (rowAvoids_of_tail exists_cons_of_defaultRow hn)

end CoilLang.Coverage
