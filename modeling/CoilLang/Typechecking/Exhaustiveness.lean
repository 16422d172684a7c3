import CoilLang.Typechecking.CoverageExact

/-!
# The exhaustiveness check of a match

`check_exhaustiveness` of `typechecking/infer/checker.rs`, run once per `match` after inference: one
pass over the arms reports the unreachable ones, then the match itself is reported when an integer
scrutinee has no catch-all or some variant of the enum escapes the arms.

The check never asks `useful` about `_`. It probes the variants one by one, and it does not ask at
all about integers or after a catch-all. That these shortcuts agree with "some value is matched by no
arm" is `nonExhaustiveMatch_mem_iff`.

Whole-arm `_` is an error of its own at the match site, and the arm *closes nothing*: it is left out
of the rows. `closingArms` are the others.
-/

namespace CoilLang.Coverage

/-- A source range. -/
structure Range where
  start : ℕ
  stop : ℕ
deriving DecidableEq

/-- What is kept of an arm for the deferred check. Only `default` and bindings are catch-alls, and
both match everything. -/
structure ArmCoverage where
  tree : CoverageTree
  isCatchall : Bool
  isKeywordCatchall : Bool
  range : Range
  keyword_catchall : isKeywordCatchall = true → isCatchall = true
  catchall_any : isCatchall = true → tree = .any

/-- The scrutinee's type once the substitution is closed: `int`, an enum with its variants' names
and arities in tag order, or a type the check does not know. -/
inductive Scrutinee where
  | int
  | enum (variants : List (String × ℕ))
  | unknown

/-- A deferred check. -/
structure PendingExhaustive where
  scrutinee : Scrutinee
  arms : List ArmCoverage
  matchRange : Range

inductive ErrorCode where
  | unreachableArm
  | multipleMatchCatchall
  | nonExhaustiveMatch
deriving DecidableEq

/-- A diagnostic. -/
structure Message where
  code : ErrorCode
  text : String
  range : Range
  help : Option String
deriving DecidableEq

/-! ### The pass over the arms -/

def CoverageTree.isAny : CoverageTree → Bool
  | .any => true
  | _ => false

def unreachableArm (r : Range) : Message where
  code := .unreachableArm
  text := "Unreachable arm: this pattern is matched by an earlier arm"
  range := r
  help := none

/-- What one arm reports, below the arms whose patterns are `rows`. -/
def armMessages (rows : List CoverageTree) (arm : ArmCoverage) : List Message :=
  if arm.isCatchall then []
  else if arm.tree.isAny then []
  else if !useful rows arm.tree then [unreachableArm arm.range]
  else []

/-- The state of the pass. -/
structure ArmScan where
  rows : List CoverageTree
  hasCatchall : Bool
  keywordCatchalls : List Range
  messages : List Message

def scanArm (s : ArmScan) (arm : ArmCoverage) : ArmScan where
  -- whole-arm `_` closes nothing
  rows := if !arm.isCatchall && arm.tree.isAny then s.rows else s.rows ++ [arm.tree]
  hasCatchall := s.hasCatchall || arm.isCatchall
  keywordCatchalls :=
    if arm.isKeywordCatchall then s.keywordCatchalls ++ [arm.range] else s.keywordCatchalls
  messages := s.messages ++ armMessages s.rows arm

def scanArms (arms : List ArmCoverage) : ArmScan :=
  arms.foldl scanArm ⟨[], false, [], []⟩

/-! ### The match as a whole -/

def multipleMatchCatchall (r : Range) : Message where
  code := .multipleMatchCatchall
  text := "Match has more than one catch-all (`default`)"
  range := r
  help := none

def nonExhaustiveInt (r : Range) : Message where
  code := .nonExhaustiveMatch
  text := "Non-exhaustive match on `int`: literal arms cannot cover every value"
  range := r
  help := some "add a `default => ...` arm to cover the remaining values"

def nonExhaustiveEnum (missing : List String) (r : Range) : Message where
  code := .nonExhaustiveMatch
  text := "Non-exhaustive match: variants not covered: " ++ String.intercalate ", " missing
  range := r
  help := some "add a `default => ...` arm to cover the remaining cases"

/-- Whether some row is headed by variant `tag`. -/
def namesVariant (rows : List CoverageTree) (tag : UInt32) : Bool :=
  rows.any fun r ↦ match r with
    | .ctor t _ _ => t == tag
    | _ => false

/-- Every value of variant `tag`, as a pattern. -/
def variantProbe (variants : List (String × ℕ)) (tag arity : ℕ) : CoverageTree :=
  .ctor (UInt32.ofNat tag) (UInt32.ofNat variants.length) (List.replicate arity .any)

/-- How an uncovered variant is listed: bare when no arm names it, else with its payload. -/
def missingVariant (rows : List CoverageTree) (variants : List (String × ℕ))
    (v : (String × ℕ) × ℕ) : Option String :=
  if !useful rows (variantProbe variants v.2 v.1.2) then none
  else if namesVariant rows (UInt32.ofNat v.2) then some ("`" ++ v.1.1 ++ "(..)`")
  else some ("`" ++ v.1.1 ++ "`")

def missingVariants (rows : List CoverageTree) (variants : List (String × ℕ)) : List String :=
  variants.zipIdx.filterMap (missingVariant rows variants)

/-- What the match reports after the pass over its arms. -/
def closingMessages (p : PendingExhaustive) (s : ArmScan) : List Message :=
  if s.keywordCatchalls.length > 1 then (s.keywordCatchalls.drop 1).map multipleMatchCatchall
  else if s.hasCatchall then []
  else match p.scrutinee with
    | .int => [nonExhaustiveInt p.matchRange]
    | .unknown => []
    | .enum variants =>
      let missing := missingVariants s.rows variants
      if missing.isEmpty then [] else [nonExhaustiveEnum missing p.matchRange]

/-- The diagnostics of one match. -/
def checkExhaustiveness (p : PendingExhaustive) : List Message :=
  (scanArms p.arms).messages ++ closingMessages p (scanArms p.arms)

/-! ### What the pass computes -/

/-- The arms that count for coverage: all but a whole-arm `_`. -/
def closingArms (arms : List ArmCoverage) : List ArmCoverage :=
  arms.filter fun arm ↦ arm.isCatchall || !arm.tree.isAny

/-- Their patterns. -/
def closingRows (arms : List ArmCoverage) : List CoverageTree :=
  (closingArms arms).map ArmCoverage.tree

theorem closingRows_append (arms more : List ArmCoverage) :
    closingRows (arms ++ more) = closingRows arms ++ closingRows more := by
  simp [closingRows, closingArms]

theorem scanArms_append_singleton (arms : List ArmCoverage) (arm : ArmCoverage) :
    scanArms (arms ++ [arm]) = scanArm (scanArms arms) arm := by
  simp [scanArms]

@[simp] theorem scanArms_rows (arms : List ArmCoverage) :
    (scanArms arms).rows = closingRows arms := by
  induction arms using List.reverseRecOn with
  | nil => rfl
  | append_singleton arms arm ih =>
    rw [scanArms_append_singleton, closingRows_append, ← ih]
    by_cases hc : arm.isCatchall <;> by_cases ha : arm.tree.isAny <;>
      simp [scanArm, closingRows, closingArms, hc, ha]

@[simp] theorem scanArms_hasCatchall (arms : List ArmCoverage) :
    (scanArms arms).hasCatchall = arms.any ArmCoverage.isCatchall := by
  induction arms using List.reverseRecOn with
  | nil => rfl
  | append_singleton arms arm ih => simp [scanArms_append_singleton, scanArm, ih]

/-- A keyword catch-all is a catch-all. -/
theorem hasCatchall_of_keywordCatchalls (arms : List ArmCoverage)
    (h : (scanArms arms).keywordCatchalls ≠ []) : (scanArms arms).hasCatchall = true := by
  induction arms using List.reverseRecOn with
  | nil => exact absurd rfl h
  | append_singleton arms arm ih =>
    rw [scanArms_append_singleton] at h ⊢
    by_cases hk : arm.isKeywordCatchall = true
    · simp [scanArm, arm.keyword_catchall hk]
    · simp only [scanArm, hk, Bool.false_eq_true, if_false] at h
      rw [scanArm, ih h, Bool.true_or]

/-- **The pass reports arm by arm**, each against the closing arms above it. -/
theorem scanArms_messages_cons (above : List ArmCoverage) (arm : ArmCoverage) :
    (scanArms (above ++ [arm])).messages =
      (scanArms above).messages ++ armMessages (closingRows above) arm := by
  rw [scanArms_append_singleton]
  simp [scanArm]

theorem code_of_mem_scanArms {arms : List ArmCoverage} {m : Message}
    (h : m ∈ (scanArms arms).messages) : m.code = .unreachableArm := by
  induction arms using List.reverseRecOn with
  | nil => simp [scanArms] at h
  | append_singleton arms arm ih =>
    rw [scanArms_messages_cons, List.mem_append] at h
    rcases h with h | h
    · exact ih h
    · simp only [armMessages] at h
      split_ifs at h <;> simp_all [unreachableArm]

/-! ### What it means for values -/

/-- No row matches the value. -/
def Escapes (rows : List CoverageTree) (v : Value) : Prop :=
  ∀ r ∈ rows, r.accepts v = false

/-- **Usefulness is exact**: `useful` holds exactly when some value of the type is matched by the
query and by no row. -/
theorem useful_iff (E : Enums) (hpay : ∀ e, ∀ us ∈ E e, ∀ u ∈ us, ∃ v, Value.HasTy E v u)
    {t : ScrutTy} (ht : ∃ v, Value.HasTy E v t) {n : Int64} {rows : List CoverageTree}
    {q : CoverageTree} (hrows : ∀ r ∈ rows, r.WellTyped E t) (hq : q.WellTyped E t)
    (hn : ∀ r ∈ rows, r.Avoids n) :
    useful rows q = true ↔ ∃ v, Value.HasTy E v t ∧ q.accepts v = true ∧ Escapes rows v := by
  rw [useful, @usefulVec_iff E hpay n _ _ [t] (by simpa using ht)
    (by simpa using hrows) (by simpa using hq) (by simpa using hn)]
  constructor
  · rintro ⟨vs, hvs, hacc, hun⟩
    match vs, hvs with
    | [v], hvs =>
      refine ⟨v, hvs.1, by simpa using hacc, fun r hr ↦ ?_⟩
      simpa using hun [r] (List.mem_map_of_mem hr)
  · rintro ⟨v, hv, hacc, hesc⟩
    refine ⟨[v], ⟨hv, trivial⟩, by simpa using hacc, fun r hr ↦ ?_⟩
    obtain ⟨r', hr', rfl⟩ := List.mem_map.1 hr
    simpa using hesc r' hr'

/-- The checker's view of the scrutinee is the type's: the variants it lists are the enum's, with
their arities, and their number fits the tag. -/
def Scrutinee.Describes (E : Enums) : Scrutinee → ScrutTy → Prop
  | .int, .int => True
  | .enum variants, .enum e =>
    variants.map Prod.snd = (E e).map List.length ∧ variants.length < 2 ^ 32
  | _, _ => False

section Report

variable {E : Enums} (hpay : ∀ e, ∀ us ∈ E e, ∀ u ∈ us, ∃ v, Value.HasTy E v u) {t : ScrutTy}
  (ht : ∃ v, Value.HasTy E v t) {n : Int64}

/-- A catch-all arm lets no value through. -/
theorem not_escapes_of_hasCatchall {arms : List ArmCoverage} {v : Value}
    (h : arms.any ArmCoverage.isCatchall = true) : ¬ Escapes (closingRows arms) v := by
  intro hesc
  obtain ⟨arm, harm, hc⟩ := List.any_eq_true.1 h
  have := hesc arm.tree (List.mem_map_of_mem (List.mem_filter.2 ⟨harm, by simp [hc]⟩))
  rw [arm.catchall_any hc] at this
  simp at this

include hpay ht

/-- **An arm is reported unreachable exactly when it matches nothing new**, and only if it is no
catch-all (nor a whole-arm `_`). -/
theorem unreachableArm_mem_armMessages_iff {rows : List CoverageTree} {arm : ArmCoverage}
    (hrows : ∀ r ∈ rows, r.WellTyped E t) (harm : arm.tree.WellTyped E t)
    (hn : ∀ r ∈ rows, r.Avoids n) (hany : arm.tree.isAny = false) :
    unreachableArm arm.range ∈ armMessages rows arm ↔
      ∀ v, Value.HasTy E v t → arm.tree.accepts v = true → ¬ Escapes rows v := by
  have hc : arm.isCatchall = false := by
    by_contra hc
    rw [arm.catchall_any (by simpa using hc)] at hany
    simp [CoverageTree.isAny] at hany
  have huse := useful_iff E hpay ht hrows harm hn
  have hmem : unreachableArm arm.range ∈ armMessages rows arm ↔ ¬ useful rows arm.tree = true := by
    by_cases hu : useful rows arm.tree <;> simp [armMessages, hc, hany, hu]
  rw [hmem, huse]
  simp only [not_exists, not_and]

/-- The probe of a variant finds the values of that variant that no row matches. -/
theorem useful_variantProbe_iff {rows : List CoverageTree} {e : String}
    {variants : List (String × ℕ)} (hdesc : Scrutinee.Describes E (.enum variants) (.enum e))
    (he : t = .enum e) (hrows : ∀ r ∈ rows, r.WellTyped E t) (hn : ∀ r ∈ rows, r.Avoids n)
    {tag : ℕ} {us : List ScrutTy} (hus : (E e)[tag]? = some us) :
    useful rows (variantProbe variants tag us.length) = true ↔
      ∃ args, HasTys E args us ∧ Escapes rows (.ctor (UInt32.ofNat tag) args) := by
  subst he
  obtain ⟨hvars, hsize⟩ := hdesc
  have hlen : variants.length = (E e).length := by simpa using congrArg List.length hvars
  have htag : tag < 2 ^ 32 := by
    have := (List.getElem?_eq_some_iff.1 hus).1
    omega
  have hto : (UInt32.ofNat tag).toNat = tag := UInt32.toNat_ofNat_of_lt' htag
  have hq : (variantProbe variants tag us.length).WellTyped E (.enum e) := by
    simp only [variantProbe, CoverageTree.WellTyped]
    exact ⟨(UInt32.toNat_ofNat_of_lt' hsize).trans hlen, us, by rw [hto]; exact hus,
      rowTyped_replicate_any us⟩
  rw [useful_iff E hpay ht hrows hq hn]
  constructor
  · rintro ⟨v, hv, hacc, hesc⟩
    match v with
    | .int _ => simp at hv
    | .ctor tag' args =>
      obtain ⟨us', hus', hargs⟩ := hv
      obtain ⟨rfl, -⟩ : UInt32.ofNat tag = tag' ∧ _ := by
        simpa only [variantProbe, CoverageTree.accepts, Bool.and_eq_true, beq_iff_eq] using hacc
      rw [hto, hus, Option.some.injEq] at hus'
      exact ⟨args, hus' ▸ hargs, hesc⟩
  · rintro ⟨args, hargs, hesc⟩
    refine ⟨.ctor (UInt32.ofNat tag) args, ⟨us, by rw [hto]; exact hus, hargs⟩, ?_, hesc⟩
    simp only [variantProbe, CoverageTree.accepts, beq_self_eq_true, Bool.true_and]
    rw [← length_of_hasTys hargs, acceptsAll_replicate_any]

/-- **Probing the variants one by one** finds every escaping value of the enum. -/
theorem missingVariants_ne_nil_iff {rows : List CoverageTree} {e : String}
    {variants : List (String × ℕ)} (hdesc : Scrutinee.Describes E (.enum variants) (.enum e))
    (he : t = .enum e) (hrows : ∀ r ∈ rows, r.WellTyped E t) (hn : ∀ r ∈ rows, r.Avoids n) :
    missingVariants rows variants ≠ [] ↔ ∃ v, Value.HasTy E v t ∧ Escapes rows v := by
  have hget : ∀ (tag : ℕ) (name : String) (k : ℕ), variants[tag]? = some (name, k) →
      ∃ us, (E e)[tag]? = some us ∧ us.length = k := by
    intro tag name k h
    have := congrArg (·[tag]?) hdesc.1
    simp only [List.getElem?_map, h, Option.map_some] at this
    obtain ⟨us, hus, hk⟩ := Option.map_eq_some_iff.1 this.symm
    exact ⟨us, hus, hk⟩
  constructor
  · intro h
    obtain ⟨s, hs⟩ := List.exists_mem_of_ne_nil _ h
    obtain ⟨⟨⟨name, k⟩, tag⟩, hmem, hsome⟩ := List.mem_filterMap.1 hs
    obtain ⟨us, hus, rfl⟩ := hget tag name k (List.mem_zipIdx_iff_getElem?.1 hmem)
    have huse : useful rows (variantProbe variants tag us.length) = true := by
      by_contra hno
      simp [missingVariant, hno] at hsome
    obtain ⟨args, hargs, hesc⟩ :=
      (useful_variantProbe_iff hpay ht hdesc he hrows hn hus).1 huse
    have hlt : tag < 2 ^ 32 := by
      have h₁ := (List.getElem?_eq_some_iff.1 (List.mem_zipIdx_iff_getElem?.1 hmem)).1
      have h₂ := hdesc.2
      simp only at h₁
      omega
    refine ⟨_, ?_, hesc⟩
    rw [he]
    exact ⟨us, by rw [UInt32.toNat_ofNat_of_lt' hlt]; exact hus, hargs⟩
  · rintro ⟨v, hv, hesc⟩
    subst he
    match v with
    | .int _ => simp at hv
    | .ctor tag args =>
      obtain ⟨us, hus, hargs⟩ := hv
      have huse := (useful_variantProbe_iff hpay ht hdesc rfl hrows hn hus).2
        ⟨args, hargs, by rw [UInt32.ofNat_toNat]; exact hesc⟩
      obtain ⟨⟨name, k⟩, hv⟩ : ∃ v, variants[tag.toNat]? = some v := by
        have hlen := congrArg List.length hdesc.1
        simp only [List.length_map] at hlen
        exact ⟨_, List.getElem?_eq_getElem (hlen ▸ (List.getElem?_eq_some_iff.1 hus).1)⟩
      obtain ⟨us', hus', rfl⟩ := hget _ _ _ hv
      rw [hus, Option.some.injEq] at hus'
      subst hus'
      intro hnil
      have := List.filterMap_eq_nil_iff.1 hnil ((name, us.length), tag.toNat)
        (List.mem_zipIdx_iff_getElem?.2 hv)
      simp only [missingVariant, huse, Bool.not_true, Bool.false_eq_true, if_false] at this
      split at this <;> exact absurd this (by simp)

/-- **The match is reported exactly when some value of its scrutinee escapes the arms.** -/
theorem nonExhaustiveMatch_mem_iff {p : PendingExhaustive} (hdesc : p.scrutinee.Describes E t)
    (hrows : ∀ r ∈ closingRows p.arms, r.WellTyped E t)
    (hn : ∀ r ∈ closingRows p.arms, r.Avoids n) :
    (∃ m ∈ checkExhaustiveness p, m.code = .nonExhaustiveMatch) ↔
      ∃ v, Value.HasTy E v t ∧ Escapes (closingRows p.arms) v := by
  have hclosing : (∃ m ∈ checkExhaustiveness p, m.code = .nonExhaustiveMatch) ↔
      ∃ m ∈ closingMessages p (scanArms p.arms), m.code = .nonExhaustiveMatch := by
    simp only [checkExhaustiveness, List.mem_append]
    constructor
    · rintro ⟨m, hm | hm, hcode⟩
      · rw [code_of_mem_scanArms hm] at hcode
        exact absurd hcode (by decide)
      · exact ⟨m, hm, hcode⟩
    · rintro ⟨m, hm, hcode⟩
      exact ⟨m, Or.inr hm, hcode⟩
  rw [hclosing, closingMessages]
  by_cases hcatch : p.arms.any ArmCoverage.isCatchall = true
  · -- a catch-all: nothing escapes, and neither early return reports the match
    refine iff_of_false ?_ fun ⟨v, _, hesc⟩ ↦ not_escapes_of_hasCatchall hcatch hesc
    rintro ⟨m, hm, hcode⟩
    split at hm
    · obtain ⟨r, -, rfl⟩ := List.mem_map.1 hm
      exact absurd hcode (by simp [multipleMatchCatchall])
    · rw [scanArms_hasCatchall, if_pos hcatch] at hm
      exact absurd hm (by simp)
  · have hkw : ¬ (scanArms p.arms).keywordCatchalls.length > 1 := by
      intro h
      refine hcatch ?_
      rw [← scanArms_hasCatchall]
      exact hasCatchall_of_keywordCatchalls _ (List.ne_nil_of_length_pos (by omega))
    rw [if_neg hkw, scanArms_hasCatchall, if_neg hcatch, scanArms_rows]
    match hs : p.scrutinee, t, hdesc with
    | .int, .int, _ =>
      -- without a catch-all every closing row is a literal, and `n` is none of them
      refine iff_of_true ⟨_, List.mem_singleton.2 rfl, rfl⟩ ⟨.int n, by simp, fun r hr ↦ ?_⟩
      match r, hrows r hr, hn r hr with
      | .int m, _, hm => simpa using hm
      | .any, _, _ =>
        obtain ⟨arm, harm, htree⟩ := List.mem_map.1 hr
        obtain ⟨hmem, hclose⟩ := List.mem_filter.1 harm
        rw [htree] at hclose
        exact absurd (List.any_eq_true.2 ⟨arm, hmem, by simpa [CoverageTree.isAny] using hclose⟩)
          hcatch
      | .ctor _ _ _, h, _ => simp at h
    | .enum variants, .enum e, hdesc =>
      rw [← missingVariants_ne_nil_iff hpay ht hdesc rfl hrows hn]
      by_cases hm : missingVariants (closingRows p.arms) variants = []
      · simp [hm]
      · refine iff_of_true ⟨nonExhaustiveEnum (missingVariants (closingRows p.arms) variants)
          p.matchRange, ?_, rfl⟩ hm
        simp [hm]

end Report

/-! ### Exactness of the check -/

/-- **Match checking is exact** for a scrutinee whose type has a value. On every list of typed rows
`useful` decides whether the query matches a value no row does, so `_` is useful exactly when the
rows are not exhaustive. For a match: the match is reported exactly when some value escapes its
arms, and the arms' errors are, arm after arm, one for each arm other than a catch-all that matches
nothing new. -/
theorem checkExhaustiveness_exact (E : Enums)
    (hpay : ∀ e, ∀ us ∈ E e, ∀ u ∈ us, ∃ v, Value.HasTy E v u) (t : ScrutTy)
    (ht : ∃ v, Value.HasTy E v t) :
    (∀ (rows : List CoverageTree) (q : CoverageTree), (∀ r ∈ rows, r.WellTyped E t) →
      q.WellTyped E t → (∃ n, ∀ r ∈ rows, r.Avoids n) →
      ((useful rows q = true ↔ ∃ v, Value.HasTy E v t ∧ q.accepts v = true ∧ Escapes rows v) ∧
        (useful rows .any = false ↔ ∀ v, Value.HasTy E v t → ¬ Escapes rows v))) ∧
    ∀ p : PendingExhaustive, p.scrutinee.Describes E t →
      (∀ r ∈ closingRows p.arms, r.WellTyped E t) →
      (∃ n, ∀ r ∈ closingRows p.arms, r.Avoids n) →
      ((∃ m ∈ checkExhaustiveness p, m.code = .nonExhaustiveMatch) ↔
        ∃ v, Value.HasTy E v t ∧ Escapes (closingRows p.arms) v) ∧
      ∀ above arm below, p.arms = above ++ arm :: below → arm.tree.isAny = false →
        (scanArms (above ++ [arm])).messages =
          (scanArms above).messages ++ armMessages (closingRows above) arm ∧
        (armMessages (closingRows above) arm = [unreachableArm arm.range] ↔
          ∀ v, Value.HasTy E v t → arm.tree.accepts v = true →
            ¬ Escapes (closingRows above) v) := by
  refine ⟨fun rows q hrows hq ⟨n, hn⟩ ↦ ⟨useful_iff E hpay ht hrows hq hn, ?_⟩,
    fun p hdesc hrows ⟨n, hn⟩ ↦ ⟨nonExhaustiveMatch_mem_iff hpay ht hdesc hrows hn, ?_⟩⟩
  · have h := useful_iff E hpay ht hrows (q := .any) (by simp) hn
    rw [← Bool.not_eq_true, h]
    simp
  · intro above arm below harms hany
    refine ⟨scanArms_messages_cons above arm, ?_⟩
    have hsub : ∀ r ∈ closingRows above, r ∈ closingRows p.arms := by
      intro r hr
      rw [harms, closingRows_append]
      exact List.mem_append_left _ hr
    have harm : arm.tree ∈ closingRows p.arms := by
      rw [harms]
      exact List.mem_map_of_mem (List.mem_filter.2 ⟨by simp, by simp [hany]⟩)
    rw [← unreachableArm_mem_armMessages_iff hpay ht (fun r hr ↦ hrows r (hsub r hr))
      (hrows _ harm) (fun r hr ↦ hn r (hsub r hr)) hany]
    unfold armMessages
    split_ifs <;> simp

/-- An option of integers, as the checker sees it. -/
def optionEnums : Enums := fun name ↦ if name = "Option" then [[.int], []] else []

theorem optionEnums_inhabited :
    ∀ e, ∀ us ∈ optionEnums e, ∀ u ∈ us, ∃ v, Value.HasTy optionEnums v u := by
  intro e us hus u hu
  simp only [optionEnums] at hus
  split at hus
  · simp only [List.mem_cons, List.not_mem_nil, or_false] at hus
    rcases hus with rfl | rfl
    · obtain rfl := List.mem_singleton.1 hu
      exact ⟨.int 0, trivial⟩
    · simp at hu
  · simp at hus

/-- `match o { Some(200) => .., None => .. }`. -/
def someLiteralMatch : PendingExhaustive where
  scrutinee := .enum [("Some", 1), ("None", 0)]
  arms := [⟨.ctor 0 2 [.int 200], false, false, ⟨0, 1⟩, by simp, by simp⟩,
    ⟨.ctor 1 2 [], false, false, ⟨1, 2⟩, by simp, by simp⟩]
  matchRange := ⟨0, 2⟩

/-- `Some(404)` escapes `Some(200)` and `None`, so the match is reported. -/
theorem checkExhaustiveness_exact_someLiteralMatch :
    (∃ v, Value.HasTy optionEnums v (.enum "Option")) ∧
      ∃ m ∈ checkExhaustiveness someLiteralMatch, m.code = .nonExhaustiveMatch := by
  have hnone : Value.HasTy optionEnums (.ctor 1 []) (.enum "Option") := by
    simp [optionEnums]
  refine ⟨⟨_, hnone⟩, ?_⟩
  have h := (checkExhaustiveness_exact optionEnums optionEnums_inhabited (.enum "Option")
    ⟨_, hnone⟩).2 someLiteralMatch
  have hrows : closingRows someLiteralMatch.arms = [.ctor 0 2 [.int 200], .ctor 1 2 []] := by
    simp [closingRows, closingArms, someLiteralMatch, CoverageTree.isAny]
  rw [hrows] at h
  refine (h ?_ ?_ ⟨404, ?_⟩).1.2 ⟨.ctor 0 [.int 404], ?_, ?_⟩
  · simp [someLiteralMatch, Scrutinee.Describes, optionEnums]
  · simp [optionEnums]
  · simp
  · simp [optionEnums]
  · simp [Escapes]

/-- A binding below `default`: `match n { default => .., x => .. }`. -/
def bindingBelowDefault : PendingExhaustive where
  scrutinee := .int
  arms := [⟨.any, true, true, ⟨0, 1⟩, by simp, by simp⟩,
    ⟨.any, true, false, ⟨1, 2⟩, by simp, by simp⟩]
  matchRange := ⟨0, 2⟩

/-- Two limits of exactness. An enum without variants has no value, yet `_` is useful against no
rows; and a catch-all that matches nothing new is not reported. -/
theorem useful_any_of_no_variants_and_silent_catchall :
    (useful [] .any = true ∧ ¬ ∃ v, Value.HasTy (fun _ ↦ []) v (.enum "Never")) ∧
      checkExhaustiveness bindingBelowDefault = [] ∧
        ∀ v, ¬ Escapes (closingRows (bindingBelowDefault.arms.take 1)) v := by
  refine ⟨⟨?_, ?_⟩, ?_, ?_⟩
  · simp [useful, usefulVec, headVariants, defaultRows]
  · rintro ⟨v, hv⟩
    cases v with
    | int _ => simp at hv
    | ctor _ _ => simp at hv
  · simp [checkExhaustiveness, bindingBelowDefault, scanArms, scanArm, closingMessages,
      armMessages]
  · intro v
    refine not_escapes_of_hasCatchall ?_
    simp [bindingBelowDefault]

end CoilLang.Coverage
