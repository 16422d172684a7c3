import CoilLang.Lib.Fuel
import CoilLang.Mir.Run

/-!
# Lane expressions

The predicate of a byte scan is a tree over lanes, built by `and`, `or` and `not`, which simplify as
they build: constants, a term against its negation, absorbed terms, and the terms two `&` chains
share. The three **call each other**: `and` and `or` ask whether one tree is the negation of another,
`not` pushes a negation down by building the dual tree, and keeps the result when it is no larger. So
they are written over fuel, and `Returns` says that they come back.

That they do rests on sizes. A tree is at most one node larger than its parts, so the two negations
`not` joins have **a level below the tree's size** (`level`), while `and` and `or` only ask about negations of
trees up to their operands, and otherwise go on with operands that add up to less; the one call that
goes on with a larger tree, `and` of the shared terms with the joined rests, is below its own level
(`returns_orChains`).
-/

namespace CoilLang.Mir

/-- A lane operand of a byte scan's predicate. -/
inductive LaneVal
  /-- Byte `k` of stream `s` in lane `k`. -/
  | stream (s : UInt8)
  /-- The same word in every lane. -/
  | scalar (k : UInt8)
  deriving DecidableEq, Repr

/-- A byte scan's predicate over byte lanes. -/
inductive LaneExpr
  | const (b : Bool)
  | cmp (op : MirCmpOp) (lhs rhs : LaneVal)
  | andNode (a b : LaneExpr)
  | orNode (a b : LaneExpr)
  | notNode (a : LaneExpr)
  deriving DecidableEq, Repr

/-- The compare with the opposite predicate. -/
def MirCmpOp.opposite : MirCmpOp → MirCmpOp
  | lt => ge
  | le => gt
  | gt => le
  | ge => lt
  | eq => ne
  | ne => eq

namespace LaneExpr

/-- Nodes in the tree. -/
def size : LaneExpr → ℕ
  | const _ | cmp .. => 1
  | andNode a b | orNode a b => 1 + a.size + b.size
  | notNode a => 1 + a.size

/-- The terms of an `&` chain (the tree alone when it is not one). -/
def conjuncts : LaneExpr → List LaneExpr
  | andNode x y => x.conjuncts ++ y.conjuncts
  | e => [e]

/-- `y` when `e` is `x | y` with `x` the negation of `a`. -/
def restOfOr (isNotOf : LaneExpr → LaneExpr → Option Bool) (e a : LaneExpr) :
    Option (Option LaneExpr) :=
  match e with
  | orNode x y => (isNotOf x a).map fun r ↦ if r then some y else none
  | _ => some none

/-- `y` when `e` is `x & y` with `x` the negation of `a`. -/
def restOfAnd (isNotOf : LaneExpr → LaneExpr → Option Bool) (e a : LaneExpr) :
    Option (Option LaneExpr) :=
  match e with
  | andNode x y => (isNotOf x a).map fun r ↦ if r then some y else none
  | _ => some none

/-- `and` of two trees with no constant, equal, negated or absorbed: two `&` chains. -/
def andChains (isNotOf : LaneExpr → LaneExpr → Option Bool) (a b : LaneExpr) : Option LaneExpr := do
  let ca := a.conjuncts
  let cb := b.conjuncts
  if ← ca.anyM fun x ↦ cb.anyM fun y ↦ isNotOf x y then return const false
  if cb.all (· ∈ ca) then return a
  if ca.all (· ∈ cb) then return b
  return andNode a b

/-- `or` of such trees: the terms two `&` chains share go in front. -/
def orChains (all : List LaneExpr → Option LaneExpr) (and or : LaneExpr → LaneExpr → Option LaneExpr)
    (a b : LaneExpr) : Option LaneExpr := do
  let ca := a.conjuncts
  let cb := b.conjuncts
  let shared := ca.filter (· ∈ cb)
  if shared = [] then return orNode a b
  let rest := fun c : List LaneExpr ↦ all (c.filter (· ∉ shared))
  let x ← all shared
  let ra ← rest ca
  let rb ← rest cb
  and x (← or ra rb)

mutual

/-- `a & b`, folding constants, `a & a`, `a & !a`, `a & (!a | b)`, and on `&` chains `x & (x & y)` and
a term against its negation. -/
def and : ℕ → LaneExpr → LaneExpr → Option LaneExpr
  | 0, _, _ => none
  | n + 1, a, b =>
    match a, b with
    | const false, _ | _, const false => some (const false)
    | const true, x | x, const true => some x
    | a, b => do
      if a = b then return a
      if ← isNotOf n a b then return const false
      if let some y ← restOfOr (isNotOf n) b a then return ← and n a y
      if let some y ← restOfOr (isNotOf n) a b then return ← and n y b
      andChains (isNotOf n) a b

/-- Terms joined by `&`; `true` when there are none. -/
def all : ℕ → List LaneExpr → Option LaneExpr
  | 0, _ => none
  | n + 1, terms => terms.foldlM (and n) (const true)

/-- `a | b`, folding constants, `a | a`, `a | !a`, `a | (!a & b)`, and the terms two `&` chains
share. -/
def or : ℕ → LaneExpr → LaneExpr → Option LaneExpr
  | 0, _, _ => none
  | n + 1, a, b =>
    match a, b with
    | const true, _ | _, const true => some (const true)
    | const false, x | x, const false => some x
    | a, b => do
      if a = b then return a
      if ← isNotOf n a b then return const true
      if let some y ← restOfAnd (isNotOf n) b a then return ← or n a y
      if let some y ← restOfAnd (isNotOf n) a b then return ← or n y b
      orChains (all n) (and n) (or n) a b

/-- Whether one is the negation of the other. -/
def isNotOf : ℕ → LaneExpr → LaneExpr → Option Bool
  | 0, _, _ => none
  | n + 1, a, b => do
    if (← not n a) = b then return true
    return (← not n b) = a

def not : ℕ → LaneExpr → Option LaneExpr
  | 0, _ => none
  | n + 1, a =>
    match a with
    | const b => some (const !b)
    | notNode x => some x
    | cmp op lhs rhs => some (cmp op.opposite lhs rhs)
    | andNode x y => do
      let size := 1 + x.size + y.size
      let pushed ← or n (← not n x) (← not n y)
      return if pushed.size ≤ size then pushed else notNode (andNode x y)
    | orNode x y => do
      let size := 1 + x.size + y.size
      let pushed ← and n (← not n x) (← not n y)
      return if pushed.size ≤ size then pushed else notNode (orNode x y)

end

/-! ### What a tree means -/

/-- The truth of a tree in a lane, from the words its operands have there. -/
def eval (lane : LaneVal → Word) : LaneExpr → Bool
  | const b => b
  | cmp op lhs rhs => evalCmp op (lane lhs) (lane rhs)
  | andNode a b => a.eval lane && b.eval lane
  | orNode a b => a.eval lane || b.eval lane
  | notNode a => !a.eval lane

theorem evalCmp_opposite (op : MirCmpOp) (a b : Word) :
    evalCmp op.opposite a b = !evalCmp op a b := by
  cases op <;> simp only [MirCmpOp.opposite, evalCmp, ← decide_not, Int.not_lt, Int.not_le, not_not]

theorem size_pos (a : LaneExpr) : 0 < a.size := by
  cases a <;> simp only [size] <;> omega

theorem eval_conjuncts (lane : LaneVal → Word) (a : LaneExpr) :
    (a.conjuncts.all fun t ↦ t.eval lane) = a.eval lane := by
  fun_induction conjuncts a with
  | case1 x y ihx ihy => rw [List.all_append, ihx, ihy, eval]
  | case2 e h => simp

/-- The size of a chain of terms with one node more. -/
def weight (terms : List LaneExpr) : ℕ := (terms.map fun t ↦ t.size + 1).sum

@[simp] theorem weight_cons (t : LaneExpr) (terms : List LaneExpr) :
    weight (t :: terms) = t.size + 1 + weight terms := by
  rw [weight, List.map_cons, List.sum_cons, weight]

@[simp] theorem weight_append (s t : List LaneExpr) : weight (s ++ t) = weight s + weight t := by
  simp [weight]

theorem weight_conjuncts (a : LaneExpr) : weight a.conjuncts = a.size + 1 := by
  fun_induction conjuncts a with
  | case1 x y ihx ihy =>
    rw [weight_append, ihx, ihy, size]
    omega
  | case2 e h => simp [weight]

theorem size_lt_weight {terms : List LaneExpr} {t : LaneExpr} (h : t ∈ terms) :
    t.size < weight terms := by
  obtain ⟨s, r, rfl⟩ := List.append_of_mem h
  simp only [weight, List.map_append, List.map_cons, List.sum_append, List.sum_cons]
  omega

theorem weight_filter_add (p : LaneExpr → Bool) (terms : List LaneExpr) :
    weight (terms.filter p) + weight (terms.filter fun t ↦ !p t) = weight terms := by
  induction terms with
  | nil => rfl
  | cons t terms ih =>
    cases h : p t with
    | false =>
      rw [List.filter_cons_of_neg (by simp [h]), List.filter_cons_of_pos (by simp [h]), weight_cons,
        weight_cons]
      omega
    | true =>
      rw [List.filter_cons_of_pos (by simp [h]), List.filter_cons_of_neg (by simp [h]), weight_cons,
        weight_cons]
      omega

theorem size_le_of_mem_conjuncts {a t : LaneExpr} (h : t ∈ a.conjuncts) : t.size ≤ a.size := by
  have h1 := size_lt_weight h
  rw [weight_conjuncts] at h1
  omega

/-! ### The arms -/

section
variable {n : ℕ} {a b x y : LaneExpr}

theorem and_false_left : and (n + 1) (const false) b = some (const false) := by
  rw [and.eq_def]

theorem and_false_right : and (n + 1) a (const false) = some (const false) := by
  rw [and.eq_def]
  dsimp only
  split <;> simp_all

theorem and_true_left : and (n + 1) (const true) b = some b := by
  rw [and.eq_def]
  dsimp only
  split <;> simp_all

theorem and_true_right : and (n + 1) a (const true) = some a := by
  rw [and.eq_def]
  dsimp only
  split <;> simp_all

theorem or_true_left : or (n + 1) (const true) b = some (const true) := by
  rw [or.eq_def]

theorem or_true_right : or (n + 1) a (const true) = some (const true) := by
  rw [or.eq_def]
  dsimp only
  split <;> simp_all

theorem or_false_left : or (n + 1) (const false) b = some b := by
  rw [or.eq_def]
  dsimp only
  split <;> simp_all

theorem or_false_right : or (n + 1) a (const false) = some a := by
  rw [or.eq_def]
  dsimp only
  split <;> simp_all

end

/-! ### Each call returns -/

/-- What a call of `and` is to return. -/
def AndReturns (a b : LaneExpr) : Prop :=
  ∃ e, Returns (fun n ↦ and n a b) e ∧ e.size ≤ 1 + a.size + b.size ∧
    ∀ lane, e.eval lane = (a.eval lane && b.eval lane)

def OrReturns (a b : LaneExpr) : Prop :=
  ∃ e, Returns (fun n ↦ or n a b) e ∧ e.size ≤ 1 + a.size + b.size ∧
    ∀ lane, e.eval lane = (a.eval lane || b.eval lane)

def NotReturns (a : LaneExpr) : Prop :=
  ∃ e, Returns (fun n ↦ not n a) e ∧ e.size ≤ 1 + a.size ∧ ∀ lane, e.eval lane = !a.eval lane

/-- The truth of one is the falsity of the other in every lane. -/
def Opposite (a b : LaneExpr) : Prop := ∀ lane, a.eval lane = !b.eval lane

theorem returns_isNotOf {a b : LaneExpr} (ha : NotReturns a) (hb : NotReturns b) :
    ∃ r, Returns (fun n ↦ isNotOf n a b) r ∧ (r = true → Opposite a b) := by
  obtain ⟨na, hna, -, hva⟩ := ha
  obtain ⟨nb, hnb, -, hvb⟩ := hb
  refine ⟨na = b || nb = a, .of_succ ?_, fun h lane ↦ ?_⟩
  · filter_upwards [hna, hnb] with n h1 h2
    rw [isNotOf]
    by_cases hab : na = b <;> simp [h1, h2, hab]
  · rw [Bool.or_eq_true, decide_eq_true_eq, decide_eq_true_eq] at h
    rcases h with rfl | rfl
    · rw [hva, Bool.not_not]
    · exact hvb lane

/-- The trees whose negation is known to return, for a test on two of them. -/
theorem returns_anyM_isNotOf (ca cb : List LaneExpr) (ha : ∀ x ∈ ca, NotReturns x)
    (hb : ∀ y ∈ cb, NotReturns y) :
    ∃ r, Returns (fun n ↦ ca.anyM fun x ↦ cb.anyM fun y ↦ isNotOf n x y) r ∧
      (r = true → ∃ x ∈ ca, ∃ y ∈ cb, Opposite x y) :=
  exists_returns_anyM ca fun x hx ↦ exists_returns_anyM cb fun y hy ↦
    returns_isNotOf (ha x hx) (hb y hy)

/-- A term of a chain that is false makes the chain false. -/
theorem eval_eq_false_of_opposite {a b x y : LaneExpr} (hx : x ∈ a.conjuncts) (hy : y ∈ b.conjuncts)
    (h : Opposite x y) (lane : LaneVal → Word) : (a.eval lane && b.eval lane) = false := by
  rw [← eval_conjuncts lane a, ← eval_conjuncts lane b, Bool.and_eq_false_iff]
  cases hyv : y.eval lane with
  | false => exact Or.inr (List.all_eq_false.2 ⟨y, hy, by simp [hyv]⟩)
  | true => exact Or.inl (List.all_eq_false.2 ⟨x, hx, by simp [h lane, hyv]⟩)

/-- A chain whose terms are among another's is true when that is. -/
theorem eval_of_conjuncts_subset {a b : LaneExpr} (h : ∀ x ∈ a.conjuncts, x ∈ b.conjuncts)
    {lane : LaneVal → Word} (hb : b.eval lane = true) : a.eval lane = true := by
  rw [← eval_conjuncts, List.all_eq_true] at hb ⊢
  exact fun x hx ↦ hb x (h x hx)

theorem returns_andChains {a b : LaneExpr} (hnot : ∀ x, x.size ≤ max a.size b.size → NotReturns x) :
    ∃ e, Returns (fun n ↦ andChains (isNotOf n) a b) e ∧ e.size ≤ 1 + a.size + b.size ∧
      ∀ lane, e.eval lane = (a.eval lane && b.eval lane) := by
  obtain ⟨r, hr, hopp⟩ := returns_anyM_isNotOf a.conjuncts b.conjuncts
    (fun x hx ↦ hnot x (Nat.le_trans (size_le_of_mem_conjuncts hx) (Nat.le_max_left _ _)))
    (fun y hy ↦ hnot y (Nat.le_trans (size_le_of_mem_conjuncts hy) (Nat.le_max_right _ _)))
  cases r with
  | true =>
    obtain ⟨x, hx, y, hy, hxy⟩ := hopp rfl
    refine ⟨const false, ?_, by simp only [size]; omega, fun lane ↦ ?_⟩
    · filter_upwards [hr] with n h1
      simp [andChains, h1]
    · rw [eval_eq_false_of_opposite hx hy hxy lane, eval]
  | false =>
    by_cases hba : ∀ y ∈ b.conjuncts, y ∈ a.conjuncts
    · refine ⟨a, ?_, by omega, fun lane ↦ ?_⟩
      · filter_upwards [hr] with n h1
        simp only [andChains, h1]
        simpa using fun y hy hn ↦ absurd (hba y hy) hn
      · cases hv : a.eval lane with
        | false => rfl
        | true => rw [eval_of_conjuncts_subset hba hv]; rfl
    · by_cases hab : ∀ x ∈ a.conjuncts, x ∈ b.conjuncts
      · refine ⟨b, ?_, by omega, fun lane ↦ ?_⟩
        · filter_upwards [hr] with n h1
          simp only [andChains, h1]
          simpa [hba] using fun x hx hn ↦ absurd (hab x hx) hn
        · cases hv : b.eval lane with
          | false => rw [Bool.and_false]
          | true => rw [eval_of_conjuncts_subset hab hv]; rfl
      · refine ⟨andNode a b, ?_, by simp [size], fun lane ↦ rfl⟩
        filter_upwards [hr] with n h1
        simp [andChains, h1, hba, hab]

/-- Joining terms returns when each `and` of what is joined so far with the next term does. -/
theorem returns_all (terms : List LaneExpr)
    (h : ∀ x y : LaneExpr, x.size + y.size + 2 ≤ weight terms → AndReturns x y) :
    ∃ e, Returns (fun n ↦ all n terms) e ∧ (terms = [] → e = const true) ∧
      (terms ≠ [] → e.size < weight terms) ∧
        ∀ lane, e.eval lane = terms.all fun t ↦ t.eval lane := by
  obtain ⟨e, he, hI⟩ := exists_returns_foldlM (f := and) (b := const true)
    (I := fun pre e ↦ (pre = [] → e = const true) ∧ (pre ≠ [] → e.size < weight pre) ∧
      ∀ lane, e.eval lane = pre.all fun t ↦ t.eval lane) terms
    ⟨fun _ ↦ rfl, fun hn ↦ absurd rfl hn, fun lane ↦ rfl⟩ fun pre t post hl acc hacc ↦ by
      obtain ⟨h0, hlt, hev⟩ := hacc
      by_cases hpre : pre = []
      · -- the first term joined to `true` is itself
        rw [h0 hpre, hpre]
        refine ⟨t, .of_succ (.of_forall fun n ↦ and_true_left), by simp, ?_, by simp⟩
        simp [weight]
      · have hacc := hlt hpre
        have hw : weight terms = weight pre + (t.size + 1 + weight post) := by
          rw [hl, weight_append]
          simp [weight]
        obtain ⟨e, he, hsize, hev'⟩ := h acc t (by omega)
        refine ⟨e, he, by simp, fun _ ↦ ?_, fun lane ↦ ?_⟩
        · have hw1 : weight [t] = t.size + 1 := by simp [weight]
          rw [weight_append, hw1]
          omega
        · rw [hev', hev, List.all_append]
          simp
  refine ⟨e, .of_succ ?_, hI⟩
  filter_upwards [he] with n hn
  rw [all, hn]

/-- Terms of a chain and the terms apart from them make up the chain. -/
theorem eval_split {a : LaneExpr} {s : List LaneExpr} (hs : ∀ t ∈ s, t ∈ a.conjuncts)
    (lane : LaneVal → Word) : a.eval lane =
      ((s.all fun t ↦ t.eval lane) && (a.conjuncts.filter (· ∉ s)).all fun t ↦ t.eval lane) := by
  rw [← eval_conjuncts, Bool.eq_iff_iff, Bool.and_eq_true]
  simp only [List.all_eq_true, List.mem_filter, decide_eq_true_eq]
  refine ⟨fun h ↦ ⟨fun t ht ↦ h t (hs t ht), fun t ht ↦ h t ht.1⟩, fun h t ht ↦ ?_⟩
  by_cases hts : t ∈ s
  · exact h.1 t hts
  · exact h.2 t ⟨ht, hts⟩

theorem weight_split (a : LaneExpr) (s : List LaneExpr) :
    weight (a.conjuncts.filter (· ∈ s)) + weight (a.conjuncts.filter (· ∉ s)) = a.size + 1 := by
  have h := weight_filter_add (· ∈ s) a.conjuncts
  simpa only [← decide_not, weight_conjuncts] using h

/-- A term of a chain leaves the rest of the chain smaller by its size and a node. -/
theorem weight_rest_lt {a t : LaneExpr} {s : List LaneExpr} (ha : t ∈ a.conjuncts) (hs : t ∈ s) :
    weight (a.conjuncts.filter (· ∉ s)) + 2 ≤ a.size + 1 := by
  have h := weight_split a s
  have hlt : t.size < weight (a.conjuncts.filter (· ∈ s)) :=
    size_lt_weight (List.mem_filter.2 ⟨ha, by simpa using hs⟩)
  have hpos := t.size_pos
  omega

/-- The last arm of `or` returns when the calls it makes do. -/
theorem returns_orChains {a b : LaneExpr}
    (hall : ∀ x y : LaneExpr, x.size + y.size < max a.size b.size → AndReturns x y)
    (hor : ∀ x y : LaneExpr, x.size + 2 ≤ a.size → y.size + 2 ≤ b.size → OrReturns x y)
    (hand : ∀ x y : LaneExpr, x.size + 2 ≤ a.size → x.size + y.size + 2 ≤ a.size + b.size →
      y.size + 3 ≤ a.size + b.size → AndReturns x y) :
    ∃ e, Returns (fun n ↦ orChains (all n) (and n) (or n) a b) e ∧ e.size ≤ 1 + a.size + b.size ∧
      ∀ lane, e.eval lane = (a.eval lane || b.eval lane) := by
  obtain ⟨shared, hshared⟩ : ∃ s, s = a.conjuncts.filter (· ∈ b.conjuncts) := ⟨_, rfl⟩
  have hmem (t : LaneExpr) : t ∈ shared ↔ t ∈ a.conjuncts ∧ t ∈ b.conjuncts := by
    rw [hshared, List.mem_filter, decide_eq_true_eq]
  by_cases hs : shared = []
  · refine ⟨orNode a b, .of_forall fun n ↦ ?_, by simp [size], fun lane ↦ rfl⟩
    simp only [orChains, ← hshared, if_pos hs]
    rfl
  obtain ⟨t, ht⟩ := List.exists_mem_of_ne_nil _ hs
  -- the weights of the parts of the two chains
  have hfilter : a.conjuncts.filter (· ∈ shared) = shared := by
    rw [hshared]
    exact List.filter_congr fun t ht ↦ by simp [ht]
  have hwa := weight_split a shared
  have hwb := weight_rest_lt ((hmem t).1 ht).2 ht
  have hws : t.size < weight shared := size_lt_weight ht
  rw [hfilter] at hwa
  obtain ⟨s, hsr, -, hsw, hsv⟩ := returns_all shared fun x y h ↦ hall x y (by omega)
  obtain ⟨ea, har, ha0, haw, hav⟩ :=
    returns_all (a.conjuncts.filter (· ∉ shared)) fun x y h ↦ hall x y (by omega)
  obtain ⟨eb, hbr, hb0, hbw, hbv⟩ :=
    returns_all (b.conjuncts.filter (· ∉ shared)) fun x y h ↦ hall x y (by omega)
  have hsw := hsw hs
  have heval (lane : LaneVal → Word) :
      (s.eval lane && (ea.eval lane || eb.eval lane)) = (a.eval lane || b.eval lane) := by
    rw [eval_split (fun t ht ↦ ((hmem t).1 ht).1) lane,
      eval_split (fun t ht ↦ ((hmem t).1 ht).2) lane, hsv, hav, hbv, Bool.and_or_distrib_left]
  -- what the last two calls give, from what they are given
  have hlast (o e : LaneExpr) (ho : Returns (fun n ↦ or n ea eb) o)
      (he : Returns (fun n ↦ and n s o) e) :
      Returns (fun n ↦ orChains (all n) (and n) (or n) a b) e := by
    filter_upwards [hsr, har, hbr, ho, he] with n h1 h2 h3 h4 h5
    simp only [orChains, ← hshared, if_neg hs, h1, h2, h3, h4, h5, Option.bind_eq_bind,
      Option.bind_some]
  by_cases htrue : a.conjuncts.filter (· ∉ shared) = [] ∨ b.conjuncts.filter (· ∉ shared) = []
  · -- one chain has no other terms: what is left is the shared ones
    have ho : Returns (fun n ↦ or n ea eb) (const true) ∧
        ∀ lane, (ea.eval lane || eb.eval lane) = true := by
      rcases htrue with h | h
      · rw [ha0 h]
        exact ⟨.of_succ (.of_forall fun n ↦ or_true_left), fun lane ↦ rfl⟩
      · rw [hb0 h]
        exact ⟨.of_succ (.of_forall fun n ↦ or_true_right), fun lane ↦ Bool.or_true _⟩
    refine ⟨s, hlast _ s ho.1 (.of_succ (.of_forall fun n ↦ and_true_right)), by omega,
      fun lane ↦ ?_⟩
    rw [← heval lane, ho.2 lane, Bool.and_true]
  · rw [not_or] at htrue
    have ht1 := t.size_pos
    have ha1 := ea.size_pos
    have haw := haw htrue.1
    have hbw := hbw htrue.2
    obtain ⟨o, ho, hosize, hov⟩ := hor ea eb (by omega) (by omega)
    obtain ⟨e, he, hesize, hev⟩ := hand s o (by omega) (by omega) (by omega)
    refine ⟨e, hlast o e ho he, by omega, fun lane ↦ ?_⟩
    rw [hev, hov, heval]

/-! ### The recursion -/

/-- Neither tree is a constant. -/
theorem and_eq {n : ℕ} {a b : LaneExpr} (ha : ∀ c, a ≠ const c) (hb : ∀ c, b ≠ const c) :
    and (n + 1) a b = (do
      if a = b then return a
      if ← isNotOf n a b then return const false
      if let some y ← restOfOr (isNotOf n) b a then return ← and n a y
      if let some y ← restOfOr (isNotOf n) a b then return ← and n y b
      andChains (isNotOf n) a b) := by
  rw [and.eq_def]
  dsimp only
  split <;> simp_all

theorem or_eq {n : ℕ} {a b : LaneExpr} (ha : ∀ c, a ≠ const c) (hb : ∀ c, b ≠ const c) :
    or (n + 1) a b = (do
      if a = b then return a
      if ← isNotOf n a b then return const true
      if let some y ← restOfAnd (isNotOf n) b a then return ← or n a y
      if let some y ← restOfAnd (isNotOf n) a b then return ← or n y b
      orChains (all n) (and n) (or n) a b) := by
  rw [or.eq_def]
  dsimp only
  split <;> simp_all

theorem returns_restOfOr {e a : LaneExpr} (hnot : ∀ x, x.size ≤ max e.size a.size → NotReturns x) :
    ∃ r, Returns (fun n ↦ restOfOr (isNotOf n) e a) r ∧
      ∀ y, r = some y → ∃ x, e = orNode x y ∧ Opposite x a := by
  cases e with
  | orNode x y =>
    obtain ⟨r, hr, hopp⟩ := returns_isNotOf (a := x) (b := a)
      (hnot x (by simp only [size]; omega)) (hnot a (Nat.le_max_right _ _))
    refine ⟨if r then some y else none, ?_, fun z hz ↦ ?_⟩
    · filter_upwards [hr] with n h1
      rw [restOfOr, h1]
      rfl
    · cases r with
      | true =>
        cases hz
        exact ⟨x, rfl, hopp rfl⟩
      | false => cases hz
  | _ => exact ⟨none, .of_forall fun n ↦ rfl, fun y hy ↦ by cases hy⟩

theorem returns_restOfAnd {e a : LaneExpr} (hnot : ∀ x, x.size ≤ max e.size a.size → NotReturns x) :
    ∃ r, Returns (fun n ↦ restOfAnd (isNotOf n) e a) r ∧
      ∀ y, r = some y → ∃ x, e = andNode x y ∧ Opposite x a := by
  cases e with
  | andNode x y =>
    obtain ⟨r, hr, hopp⟩ := returns_isNotOf (a := x) (b := a)
      (hnot x (by simp only [size]; omega)) (hnot a (Nat.le_max_right _ _))
    refine ⟨if r then some y else none, ?_, fun z hz ↦ ?_⟩
    · filter_upwards [hr] with n h1
      rw [restOfAnd, h1]
      rfl
    · cases r with
      | true =>
        cases hz
        exact ⟨x, rfl, hopp rfl⟩
      | false => cases hz
  | _ => exact ⟨none, .of_forall fun n ↦ rfl, fun y hy ↦ by cases hy⟩

/-- `and` returns when the negations it looks at do, and `and` of smaller operands. -/
theorem andReturns_of {a b : LaneExpr}
    (hnot : ∀ x, x.size ≤ max a.size b.size → NotReturns x)
    (hl : ∀ y, y.size < b.size → AndReturns a y) (hr : ∀ y, y.size < a.size → AndReturns y b) :
    AndReturns a b := by
  by_cases ha : ∃ c, a = const c
  · obtain ⟨c, rfl⟩ := ha
    cases c with
    | false =>
      exact ⟨const false, .of_succ (.of_forall fun n ↦ and_false_left), by omega, fun lane ↦ rfl⟩
    | true => exact ⟨b, .of_succ (.of_forall fun n ↦ and_true_left), by omega, fun lane ↦ rfl⟩
  by_cases hb : ∃ c, b = const c
  · obtain ⟨c, rfl⟩ := hb
    cases c with
    | false =>
      exact ⟨const false, .of_succ (.of_forall fun n ↦ and_false_right), by omega,
        fun lane ↦ (Bool.and_false _).symm⟩
    | true =>
      exact ⟨a, .of_succ (.of_forall fun n ↦ and_true_right), by omega,
        fun lane ↦ (Bool.and_true _).symm⟩
  have heq (n : ℕ) := and_eq (n := n) (fun c hc ↦ ha ⟨c, hc⟩) fun c hc ↦ hb ⟨c, hc⟩
  by_cases hab : a = b
  · subst hab
    refine ⟨a, .of_succ (.of_forall fun n ↦ ?_), by omega, fun lane ↦ (Bool.and_self _).symm⟩
    rw [heq, if_pos rfl]
    rfl
  obtain ⟨r, hr0, hopp⟩ := returns_isNotOf (hnot a (Nat.le_max_left _ _))
    (hnot b (Nat.le_max_right _ _))
  cases r with
  | true =>
    refine ⟨const false, .of_succ ?_, by simp only [size]; omega, fun lane ↦ ?_⟩
    · filter_upwards [hr0] with n h1
      simp [heq, hab, h1]
    · rw [eval, hopp rfl lane, Bool.not_and_self]
  | false =>
    obtain ⟨r5, hr5, h5⟩ := returns_restOfOr (e := b) (a := a) fun x hx ↦ hnot x (by omega)
    obtain ⟨r6, hr6, h6⟩ := returns_restOfOr (e := a) (a := b) fun x hx ↦ hnot x (by omega)
    cases r5 with
    | some y =>
      obtain ⟨x, rfl, hx⟩ := h5 y rfl
      obtain ⟨e, he, hsize, hev⟩ := hl y (by simp only [size]; omega)
      refine ⟨e, .of_succ ?_, by simp only [size]; omega, fun lane ↦ ?_⟩
      · filter_upwards [hr0, hr5, he] with n h1 h2 h3
        simp [heq, hab, h1, h2, h3]
      · rw [hev, eval, hx lane]
        cases a.eval lane <;> rfl
    | none =>
      cases r6 with
      | some y =>
        obtain ⟨x, rfl, hx⟩ := h6 y rfl
        obtain ⟨e, he, hsize, hev⟩ := hr y (by simp only [size]; omega)
        refine ⟨e, .of_succ ?_, by simp only [size]; omega, fun lane ↦ ?_⟩
        · filter_upwards [hr0, hr5, hr6, he] with n h1 h2 h3 h4
          simp [heq, hab, h1, h2, h3, h4]
        · rw [hev, eval, hx lane]
          cases b.eval lane <;> simp
      | none =>
        obtain ⟨e, he, hsize, hev⟩ := returns_andChains hnot
        refine ⟨e, .of_succ ?_, hsize, hev⟩
        filter_upwards [hr0, hr5, hr6, he] with n h1 h2 h3 h4
        simp [heq, hab, h1, h2, h3, h4]

/-- The level of a call: an operand's size, or what both have apart from their roots. -/
def level (a b : LaneExpr) : ℕ := max (max a.size b.size) (a.size + b.size - 2)

/-- `or` returns when the negations it looks at do, `and` and `or` of smaller operands, and `and` at a
lower level. -/
theorem orReturns_of {a b : LaneExpr}
    (hnot : ∀ x, x.size ≤ max a.size b.size → NotReturns x)
    (hor : ∀ x y : LaneExpr, x.size ≤ a.size → y.size ≤ b.size →
      x.size + y.size < a.size + b.size → OrReturns x y)
    (hall : ∀ x y : LaneExpr, x.size + y.size < max a.size b.size → AndReturns x y)
    (hand : ∀ x y, level x y < level a b → AndReturns x y) :
    OrReturns a b := by
  by_cases ha : ∃ c, a = const c
  · obtain ⟨c, rfl⟩ := ha
    cases c with
    | true =>
      exact ⟨const true, .of_succ (.of_forall fun n ↦ or_true_left), by omega, fun lane ↦ rfl⟩
    | false => exact ⟨b, .of_succ (.of_forall fun n ↦ or_false_left), by omega, fun lane ↦ rfl⟩
  by_cases hb : ∃ c, b = const c
  · obtain ⟨c, rfl⟩ := hb
    cases c with
    | true =>
      exact ⟨const true, .of_succ (.of_forall fun n ↦ or_true_right), by omega,
        fun lane ↦ (Bool.or_true _).symm⟩
    | false =>
      exact ⟨a, .of_succ (.of_forall fun n ↦ or_false_right), by omega,
        fun lane ↦ (Bool.or_false _).symm⟩
  have heq (n : ℕ) := or_eq (n := n) (fun c hc ↦ ha ⟨c, hc⟩) fun c hc ↦ hb ⟨c, hc⟩
  by_cases hab : a = b
  · subst hab
    refine ⟨a, .of_succ (.of_forall fun n ↦ ?_), by omega, fun lane ↦ (Bool.or_self _).symm⟩
    rw [heq, if_pos rfl]
    rfl
  obtain ⟨r, hr0, hopp⟩ := returns_isNotOf (hnot a (Nat.le_max_left _ _))
    (hnot b (Nat.le_max_right _ _))
  cases r with
  | true =>
    refine ⟨const true, .of_succ ?_, by simp only [size]; omega, fun lane ↦ ?_⟩
    · filter_upwards [hr0] with n h1
      simp [heq, hab, h1]
    · rw [eval, hopp rfl lane, Bool.not_or_self]
  | false =>
    obtain ⟨r5, hr5, h5⟩ := returns_restOfAnd (e := b) (a := a) fun x hx ↦ hnot x (by omega)
    obtain ⟨r6, hr6, h6⟩ := returns_restOfAnd (e := a) (a := b) fun x hx ↦ hnot x (by omega)
    cases r5 with
    | some y =>
      obtain ⟨x, rfl, hx⟩ := h5 y rfl
      obtain ⟨e, he, hsize, hev⟩ :=
        hor a y (by omega) (by simp only [size]; omega) (by simp only [size]; omega)
      refine ⟨e, .of_succ ?_, by simp only [size]; omega, fun lane ↦ ?_⟩
      · filter_upwards [hr0, hr5, he] with n h1 h2 h3
        simp [heq, hab, h1, h2, h3]
      · rw [hev, eval, hx lane]
        cases a.eval lane <;> rfl
    | none =>
      cases r6 with
      | some y =>
        obtain ⟨x, rfl, hx⟩ := h6 y rfl
        obtain ⟨e, he, hsize, hev⟩ :=
          hor y b (by simp only [size]; omega) (by omega) (by simp only [size]; omega)
        refine ⟨e, .of_succ ?_, by simp only [size]; omega, fun lane ↦ ?_⟩
        · filter_upwards [hr0, hr5, hr6, he] with n h1 h2 h3 h4
          simp [heq, hab, h1, h2, h3, h4]
        · rw [hev, eval, hx lane]
          cases b.eval lane <;> simp
      | none =>
        obtain ⟨e, he, hsize, hev⟩ := returns_orChains (a := a) (b := b) hall
          (fun x y hx hy ↦ hor x y (by omega) (by omega) (by omega))
          fun x y hx hxy hy ↦ hand x y (by unfold level; omega)
        refine ⟨e, .of_succ ?_, hsize, hev⟩
        filter_upwards [hr0, hr5, hr6, he] with n h1 h2 h3 h4
        simp [heq, hab, h1, h2, h3, h4]

/-- De Morgan, when it costs no nodes. -/
theorem notReturns_of {a : LaneExpr} (hnot : ∀ x, x.size < a.size → NotReturns x)
    (hand : ∀ x y, level x y < a.size → AndReturns x y)
    (hor : ∀ x y, level x y < a.size → OrReturns x y) : NotReturns a := by
  cases a with
  | const b =>
    exact ⟨const !b, .of_succ (.of_forall fun n ↦ by rw [not]), by simp [size], fun lane ↦ rfl⟩
  | cmp op lhs rhs =>
    refine ⟨cmp op.opposite lhs rhs, .of_succ (.of_forall fun n ↦ by rw [not]), by simp [size],
      fun lane ↦ evalCmp_opposite _ _ _⟩
  | notNode x =>
    exact ⟨x, .of_succ (.of_forall fun n ↦ by rw [not]), by simp only [size]; omega,
      fun lane ↦ (Bool.not_not _).symm⟩
  | andNode x y =>
    obtain ⟨nx, hnx, hxs, hxv⟩ := hnot x (by simp only [size]; omega)
    obtain ⟨ny, hny, hys, hyv⟩ := hnot y (by simp only [size]; omega)
    have hx := x.size_pos
    have hy := y.size_pos
    obtain ⟨e, he, -, hev⟩ := hor nx ny (by simp only [size, level]; omega)
    refine ⟨if e.size ≤ 1 + x.size + y.size then e else notNode (andNode x y), .of_succ ?_, ?_,
      fun lane ↦ ?_⟩
    · filter_upwards [hnx, hny, he] with n h1 h2 h3
      rw [not]
      simp [h1, h2, h3]
    · split <;> simp only [size] <;> omega
    · split
      · rw [hev, hxv, hyv, eval, Bool.not_and]
      · rfl
  | orNode x y =>
    obtain ⟨nx, hnx, hxs, hxv⟩ := hnot x (by simp only [size]; omega)
    obtain ⟨ny, hny, hys, hyv⟩ := hnot y (by simp only [size]; omega)
    have hx := x.size_pos
    have hy := y.size_pos
    obtain ⟨e, he, -, hev⟩ := hand nx ny (by simp only [size, level]; omega)
    refine ⟨if e.size ≤ 1 + x.size + y.size then e else notNode (orNode x y), .of_succ ?_, ?_,
      fun lane ↦ ?_⟩
    · filter_upwards [hnx, hny, he] with n h1 h2 h3
      rw [not]
      simp [h1, h2, h3]
    · split <;> simp only [size] <;> omega
    · split
      · rw [hev, hxv, hyv, eval, Bool.not_or]
      · rfl

/-- Calls of one level return when those below it do: the negations first, then the pairs by what their
operands add up to. -/
theorem returns_of_level (l : ℕ) :
    (∀ a : LaneExpr, a.size ≤ l → NotReturns a) ∧
      ∀ a b, level a b ≤ l → AndReturns a b ∧ OrReturns a b := by
  induction l using Nat.strong_induction_on with
  | _ l ih =>
    have hnot (a : LaneExpr) (ha : a.size ≤ l) : NotReturns a := by
      have hpos := a.size_pos
      exact notReturns_of (fun x hx ↦ (ih x.size (by omega)).1 x le_rfl)
        (fun x y h ↦ ((ih (level x y) (by omega)).2 x y le_rfl).1)
        fun x y h ↦ ((ih (level x y) (by omega)).2 x y le_rfl).2
    refine ⟨hnot, fun a b hab ↦ ?_⟩
    obtain ⟨s, hs⟩ : ∃ s, s = a.size + b.size := ⟨_, rfl⟩
    induction s using Nat.strong_induction_on generalizing a b with
    | _ s ihs =>
      have hl := hab
      unfold level at hl
      have hlower (x y : LaneExpr) (h : x.size + y.size < s) (hlev : level x y ≤ l) :=
        ihs _ h x y hlev rfl
      refine ⟨andReturns_of (fun x hx ↦ hnot x (by omega)) (fun y hy ↦ ?_) fun y hy ↦ ?_,
        orReturns_of (fun x hx ↦ hnot x (by omega)) (fun x y hx hy h ↦ ?_) (fun x y h ↦ ?_)
          fun x y h ↦ ?_⟩
      · exact (hlower a y (by omega) (by unfold level; omega)).1
      · exact (hlower y b (by omega) (by unfold level; omega)).1
      · exact (hlower x y (by omega) (by unfold level; omega)).2
      · exact (hlower x y (by omega) (by unfold level; omega)).1
      · exact ((ih (level x y) (by omega)).2 x y le_rfl).1

/-- **The constructors return, and keep the meaning**: whatever the operands, from some fuel on `and`,
`or` and `not` give one tree each, true in a lane exactly when the conjunction, the disjunction and
the negation of the operands is. -/
theorem constructors_spec (a b : LaneExpr) :
    (∃ e, Returns (fun n ↦ and n a b) e ∧ ∀ lane, e.eval lane = (a.eval lane && b.eval lane)) ∧
    (∃ e, Returns (fun n ↦ or n a b) e ∧ ∀ lane, e.eval lane = (a.eval lane || b.eval lane)) ∧
    ∃ e, Returns (fun n ↦ not n a) e ∧ ∀ lane, e.eval lane = !a.eval lane := by
  obtain ⟨⟨e1, h1, -, hv1⟩, e2, h2, -, hv2⟩ := (returns_of_level (level a b)).2 a b le_rfl
  obtain ⟨e3, h3, -, hv3⟩ := (returns_of_level a.size).1 a le_rfl
  exact ⟨⟨e1, h1, hv1⟩, ⟨e2, h2, hv2⟩, e3, h3, hv3⟩

/-- A chain joined with itself behind a branch folds back to the chain. -/
example :
    let ne (k : UInt8) := cmp .ne (.stream 0) (.scalar k)
    let x := andNode (ne 0) (ne 1)
    (do or 20 (← and 20 x (← not 20 (ne 2))) (← and 20 x (ne 2))) = some x := by
  decide +kernel

end LaneExpr

end CoilLang.Mir
