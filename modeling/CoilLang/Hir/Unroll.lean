import CoilLang.Hir.Expr

/-!
# Full unroll of short counted loops

`while i < K { body }`, or `i <= K`, is `loop { if i < K { body } else { break } }`. Where `i` was last
set to a literal before the loop, `K` is a literal or a local last set to one, the body adds one to
`i` once and nothing else writes either, the loop runs a known number of times. When that is at most
`maxTrips` and the body is small and has no loop, call, exit or closure, the loop **becomes that many
copies of its body**, each reading `i` as the literal it held on that trip, and an assignment of
the last value of `i`.

The source computes the trip count with checked arithmetic, but the literals of the copies and the last
value with the plain `+` of a 64-bit integer, which wraps in the release build.
-/

namespace CoilLang.Hir

open HirExpr (nodes)

/-- Most trips a loop may have to unroll. -/
def maxTrips : ℤ := 8

/-- Most expression nodes all the copies may add. -/
def maxGrowth : ℕ := 512

/-- Rounds of unrolling, so nests up to this deep can flatten. -/
def rounds : ℕ := 3

def HirExpr.litInt : HirExpr → Option Word
  | .node _ _ (.lit (.int n)) _ => some n
  | _ => none

/-- Whether the node itself may write `i`. -/
def HirExpr.writesHere (i : LocalId) : HirExpr → Bool
  | .node _ _ .assign (place :: _) => place.isLoc i
  | .node _ _ .append (base :: _) => base.isLoc i
  | .node _ _ (.letLocal l) _ => l == i
  | .node _ _ (.clear ls) _ => ls.contains i
  | .node _ _ (.lambda _) _ => true
  | .node _ _ (.letPat _) _ => true
  | .node _ _ (.matchOn _) _ => true
  | .node _ _ (.forIn _ _) _ => true
  | _ => false

/-- Whether anything in the tree may write `i`. -/
def writes (e : HirExpr) (i : LocalId) : Bool := e.nodes.any (HirExpr.writesHere i)

/-- `i = i + 1`. -/
def bump (i : LocalId) : HirExpr → Bool
  | .node _ _ .assign [place, .node _ _ (.bin .intAdd) [lhs, rhs]] =>
    place.isLoc i && lhs.isLoc i && rhs.litInt == some 1
  | _ => false

/-- The kinds that may not occur in a loop that unrolls. -/
def HirKind.leaves : HirKind → Bool
  | .loop | .forIn _ _ | .call _ | .brk | .cont | .ret | .yield _ | .resume | .lambda _ | .defer _ | .unsupported _ => true
  | _ => false

/-- The statements of a block with its tail. -/
def HirExpr.stmts : HirExpr → Option (List HirExpr)
  | .node _ _ (.block _) stmts => some stmts
  | _ => none

/-- The body has no inner loop, call, exit or closure, and its only write to `i` is one top-level
`i = i + 1`. -/
def plain (i : LocalId) (body : HirExpr) : Bool :=
  match body.stmts with
  | some stmts =>
    stmts.all (fun s ↦ bump i s || !writes s i) && stmts.countP (bump i) == 1 &&
      body.nodes.all fun e ↦ !e.kind.leaves
  | none => false

/-- The literal that the last statement before sets `i` to, when it sets it. -/
def setTo (i : LocalId) : HirExpr → Option HirExpr
  | .node _ _ (.letLocal l) [init] => if l = i then some init else none
  | .node _ _ .assign [place, value] => if place.isLoc i then some value else none
  | _ => none

/-- The literal `i` holds after statements, the last of them first: its last write there, with
nothing after it that could write `i` again. -/
def startOf (i : LocalId) : List HirExpr → Option Word
  | [] => none
  | s :: before =>
    match setTo i s with
    | some value => value.litInt
    | none => if writes s i then none else startOf i before

/-- A loop to unroll: its body block, counter, the counter's first value and the trip count. -/
structure Found where
  body : HirExpr
  i : LocalId
  start : Word
  trips : ℤ

/-- The value of a 64-bit integer computed without overflow. -/
def checkedInt (r : ℤ) : Option ℤ := if -2 ^ 63 ≤ r ∧ r < 2 ^ 63 then some r else none

/-- The condition and the body of a `while` loop. -/
def whileParts : HirExpr → Option (HirExpr × HirExpr)
  | .node _ _ .loop [.node _ _ (.block false) [.node _ _ .ite [cond, body, .node _ _ .brk _]]] => some (cond, body)
  | _ => none

/-- A compare with its operands, `K > i` and `K >= i` read as `i < K` and `i <= K`. -/
def compareParts : HirExpr → Option (BinOp × HirExpr × HirExpr)
  | .node _ _ (.bin .gt) [lhs, rhs] => some (.lt, rhs, lhs)
  | .node _ _ (.bin .ge) [lhs, rhs] => some (.le, rhs, lhs)
  | .node _ _ (.bin op) [lhs, rhs] => some (op, lhs, rhs)
  | _ => none

def HirExpr.localId : HirExpr → Option LocalId
  | .node _ _ (.loc l) _ => some l
  | _ => none

section
variable (b : HirBody)

/-- The bound of a loop: a literal, or a local set to one before the loop and not written in it. -/
def boundOf (i : LocalId) (rhs body : HirExpr) (before : List HirExpr) : Option Word :=
  match rhs.litInt, rhs.localId with
  | some k, _ => some k
  | none, some l => if l ≠ i ∧ ¬ b.captured l ∧ ¬ writes body l then startOf l before.reverse else none
  | none, none => none

/-- The trips of `i < k` or `i <= k` from `start`. -/
def tripsOf : BinOp → Word → Word → Option ℤ
  | .lt, k, start => checkedInt (k.toInt - start.toInt)
  | .le, k, start => (checkedInt (k.toInt - start.toInt)).bind fun d ↦ checkedInt (d + 1)
  | _, _, _ => none

/-- The loop `s`, run after `before`, when it unrolls. -/
def counted (s : HirExpr) (before : List HirExpr) : Option Found := do
  let (cond, body) ← whileParts s
  let (op, lhs, rhs) ← compareParts cond
  let i ← lhs.localId
  guard (¬ b.captured i)
  let k ← boundOf b i rhs body before
  let start ← startOf i before.reverse
  let trips ← tripsOf op k start
  guard (1 ≤ trips ∧ trips ≤ maxTrips ∧ plain i body)
  guard (body.nodes.length * trips.toNat ≤ maxGrowth)
  pure ⟨body, i, start, trips⟩

/-! ### The copies -/

mutual

/-- A copy of a tree, with reads of `i` replaced by `v`. -/
def copy (i : LocalId) (v : Word) : HirExpr → HirExpr
  | .node ty flags kind children =>
    if (HirExpr.node ty flags kind children).isLoc i then .node ty flags (.lit (.int v)) []
    else .node ty flags kind (copyAll i v children)
termination_by structural e => e

def copyAll (i : LocalId) (v : Word) : List HirExpr → List HirExpr
  | [] => []
  | e :: es => copy i v e :: copyAll i v es
termination_by structural es => es

end

/-- One trip. Reads before the bump see `v`, reads after it one more. -/
def copyTrip (i : LocalId) : Word → List HirExpr → List HirExpr
  | _, [] => []
  | v, s :: stmts => if bump i s then copyTrip i (v + 1) stmts else copy i v s :: copyTrip i v stmts

/-- The `i` place of the bump. -/
def thenPlace (i : LocalId) : List HirExpr → Option HirExpr
  | [] => none
  | .node ty flags kind children :: stmts =>
    if bump i (.node ty flags kind children) then children.head? else thenPlace i stmts

/-- The loop `lp` unrolled. -/
def unrolled (lp : HirExpr) (f : Found) : HirExpr :=
  match f.body.stmts with
  | some stmts =>
    match thenPlace f.i stmts with
    | some place =>
      let copies := (List.range f.trips.toNat).flatMap fun t ↦ copyTrip f.i (f.start + BitVec.ofNat 64 t) stmts
      let value := .node place.ty place.flags (.lit (.int (f.start + BitVec.ofInt 64 f.trips))) []
      let last := .node place.ty lp.flags .assign [place, value]
      .node lp.ty lp.flags (.block false) (copies ++ [last])
    | none => lp
  | none => lp

/-! ### The pass -/

/-- The loop at `s`, when it unrolls in this round. -/
def taken (factor : ℤ) (s : HirExpr) (before : List HirExpr) : Option Found :=
  (counted b s before).filter fun f ↦ f.trips ≤ factor

mutual

/-- Every loop to unroll. -/
def find (factor : ℤ) : HirExpr → List Found
  | .node _ _ kind children =>
    match kind with
    | .block _ => findIn factor [] children
    | _ => findAll factor children
termination_by structural e => e

def findAll (factor : ℤ) : List HirExpr → List Found
  | [] => []
  | e :: es => find factor e ++ findAll factor es
termination_by structural es => es

/-- In the statements of a block, after `before`. -/
def findIn (factor : ℤ) (before : List HirExpr) : List HirExpr → List Found
  | [] => []
  | s :: stmts =>
    (match taken b factor s before with
      | some f => [f]
      | none => find factor s) ++ findIn factor (before ++ [s]) stmts
termination_by structural es => es

end

mutual

/-- Every loop to unroll replaced. -/
def replace (factor : ℤ) : HirExpr → HirExpr
  | .node ty flags kind children =>
    match kind with
    | .block tail => .node ty flags (.block tail) (replaceIn factor [] children)
    | kind => .node ty flags kind (replaceAll factor children)
termination_by structural e => e

def replaceAll (factor : ℤ) : List HirExpr → List HirExpr
  | [] => []
  | e :: es => replace factor e :: replaceAll factor es
termination_by structural es => es

def replaceIn (factor : ℤ) (before : List HirExpr) : List HirExpr → List HirExpr
  | [] => []
  | s :: stmts =>
    (match taken b factor s before with
      | some f => unrolled s f
      | none => replace factor s) :: replaceIn factor (before ++ [s]) stmts
termination_by structural es => es

end

/-- One round, with the trip count capped by `factor`; `none` when no loop unrolls. -/
def once (factor : ℕ) : Option HirBody := do
  let root ← b.root
  let cap := min (BitVec.ofNat 64 factor).toInt maxTrips
  if (find b cap root).isEmpty then none else some { b with root := some (replace b cap root) }

end

/-- The rounds after the first: an outer loop whose inner loops all unrolled may unroll next. -/
def again (factor : ℕ) : ℕ → HirBody → HirBody
  | 0, b => b
  | n + 1, b =>
    match once b factor with
    | some next => again factor n next
    | none => b

/-- A body with its short counted loops unrolled, or `none` when there are none. -/
def unroll (b : HirBody) (factor : ℕ) : Option HirBody :=
  (once b factor).map (again factor (rounds - 1))

end CoilLang.Hir
