import CoilLang.Lib.Loop
import CoilLang.Mir.Dce
import CoilLang.Mir.Instcombine
import CoilLang.Mir.Relayout

/-!
# Sparse conditional constant propagation

Every value starts unknown and every block unreached, except the entry. Blocks that are reached evaluate
their instructions over the lattice of one constant between unknown and varying: a φ meets only the values on
**edges that run**, and a branch on a known condition runs one edge. Sweeps over the blocks go on until
nothing changes; a function that takes more than `maxSweeps` is left as it is.

Then each value that is proven constant becomes one (that of a φ after the φs), φs lose the incomings of edges
that do not run, a φ left with one incoming is that value, and a branch on a known condition becomes a jump.
The blocks that nothing reaches are cleared, and what is left is tidied and loses its dead code.

`resolve` follows the φs that are their one incoming without a guard against cycles, so it takes fuel.
-/

namespace CoilLang.Mir.Sccp

/-- Bound on the sweeps. -/
def maxSweeps : ℕ := 64

/-- What is known of a value: nothing yet, one constant, or that it varies. -/
inductive Lat
  | top
  | const (c : MirConst)
  | bottom
  deriving DecidableEq, Repr

namespace Lat

def meet : Lat → Lat → Lat
  | .top, x => x
  | x, .top => x
  | .const a, .const b => if a = b then .const a else .bottom
  | _, _ => .bottom

/-- `old` lowered by `new`, never raised. -/
def meetDown : Lat → Lat → Lat
  | old, .top => old
  | .top, new => new
  | .const a, .const b => if a = b then .const a else .bottom
  | _, _ => .bottom

def const? : Lat → Option MirConst
  | .const c => some c
  | _ => none

end Lat

/-- The lattice value of every value, the blocks that run, and the edges that run. -/
structure Solution where
  vals : List Lat
  reached : List BlockId
  edges : List (BlockId × BlockId)
  deriving DecidableEq, Repr

def Solution.get (S : Solution) (v : ValueId) : Lat := S.vals[v]?.getD .bottom

scoped instance edgeLawfulBEq : LawfulBEq (BlockId × BlockId) := Prod.instLawfulBEq

/-- Pure scalar computations. -/
def foldable : MirInst → Bool
  | .bin .. | .cmp .. | .unary .. | .cast .. | .phi .. => true
  | _ => false

/-- The constants known of the operands. -/
def known (S : Solution) (i : MirInst) : Consts := fun v ↦
  if v ∈ i.operands then (S.get v).const? else none

/-- What an instruction of block `b` computes over the lattice. -/
def eval (S : Solution) (b : BlockId) : MirInst → Lat
  | .const _ c => .const c
  | .phi _ _ args =>
    (args.filter fun a ↦ (a.1, b) ∈ S.edges).foldl (fun acc a ↦ acc.meet (S.get a.2)) .top
  | i =>
    if foldable i then
      if i.operands.any (S.get · = .top) then .top
      else
        match constOf i (known S i) with
        | some c => .const c
        | none => .bottom
    else .bottom

/-! ### The solution -/

/-- Parameters vary; values an instruction defines start unknown. -/
def initial (f : MirFunc) : Solution where
  vals := f.defs.foldl (fun vals d ↦ vals.set d .top) (List.replicate f.types.length .bottom)
  reached := [f.entry]
  edges := []

/-- Set what is known of `d`; the flag says whether it is new. -/
def lower (d : ValueId) (next : Lat) (st : Solution × Bool) : Solution × Bool :=
  if next = st.1.get d then st else ({ st.1 with vals := st.1.vals.set d next }, true)

def visitInst (b : BlockId) (st : Solution × Bool) (i : MirInst) : Solution × Bool :=
  let new := eval st.1 b i
  i.dests.foldl
    (fun st d ↦ lower d (if 1 < i.dests.length then .bottom else (st.1.get d).meetDown new) st) st

/-- The edges a terminator runs. -/
def liveSuccs (S : Solution) : Option Terminator → List BlockId
  | some (.br c t n) =>
    match S.get c with
    | .top => []
    | .const (.bool k) => [if k then t else n]
    | _ => [t, n]
  | some t => t.succs
  | none => []

def visitEdge (p : BlockId) (st : Solution × Bool) (s : BlockId) : Solution × Bool :=
  let st := if (p, s) ∈ st.1.edges then st else ({ st.1 with edges := (p, s) :: st.1.edges }, true)
  if s ∈ st.1.reached then st else ({ st.1 with reached := s :: st.1.reached }, true)

def visitBlock (st : Solution × Bool) (b : MirBlock) : Solution × Bool :=
  if b.id ∈ st.1.reached then
    let st := b.insts.foldl (visitInst b.id) st
    (liveSuccs st.1 b.term).foldl (visitEdge b.id) st
  else st

def sweep (f : MirFunc) (S : Solution) : Solution × Bool := f.blocks.foldl visitBlock (S, false)

def solve (f : MirFunc) : Option Solution := repeatUntil (sweep f) maxSweeps (initial f)

/-! ### Folding -/

/-- A φ keeps the incomings of edges that run. -/
def liveArgs (S : Solution) (b : BlockId) : MirInst → MirInst
  | .phi d ty args => .phi d ty (args.filter fun a ↦ (a.1, b) ∈ S.edges)
  | i => i

/-- The constant an instruction is replaced by. -/
def constant? (S : Solution) (i : MirInst) : Option MirConst :=
  if i.dests.length = 1 ∧ foldable i then (S.get i.dest).const? else none

/-- Constant values become constants; the φ of one is emptied. -/
def constInst (S : Solution) (i : MirInst) : MirInst :=
  match constant? S i, i with
  | some _, .phi d ty _ => .phi d ty []
  | some c, i => .const i.dest c
  | none, i => i

/-- The constant of a φ goes after the φs. -/
def constAfter (S : Solution) (i : MirInst) : Option MirInst :=
  if i.isPhi then (constant? S i).map (.const i.dest) else none

def emptyPhi : MirInst → Bool
  | .phi _ _ [] => true
  | _ => false

/-- The one incoming of a φ. -/
def singleArg : MirInst → Option (ValueId × ValueId)
  | .phi d _ [a] => some (d, a.2)
  | _ => none

/-- A branch on a known condition runs one way. -/
def foldTerm (S : Solution) : Option Terminator → Option Terminator
  | some (.br c t n) =>
    match S.get c with
    | .const (.bool k) => some (.jump (if k then t else n))
    | _ => some (.br c t n)
  | t => t

/-- The instructions of a block with the constants in place. -/
def placeConsts (S : Solution) (is : List MirInst) : List MirInst :=
  let consts := is.filterMap (constAfter S)
  let is := is.map (constInst S)
  if consts = [] then is
  else
    let is := is.filter fun i ↦ !emptyPhi i
    is.takeWhile MirInst.isPhi ++ consts ++ is.dropWhile MirInst.isPhi

/-- A block that runs: the block as it is left, and the φs that are their one incoming, the last first. -/
def foldBlock (S : Solution) (b : MirBlock) : MirBlock × List (ValueId × ValueId) :=
  let is := placeConsts S (b.insts.map (liveArgs S b.id))
  (⟨b.id, is.filter fun i ↦ (singleArg i).isNone, foldTerm S b.term⟩, (is.filterMap singleArg).reverse)

/-- How many values and branches of a block are rewritten. -/
def hits (S : Solution) (b : MirBlock) : ℕ :=
  let is := b.insts.map (liveArgs S b.id)
  (b.insts.filter fun i ↦ liveArgs S b.id i ≠ i).length + (is.filter fun i ↦ (constant? S i).isSome).length +
    ((placeConsts S is).filterMap singleArg).length + if foldTerm S b.term = b.term then 0 else 1

/-- What a value is in the end. -/
def resolve (subst : List (ValueId × ValueId)) : ℕ → ValueId → Option ValueId
  | 0, _ => none
  | n + 1, v =>
    match subst.lookup v with
    | none => some v
    | some w => resolve subst n w

def reads (b : MirBlock) : List ValueId :=
  b.insts.flatMap MirInst.operands ++ (b.term.map Terminator.operands).getD []

/-- Rewrite all that is read. -/
def rewriteReads (fuel : ℕ) (subst : List (ValueId × ValueId)) (blocks : List MirBlock) :
    Option (List MirBlock) :=
  if ∀ b ∈ blocks, ∀ v ∈ reads b, (resolve subst fuel v).isSome then
    let r := fun v ↦ (resolve subst fuel v).getD v
    some (blocks.map fun b ↦
      ⟨b.id, b.insts.map (MirInst.rewriteValues r), b.term.map (Terminator.rewriteValues r)⟩)
  else none

/-- Fold what is proven constant, with the number of values and branches rewritten. -/
def sccp (fuel : ℕ) (f : MirFunc) : Option (MirFunc × ℕ) :=
  match solve f with
  | none => some (f, 0)
  | some S =>
    let live := f.blocks.filter fun b ↦ b.id ∈ S.reached
    let n := (live.map (hits S)).sum
    if n = 0 then some (f, 0)
    else
      let subst := (live.map fun b ↦ (foldBlock S b).2).reverse.flatten
      (rewriteReads fuel subst
        (f.blocks.map fun b ↦ if b.id ∈ S.reached then (foldBlock S b).1 else b)).bind fun blocks ↦
        let g := { f with blocks := blocks.map fun b ↦
          if b.id ∈ S.reached then b else ⟨b.id, [], some .unreachable⟩ }
        ((tidy fuel g ((f.blocks.map MirBlock.id).filter (· ∈ S.reached))).bind (dce fuel)).map (·, n)

end CoilLang.Mir.Sccp
