import CoilLang.Lib.Loop
import CoilLang.Mir.Run

/-!
# Tidying the blocks

`tidy` cleans the control flow after a pass, in three steps.

* A branch whose arms are both empty and end alike goes to one of them (`tidyArms`).
* Jumps are **threaded** through empty blocks: a predecessor of an empty block that only jumps on
  goes straight to its target, and the φs there get an incoming from it (`threadBlock`). A block that
  nothing jumps to any more loses its edge. Not threaded are an edge into a block that the
  predecessor reaches already, and a branch into a block with φs. This is repeated until nothing
  changes.
* The reachable blocks are laid out anew and numbered as they come (`relayout`).
-/

namespace CoilLang.Mir

namespace MirFunc

def modifyBlock (f : MirFunc) (b : BlockId) (g : MirBlock → MirBlock) : MirFunc :=
  { f with blocks := f.blocks.modify b g }

def succsOf (f : MirFunc) (b : BlockId) : List BlockId :=
  ((f.block? b).map MirBlock.succs).getD []

def phisOf (f : MirFunc) (b : BlockId) : List MirInst :=
  ((f.block? b).map MirBlock.phis).getD []

/-- A block other than the entry that holds no instruction. -/
def isEmptyBlock (f : MirFunc) (b : BlockId) : Bool :=
  b ≠ f.entry ∧ (f.block? b).map MirBlock.insts = some []

end MirFunc

namespace MirBlock

def setTerm (t : Terminator) (b : MirBlock) : MirBlock := { b with term := some t }

def mapInsts (h : MirInst → MirInst) (b : MirBlock) : MirBlock := { b with insts := b.insts.map h }

end MirBlock

/-! ### Branches whose arms end alike -/

/-- The two empty blocks jump to one block with the same φ values from each, or return the same. -/
def sameEnd (f : MirFunc) (t n : BlockId) : Bool :=
  match (f.block? t).bind MirBlock.term, (f.block? n).bind MirBlock.term with
  | some (.jump c), some (.jump c') =>
    c = c' ∧ (f.phisOf c).all fun i ↦ phiArg (some t) i = phiArg (some n) i
  | some (.ret lo hi), some t' => .ret lo hi = t'
  | _, _ => false

def tidyArms (f : MirFunc) (i : BlockId) : MirFunc :=
  match (f.block? i).bind MirBlock.term with
  | some (.br _ t n) =>
    if t ≠ n ∧ f.isEmptyBlock t ∧ f.isEmptyBlock n ∧ sameEnd f t n then
      f.modifyBlock i (MirBlock.setTerm (.jump t))
    else f
  | _ => f

/-! ### Threading jumps -/

/-- Point a terminator's edges to `b` at `c`. -/
def Terminator.retarget (b c : BlockId) : Terminator → Terminator
  | .jump d => .jump (if d = b then c else d)
  | .br cond t n => .br cond (if t = b then c else t) (if n = b then c else n)
  | t => t

/-- The incomings of a φ by block. -/
def sortArgs (args : List (BlockId × ValueId)) : List (BlockId × ValueId) :=
  args.insertionSort fun a b ↦ a.1 ≤ b.1

/-- A φ that has an incoming from `b` gets the same one from `p`. -/
def pushArg (b p : BlockId) : MirInst → MirInst
  | .phi d ty args =>
    match args.find? (·.1 = b) with
    | some a => .phi d ty (sortArgs (args ++ [(p, a.2)]))
    | none => .phi d ty args
  | i => i

/-- A φ loses its incomings from `b`. -/
def dropArg (b : BlockId) : MirInst → MirInst
  | .phi d ty args => .phi d ty (args.filter (·.1 ≠ b))
  | i => i

/-- The edge from `p` to the empty block `b` goes to its target `c` instead. -/
def threadEdge (f : MirFunc) (b c p : BlockId) : MirFunc :=
  (f.modifyBlock p fun q ↦ { q with term := q.term.map (Terminator.retarget b c) }).modifyBlock c
    (MirBlock.mapInsts (pushArg b p))

/-- The function so far, whether an edge into the block was left, and whether one was threaded. -/
structure Threading where
  func : MirFunc
  left : Bool
  changed : Bool

/-- Two edges from `p` into `c` would need two φ incomings, and a branch straight into a φ block would
put the φ copies on a critical edge. -/
def keepsEdge (f : MirFunc) (c p : BlockId) : Bool :=
  c ∈ f.succsOf p ∨ (1 < (f.succsOf p).length ∧ f.phisOf c ≠ [])

def threadPred (b c : BlockId) (st : Threading) (p : BlockId) : Threading :=
  if keepsEdge st.func c p then { st with left := true }
  else { st with func := threadEdge st.func b c p, changed := true }

/-- The target of an empty block that only jumps on. -/
def hop (f : MirFunc) (b : BlockId) : Option BlockId :=
  if f.isEmptyBlock b then
    match (f.block? b).bind MirBlock.term with
    | some (.jump c) => if c = b then none else some c
    | _ => none
  else none

/-- The blocks with an edge to `b`, each once. -/
def predBlocks (f : MirFunc) (b : BlockId) : List BlockId :=
  (f.blocks.filter fun p ↦ b ∈ p.succs).map MirBlock.id

/-- The empty block that nothing jumps to any more loses its edge. -/
def unlink (f : MirFunc) (b c : BlockId) : MirFunc :=
  (f.modifyBlock c (MirBlock.mapInsts (dropArg b))).modifyBlock b (MirBlock.setTerm .unreachable)

def threadBlock (st : MirFunc × Bool) (b : BlockId) : MirFunc × Bool :=
  match hop st.1 b with
  | some c =>
    let r := (predBlocks st.1 b).foldl (threadPred b c) ⟨st.1, false, st.2⟩
    (if r.left then r.func else unlink r.func b c, r.changed)
  | none => st

def threadSweep (f : MirFunc) : MirFunc × Bool :=
  (List.range f.blocks.length).foldl threadBlock (f, false)

/-! ### Laying out the reachable blocks -/

/-- The blocks reached from those on the stack, depth first. -/
def reachLoop (f : MirFunc) : ℕ → List BlockId → List BlockId → Option (List BlockId)
  | _, [], reach => some reach
  | 0, _ :: _, _ => none
  | n + 1, b :: stack, reach =>
    if b ∈ reach then reachLoop f n stack reach
    else reachLoop f n ((f.succsOf b).reverse ++ stack) (b :: reach)

/-- The reachable blocks of `order`, then the others. -/
def layoutOf (f : MirFunc) (order reach : List BlockId) : List BlockId :=
  f.blocks.foldl (fun layout b ↦ if b.id ∈ reach ∧ b.id ∉ layout then layout ++ [b.id] else layout)
    (order.filter (· ∈ reach))

def Terminator.mapTargets (h : BlockId → BlockId) : Terminator → Terminator
  | .jump d => .jump (h d)
  | .br cond t n => .br cond (h t) (h n)
  | t => t

/-- Number the incomings of a φ anew, dropping those from blocks not laid out. -/
def relayoutInst (layout : List BlockId) : MirInst → MirInst
  | .phi d ty args =>
    .phi d ty (sortArgs ((args.filter (·.1 ∈ layout)).map fun a ↦ (layout.idxOf a.1, a.2)))
  | i => i

def relayoutBlock (layout : List BlockId) (b : MirBlock) : MirBlock :=
  ⟨layout.idxOf b.id, b.insts.map (relayoutInst layout),
    b.term.map (Terminator.mapTargets layout.idxOf)⟩

/-- Lay the blocks out in the order `layout`, numbered as they come; a block not listed is dropped
with the φ incomings from it. -/
def relayout (f : MirFunc) (layout : List BlockId) : MirFunc :=
  { f with
    entry := layout.idxOf f.entry
    blocks := layout.map fun b ↦ relayoutBlock layout ((f.block? b).getD ⟨b, [], none⟩) }

def tidy (fuel : ℕ) (f : MirFunc) (order : List BlockId) : Option MirFunc :=
  let f := (List.range f.blocks.length).foldl tidyArms f
  (repeatUntil threadSweep fuel f).bind fun f ↦
    (reachLoop f fuel [f.entry] []).map fun reach ↦ relayout f (layoutOf f order reach)

/-! ### Small lemmas -/

namespace MirFunc

variable {f : MirFunc} {b c : BlockId}

theorem block?_modifyBlock (f : MirFunc) (b : BlockId) (g : MirBlock → MirBlock) (c : BlockId) :
    (f.modifyBlock b g).block? c = if b = c then (f.block? c).map g else f.block? c := by
  unfold modifyBlock block?
  rw [List.getElem?_modify]
  split <;> simp

theorem block?_modifyBlock_self (g : MirBlock → MirBlock) :
    (f.modifyBlock b g).block? b = (f.block? b).map g := by
  rw [block?_modifyBlock, if_pos rfl]

theorem block?_modifyBlock_of_ne (g : MirBlock → MirBlock) (h : b ≠ c) :
    (f.modifyBlock b g).block? c = f.block? c := by
  rw [block?_modifyBlock, if_neg h]

@[simp] theorem modifyBlock_entry (f : MirFunc) (b : BlockId) (g : MirBlock → MirBlock) :
    (f.modifyBlock b g).entry = f.entry := rfl

@[simp] theorem modifyBlock_types (f : MirFunc) (b : BlockId) (g : MirBlock → MirBlock) :
    (f.modifyBlock b g).types = f.types := rfl

@[simp] theorem length_modifyBlock (f : MirFunc) (b : BlockId) (g : MirBlock → MirBlock) :
    (f.modifyBlock b g).blocks.length = f.blocks.length :=
  List.length_modify ..

theorem succsOf_eq {blk : MirBlock} (h : f.block? b = some blk) : f.succsOf b = blk.succs := by
  rw [succsOf, h]; rfl

theorem phisOf_eq {blk : MirBlock} (h : f.block? b = some blk) : f.phisOf b = blk.phis := by
  rw [phisOf, h]; rfl

theorem isEmptyBlock_iff :
    f.isEmptyBlock b = true ↔ b ≠ f.entry ∧ ∃ blk, f.block? b = some blk ∧ blk.insts = [] := by
  simp [isEmptyBlock, Option.map_eq_some_iff]

end MirFunc

theorem Terminator.succs_retarget (b c : BlockId) (t : Terminator) :
    (t.retarget b c).succs = t.succs.map fun s ↦ if s = b then c else s := by
  cases t <;> rfl

/-- Sorting the incomings keeps the first one from each block. -/
theorem find?_sortArgs (args : List (BlockId × ValueId)) (p : BlockId) :
    (sortArgs args).find? (·.1 = p) = args.find? (·.1 = p) := by
  induction args with
  | nil => rfl
  | cons a args ih =>
    have hins : ∀ l : List (BlockId × ValueId),
        (l.orderedInsert (fun x y ↦ x.1 ≤ y.1) a).find? (·.1 = p) =
          (a :: l).find? (·.1 = p) := by
      intro l
      induction l with
      | nil => rfl
      | cons b l ihl =>
        rw [List.orderedInsert]
        split
        · rfl
        · rename_i hlt
          rw [List.find?_cons, ihl, List.find?_cons, List.find?_cons, List.find?_cons]
          by_cases hb : b.1 = p <;> by_cases ha : a.1 = p
          · exact absurd (show a.1 ≤ b.1 by rw [ha, hb]) hlt
          · simp [ha, hb]
          · simp [ha, hb]
          · simp [ha, hb]
    show ((sortArgs args).orderedInsert _ a).find? _ = _
    rw [hins, List.find?_cons, List.find?_cons, ih]

end CoilLang.Mir
