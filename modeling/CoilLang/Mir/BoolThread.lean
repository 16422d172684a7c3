import CoilLang.Mir.Dominators
import CoilLang.Mir.Relayout

/-!
# Threading jumps over bool φs

A test of `a && b` lowers to a **join**: a block that holds one bool φ and branches on it. Each predecessor knows
where it goes from there. One that brings a constant goes straight to that arm, one that brings a value and
only jumps branches on the value itself (`BoolJoin.reroute`). The join loses the incoming, and the φs of the
new target get one from the predecessor, with the word they took from the join. A join that nothing leads to
any more is cleared, and what is left is tidied.

Joins that head a loop are left alone; for this the heads of the natural loops are found with the table of
dominators.
-/

namespace CoilLang.Mir

/-- The heads of the natural loops: each has an edge from a block that it dominates. -/
def loopHeaders (f : MirFunc) (dom : Dominators) : List BlockId :=
  f.blocks.flatMap fun b ↦ b.succs.filter fun s ↦ s < f.blocks.length ∧ dom.dominates s b.id

/-- The bool constants with the values that hold them. -/
def boolConsts (f : MirFunc) : List (ValueId × Bool) :=
  f.insts.filterMap fun
    | .const dest (.bool k) => some (dest, k)
    | _ => none

/-- How many instructions and terminators read `v`. -/
def uses (f : MirFunc) (v : ValueId) : ℕ :=
  (f.blocks.map fun b ↦ (b.insts.filter (v ∈ ·.operands)).length +
    if b.term.any (v ∈ ·.operands) then 1 else 0).sum

/-- A block that branches on the one φ it holds, to two other blocks. -/
structure BoolJoin where
  block : BlockId
  cond : ValueId
  taken : BlockId
  notTaken : BlockId
  ne : taken ≠ notTaken
  taken_ne : taken ≠ block
  notTaken_ne : notTaken ≠ block

/-- The join a block is, with the incomings of its φ. -/
def boolJoin (f : MirFunc) (headers : List BlockId) (b : MirBlock) :
    Option (BoolJoin × List (BlockId × ValueId)) :=
  if b.id = f.entry ∨ b.id ∈ headers then none
  else
    match b.term, b.insts with
    | some (.br cond taken notTaken), [.phi dest .bool args] =>
      if h : taken = notTaken ∨ taken = b.id ∨ notTaken = b.id then none
      else if dest ≠ cond ∨ uses f cond ≠ 1 then none
      else
        some (⟨b.id, cond, taken, notTaken, fun e ↦ h (.inl e), fun e ↦ h (.inr (.inl e)),
          fun e ↦ h (.inr (.inr e))⟩, args)
    | _, _ => none

namespace BoolJoin

def arm (J : BoolJoin) (k : Bool) : BlockId := if k then J.taken else J.notTaken

/-- Where a predecessor that brings `v` goes instead, with the arms it goes to. A branch does not go into a
block with φs, and no predecessor gets two edges into one block. -/
def reroute (J : BoolJoin) (f : MirFunc) (known : Option Bool) (v : ValueId) :
    Option Terminator → Option (Terminator × List BlockId)
  | some (.jump dest) =>
    if dest = J.block then
      match known with
      | some k => some (.jump (J.arm k), [J.arm k])
      | none =>
        if f.phisOf J.taken ≠ [] ∨ f.phisOf J.notTaken ≠ [] then none
        else some (.br v J.taken J.notTaken, [J.taken, J.notTaken])
    else none
  | some (.br c t n) =>
    match known with
    | some k =>
      if (t = J.block) ≠ (n = J.block) then
        let other := if t = J.block then n else t
        if other = J.arm k ∨ f.phisOf (J.arm k) ≠ [] then none
        else some (if t = J.block then .br c (J.arm k) n else .br c t (J.arm k), [J.arm k])
      else none
    | none => none
  | _ => none

/-- The block `p` ends with `t`; its targets take their words on the edge from it as from the join, whose φ
loses the incoming. -/
def redirect (J : BoolJoin) (p : BlockId) (t : Terminator) (targets : List BlockId) (f : MirFunc) : MirFunc :=
  (targets.foldl (fun f c ↦ f.modifyBlock c (MirBlock.mapInsts (pushArg J.block p)))
    (f.modifyBlock p (MirBlock.setTerm t))).modifyBlock J.block
      fun b ↦ { b with insts := b.insts.modifyHead (dropArg p) }

/-- Thread the edge of one incoming if it fits, and count it. -/
def threadArg (J : BoolJoin) (consts : List (ValueId × Bool)) (st : MirFunc × ℕ) (a : BlockId × ValueId) :
    MirFunc × ℕ :=
  if a.1 = J.block then st
  else
    match J.reroute st.1 ((consts.reverse.find? (·.1 = a.2)).map Prod.snd) a.2
        ((st.1.block? a.1).bind MirBlock.term) with
    | some (t, targets) => (J.redirect a.1 t targets st.1, st.2 + 1)
    | none => st

/-- A join without a way in goes, and its arms forget it. -/
def clear (J : BoolJoin) (f : MirFunc) : MirFunc :=
  match (f.block? J.block).map MirBlock.insts with
  | some [.phi _ _ []] =>
    [J.taken, J.notTaken].foldl (fun f c ↦ f.modifyBlock c (MirBlock.mapInsts (dropArg J.block)))
      (f.modifyBlock J.block fun b ↦ ⟨b.id, [], some .unreachable⟩)
  | _ => f

end BoolJoin

def threadJoin (headers : List BlockId) (consts : List (ValueId × Bool)) (st : MirFunc × ℕ) (i : ℕ) :
    MirFunc × ℕ :=
  match (st.1.block? i).bind (boolJoin st.1 headers) with
  | some (J, args) =>
    let r := args.foldl (J.threadArg consts) st
    (J.clear r.1, r.2)
  | none => st

/-- The blocks reached, each marked when it comes on the stack. -/
def markLoop (f : MirFunc) : ℕ → List BlockId → List BlockId → Option (List BlockId)
  | _, [], seen => some seen
  | 0, _ :: _, _ => none
  | n + 1, b :: work, seen =>
    let r := (f.succsOf b).foldl (fun r s ↦ if s ∈ r.2 then r else (s :: r.1, s :: r.2)) (work, seen)
    markLoop f n r.1 r.2

/-- Thread every edge that fits, and tidy up; with the number of edges. A debugger steps through the joins of
the source, so then all stays. -/
def threadBoolPhis (debugKeep : Bool) (fuel : ℕ) (f : MirFunc) : Option (MirFunc × ℕ) :=
  if debugKeep then some (f, 0)
  else
    (Dominators.new f fuel).bind fun dom ↦
      let st := (List.range f.blocks.length).foldl (threadJoin (loopHeaders f dom) (boolConsts f)) (f, 0)
      if st.2 = 0 then some st
      else
        (markLoop st.1 fuel [st.1.entry] [st.1.entry]).bind fun reached ↦
          (tidy fuel st.1 ((st.1.blocks.map MirBlock.id).filter (· ∈ reached))).map (·, st.2)

end CoilLang.Mir
