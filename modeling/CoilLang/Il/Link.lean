import CoilLang.Il.Op
import Mathlib.Algebra.GroupWithZero.Nat
import Mathlib.Data.List.Dedup

/-!
# Linking function bodies

A module holds a prologue, one body for each function with the glue behind it, and an epilogue. The bodies
are optimized one at a time, and each mints label ids of its own: the same id may stand in several parts.
`intoFlat` writes the parts one behind the other. Bodies and glue get fresh ids, the prologue and the
epilogue keep theirs, and jumps and calls into other parts are patched by tables of the old ids.
-/

namespace CoilLang.Il

/-- A hash map from old ids to new ones. -/
abbrev LabelMap := List (ℕ × ℕ)

namespace LabelMap

def get (m : LabelMap) (k : ℕ) : Option ℕ := m.lookup k

def insert (m : LabelMap) (k v : ℕ) : LabelMap := (k, v) :: m

/-- `entry(k).or_insert(v)`. -/
def orInsert (m : LabelMap) (k v : ℕ) : LabelMap := if (m.get k).isSome then m else m.insert k v

def values (m : LabelMap) : List ℕ := (m.map Prod.fst).filterMap m.get

end LabelMap

/-- The order in which a hash set is walked: any order that visits each element once. -/
structure HashOrder where
  walk : List ℕ → List ℕ
  perm : ∀ l, (walk l).Perm l

def u32Max : ℕ := 2 ^ 32 - 1

/-- `saturating_add(1)`. -/
def satSucc (n : ℕ) : ℕ := min (n + 1) u32Max

/-! ### Labels of a stretch of ops -/

def boundLabelIds (ops : List IlOp) : List ℕ := ops.filterMap IlOp.bindLabel

def codeLabelId : IlOp → Option ℕ
  | .label id => some id
  | .jump _ t _ => some t
  | .entry _ _ t _ => some t
  | _ => none

/-- The highest label bound or named, or `0`. -/
def maxCodeLabel (ops : List IlOp) : ℕ := (ops.filterMap codeLabelId).foldr max 0

def firstLabelId (ops : List IlOp) : Option ℕ := ops.findSome? IlOp.bindLabel

/-- An id that has none yet gets the next one. -/
def mint (s : LabelMap × ℕ) (id : ℕ) : LabelMap × ℕ :=
  if (s.1.get id).isSome then s else (s.1.insert id s.2, satSucc s.2)

/-- An op under the ids of its own stretch and, for jumps, those of the stretches before it. -/
def remapOp (map prior : LabelMap) : IlOp → IlOp
  | .label id => .label ((map.get id).getD id)
  | .jump kind t hint => .jump kind (((map.get t).or (prior.get t)).getD t) hint
  | .entry kind arity t retWords => .entry kind arity ((map.get t).getD t) retWords
  | op => op

def remapLabelSpace (ops : List IlOp) (next : ℕ) (prior : LabelMap) : List IlOp × LabelMap × ℕ :=
  if ops = [] then ([], [], next)
  else
    let s := (boundLabelIds ops).foldl mint ([], next)
    if s.1 = [] ∧ prior = [] then (ops, s.1, s.2) else (ops.map (remapOp s.1 prior), s.1, s.2)

/-! ### The module -/

structure IlFuncBody where
  entry : Option ℕ
  ops : List IlOp

structure IlModule where
  prologue : List IlOp := []
  funcs : List IlFuncBody := []
  glue : List (List IlOp) := []
  epilogue : List IlOp := []

/-- A function's body with the glue behind it. -/
structure Chunk where
  entry : Option ℕ
  body : List IlOp
  glue : List IlOp

namespace IlModule

def chunks (m : IlModule) : List Chunk :=
  m.funcs.mapIdx fun i f ↦ ⟨f.entry, f.ops, m.glue.getD i []⟩

def maxCodeLabel (m : IlModule) : ℕ :=
  let bodies := m.funcs.foldl (fun n f ↦ max n (Il.maxCodeLabel f.ops)) (Il.maxCodeLabel m.prologue)
  let gaps := m.glue.foldl (fun n g ↦ max n (Il.maxCodeLabel g)) bodies
  max gaps (Il.maxCodeLabel m.epilogue)

/-- Whether the last body jumps to the label and does not bind it. -/
def needs (ops : List IlOp) (id : ℕ) : Bool :=
  ops.any (fun op ↦ op.isJump && op.target? = some id) && !(boundLabelIds ops).contains id

/-- The labels of the epilogue that `ops` needs, and what is left of it. -/
def moved (ops epilogue : List IlOp) : List IlOp × List IlOp :=
  epilogue.partition fun op ↦ match op with
    | .label id => needs ops id
    | _ => false

/-- The end labels of the last body sit in the epilogue: they are moved back to the body. -/
def absorbTrailingLabels (m : IlModule) : IlModule :=
  match m.funcs.getLast? with
  | none => m
  | some last =>
    let (moved, kept) := moved last.ops m.epilogue
    { m with funcs := m.funcs.dropLast ++ [{ last with ops := last.ops ++ moved }], epilogue := kept }

end IlModule

/-! ### Linking -/

/-- The tables of the linker after some of the chunks. -/
structure Linking where
  next : ℕ
  prior : LabelMap := []
  entries : LabelMap := []
  maps : List LabelMap := []
  glueMaps : List LabelMap := []
  bodyBound : List (List ℕ) := []
  glueBound : List (List ℕ) := []
  segments : List (List IlOp) := []

/-- Replaces one id in an op. -/
def renameId (shared fresh : ℕ) : IlOp → IlOp
  | .label id => .label (if id = shared then fresh else id)
  | .jump kind t hint => .jump kind (if t = shared then fresh else t) hint
  | .entry kind arity t retWords => .entry kind arity (if t = shared then fresh else t) retWords
  | op => op

/-- The glue's copy of an id that its body binds too gets an id of its own. -/
def splitGlue (map : LabelMap) (s : LabelMap × List IlOp × ℕ) (old : ℕ) :
    LabelMap × List IlOp × ℕ :=
  let shared := (map.get old).getD old
  (s.1.insert old s.2.2, s.2.1.map (renameId shared s.2.2), satSucc s.2.2)

/-- The ids that a body and its glue both bind. -/
def Chunk.shared (c : Chunk) : List ℕ :=
  (boundLabelIds c.body).dedup.filter (· ∈ boundLabelIds c.glue)

def mergeRemapLabels (prior map : LabelMap) : LabelMap :=
  map.foldl (fun prior e ↦ prior.orInsert e.1 e.2) prior

/-- The labels of the glue as call targets. -/
def glueEntries (glueMap : LabelMap) (glue : List IlOp) (entries : LabelMap) : LabelMap :=
  (boundLabelIds glue).foldl
    (fun entries old ↦ match glueMap.get old with
      | some new => entries.orInsert old new
      | none => entries)
    entries

def recordEntry (entries : LabelMap) : Option ℕ → Option ℕ → LabelMap
  | some old, some new => entries.insert old new
  | _, _ => entries

def linkChunk (hash : HashOrder) (s : Linking) (c : Chunk) : Linking :=
  let r := remapLabelSpace (c.body ++ c.glue) s.next s.prior
  let map := r.2.1
  let g := (hash.walk c.shared).foldl (splitGlue map) (map, r.1.drop c.body.length, r.2.2)
  let glueMap := g.1
  let ops := r.1.take c.body.length ++ g.2.1
  -- The entry under its new id, or the first label of the chunk when the optimizer has dropped it.
  let newEntry := (c.entry.bind map.get).or (firstLabelId ops)
  { next := g.2.2
    prior := mergeRemapLabels s.prior map
    entries := glueEntries glueMap c.glue (recordEntry s.entries c.entry newEntry)
    maps := s.maps ++ [map]
    glueMaps := s.glueMaps ++ [glueMap]
    bodyBound := s.bodyBound ++ [boundLabelIds c.body]
    glueBound := s.glueBound ++ [boundLabelIds c.glue]
    segments := s.segments ++ [ops] }

/-- The map of the part of chunk `i` that binds `old`. -/
def Linking.ownerOf (s : Linking) (old : ℕ) (i : ℕ) : Option LabelMap :=
  if old ∈ s.bodyBound.getD i [] then s.maps[i]?
  else if old ∈ s.glueBound.getD i [] then s.glueMaps[i]?
  else none

/-- The new id of the entry of function `k`, from its own chunk or from the glue before it. -/
def Linking.jumpEntry (s : Linking) (k : ℕ) (old : ℕ) : Option ℕ :=
  let candidates := if k = 0 then [k] else [k, k - 1]
  (candidates.findSome? (s.ownerOf old)).bind (·.get old)

def Linking.jumpEntries (s : Linking) : ℕ → List Chunk → LabelMap → LabelMap
  | _, [], t => t
  | k, c :: cs, t => s.jumpEntries (k + 1) cs (recordEntry t c.entry (c.entry.bind (s.jumpEntry k)))

def resolveCrossFunctionEntry (old : ℕ) (maps : List LabelMap) (entries : LabelMap) : Option ℕ :=
  match entries.get old with
  | some entry => some entry
  | none => match maps.filterMap (·.get old) with
    | [new] => some new
    | _ => none

/-- A call of a label that is not bound `here`. -/
def patchCall (maps : List LabelMap) (entries : LabelMap) (here : List ℕ) : IlOp → IlOp
  | .entry kind arity t retWords =>
    if t ∈ here then .entry kind arity t retWords
    else match resolveCrossFunctionEntry t maps entries with
      | some new => if new ≠ t ∧ new ∉ here then .entry kind arity new retWords else .entry kind arity t retWords
      | none => .entry kind arity t retWords
  | op => op

def remapCrossFunctionEntryCallTargets (maps : List LabelMap) (entries : LabelMap) (ops : List IlOp) :
    List IlOp :=
  ops.map (patchCall maps entries (boundLabelIds ops))

/-- A jump to a label that is not bound `here`. -/
def patchJump (prior entries : LabelMap) (flatIds here : List ℕ) : IlOp → IlOp
  | .jump kind t hint =>
    if t ∈ here then .jump kind t hint
    else if t ∈ flatIds then .jump kind t hint
    else match entries.get t with
      | some new => .jump kind new hint
      | none => match prior.get t with
        | some new => if new ≠ t ∧ new ∉ here then .jump kind new hint else .jump kind t hint
        | none => .jump kind t hint
  | op => op

def remapCrossFunctionJumpTargets (prior entries : LabelMap) (flatIds : List ℕ) (ops : List IlOp) :
    List IlOp :=
  ops.map (patchJump prior entries flatIds (boundLabelIds ops))

/-- Labels that keep their ids. -/
def keepIds (ids : List ℕ) (prior : LabelMap) : LabelMap := ids.foldl (fun prior id ↦ prior.insert id id) prior

/-- The flat stream, the merged map of the ids and the map of each chunk. -/
def IlModule.intoFlat (hash : HashOrder) (m : IlModule) : List IlOp × LabelMap × List LabelMap :=
  let m := m.absorbTrailingLabels
  let s := m.chunks.foldl (linkChunk hash) { next := satSucc m.maxCodeLabel }
  let jumpEntries := s.jumpEntries 0 m.chunks []
  let prior := keepIds (boundLabelIds m.prologue ++ boundLabelIds m.epilogue) s.prior
  let flatIds := prior.values
  let calls := remapCrossFunctionEntryCallTargets s.maps s.entries
  let jumps := remapCrossFunctionJumpTargets prior jumpEntries flatIds
  (jumps (calls m.prologue) ++ (s.segments.map fun ops ↦ calls (jumps ops)).flatten ++
    calls (jumps m.epilogue), prior, s.maps)

end CoilLang.Il
