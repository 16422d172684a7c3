import CoilLang.Il.Link

/-!
# What a label means across a link

A label stands before an op, so a reference means a place in the code: the number of ops that emit code
before it. A label of the reference's own part means that label's place; otherwise it means the start of the
function recorded with it as its entry or, when none is, the place in the only part that binds it
(`IlModule.meant`). A flat stream is **linked** when no label is bound twice and every reference reaches the
place it means.

The linker looks a foreign label up in tables, and which one is asked first decides where the reference goes.
`IlModule.pickJump` and `IlModule.pickCall` write the order down: a jump tries the chunks before its own, then
the prologue and the epilogue, then the recorded entries, then any chunk; a call tries the recorded entries,
then the glue, then the only chunk that binds the label. A reference is **captured** when the first hit
stands elsewhere than the place it means.
-/

namespace CoilLang.Il

/-! ### Places -/

/-- The ops that emit code. -/
def code (ops : List IlOp) : List IlOp := ops.filter IlOp.emitsCode

def emits (ops : List IlOp) : ℕ := (code ops).length

/-- The number of ops that emit code before the label. -/
def bindPc? : List IlOp → ℕ → Option ℕ
  | [], _ => none
  | op :: ops, l =>
    if op.bindLabel = some l then some 0 else (bindPc? ops l).map (emits [op] + ·)

/-- An op without the label it names. -/
def IlOp.eraseTarget : IlOp → IlOp
  | .jump kind _ hint => .jump kind 0 hint
  | .entry kind arity _ retWords => .entry kind arity 0 retWords
  | op => op

/-- A stretch of the module. -/
inductive Part
  | prologue
  | body (i : ℕ)
  | glue (i : ℕ)
  | epilogue
  deriving DecidableEq

namespace Part

/-- The stretches whose labels are the part's own: a body and its glue share them. -/
def own : Part → List Part
  | prologue => [prologue]
  | body i => [body i, glue i]
  | glue i => [glue i, body i]
  | epilogue => [epilogue]

def chunk? : Part → Option ℕ
  | body i => some i
  | glue i => some i
  | _ => none

end Part

/-- The ids that linking a chunk uses up. -/
def Chunk.minted (c : Chunk) : ℕ := (boundLabelIds (c.body ++ c.glue)).dedup.length + c.shared.length

namespace IlModule

variable (m : IlModule)

def part : Part → List IlOp
  | .prologue => m.prologue
  | .body i => (m.chunks[i]?.map Chunk.body).getD []
  | .glue i => (m.chunks[i]?.map Chunk.glue).getD []
  | .epilogue => m.epilogue

/-- All parts in the order of the stream. -/
def allParts : List Part :=
  .prologue :: (List.range m.chunks.length).flatMap (fun i ↦ [.body i, .glue i]) ++ [.epilogue]

/-- The parts one behind the other, as they are before linking. -/
def stream : List IlOp := m.prologue ++ (m.chunks.flatMap fun c ↦ c.body ++ c.glue) ++ m.epilogue

/-- The code before chunk `i`. -/
def chunkBase (i : ℕ) : ℕ :=
  emits m.prologue + ((m.chunks.take i).map fun c ↦ emits (c.body ++ c.glue)).sum

/-- The code before a part. -/
def base : Part → ℕ
  | .prologue => 0
  | .body i => m.chunkBase i
  | .glue i => m.chunkBase i + emits (m.part (.body i))
  | .epilogue => m.chunkBase m.chunks.length

def binds (l : ℕ) (q : Part) : Bool := l ∈ boundLabelIds (m.part q)

/-- The place of a label of part `q`. -/
def pcIn (q : Part) (l : ℕ) : Option ℕ := (bindPc? (m.part q) l).map (m.base q + ·)

def entryOf (k : ℕ) : Option ℕ := m.chunks[k]?.bind Chunk.entry

/-- The functions recorded with `l` as their entry. -/
def recorded (l : ℕ) : List ℕ := (List.range m.chunks.length).filter fun k ↦ m.entryOf k = some l

/-- The place a label means when it is named in part `q`. -/
def meant (q : Part) (l : ℕ) : Option ℕ :=
  match q.own.find? (m.binds l) with
  | some q' => m.pcIn q' l
  | none => match m.recorded l with
    | [k] => some (m.base (.body k))
    | [] => match m.allParts.filter (m.binds l) with
      | [q'] => m.pcIn q' l
      | _ => none
    | _ => none

/-- The flat stream of a module keeps every label's meaning. -/
structure Linked (out : List IlOp) : Prop where
  once : (boundLabelIds out).Nodup
  sameCode : (code out).map IlOp.eraseTarget = (code m.stream).map IlOp.eraseTarget
  reaches : ∀ q ∈ m.allParts, ∀ (n : ℕ) (op : IlOp) (l : ℕ) (pc : ℕ), (code (m.part q))[n]? = some op →
    op.target? = some l → m.meant q l = some pc →
    ∃ (op' : IlOp) (l' : ℕ), (code out)[m.base q + n]? = some op' ∧ op'.target? = some l' ∧
      bindPc? out l' = some pc

/-! ### The order of the tables -/

def ownBinder (q : Part) (l : ℕ) : Option (Part × ℕ) :=
  (q.own.find? (m.binds l)).map fun q' ↦ (q', l)

def inChunk (l : ℕ) (i : ℕ) : Option (Part × ℕ) :=
  if m.binds l (.body i) then some (.body i, l)
  else if m.binds l (.glue i) then some (.glue i, l)
  else none

/-- The prologue and the epilogue keep their ids. -/
def kept (l : ℕ) : Option (Part × ℕ) :=
  if m.binds l .prologue then some (.prologue, l)
  else if m.binds l .epilogue then some (.epilogue, l)
  else none

/-- The last function recorded with `l` whose own chunk, or the chunk before it, binds `l`. -/
def jumpEntry (l : ℕ) : Option (Part × ℕ) :=
  (List.range m.chunks.length).reverse.findSome? fun k ↦
    if m.entryOf k = some l then (if k = 0 then [k] else [k, k - 1]).findSome? (m.inChunk l) else none

def pickJump (q : Part) (l : ℕ) : Option (Part × ℕ) :=
  (m.ownBinder q l).or <|
  ((List.range (q.chunk?.getD 0)).findSome? (m.inChunk l)).or <|
  (m.kept l).or <|
  (m.jumpEntry l).or <|
  (List.range m.chunks.length).findSome? (m.inChunk l)

def firstLabel (i : ℕ) : Option (Part × ℕ) :=
  ((boundLabelIds (m.part (.body i))).head?.map fun l ↦ (.body i, l)).or <|
  (boundLabelIds (m.part (.glue i))).head?.map fun l ↦ (.glue i, l)

/-- The last function recorded with `l`, at `l` or at its first label, else the first glue that binds it. -/
def callEntry (l : ℕ) : Option (Part × ℕ) :=
  ((List.range m.chunks.length).reverse.findSome? fun k ↦
    if m.entryOf k = some l then (m.inChunk l k).or (m.firstLabel k) else none).or <|
  (List.range m.chunks.length).findSome? fun k ↦
    if m.binds l (.glue k) then some (.glue k, l) else none

/-- A call does not follow the tables into its own chunk. -/
def pickCall (q : Part) (l : ℕ) : Option (Part × ℕ) :=
  (m.ownBinder q l).or <|
  match m.callEntry l with
  | some (q', l') => if q'.chunk? = q.chunk? then m.kept l else some (q', l')
  | none => match (List.range m.chunks.length).filterMap (m.inChunk l) with
    | [b] => some b
    | _ => m.kept l

def pick (q : Part) (op : IlOp) (l : ℕ) : Option (Part × ℕ) :=
  if op.isJump then m.pickJump q l else m.pickCall q l

/-- The fresh ids are ids. -/
def Fits : Prop :=
  m.absorbTrailingLabels.maxCodeLabel + (m.absorbTrailingLabels.chunks.map Chunk.minted).sum ≤ u32Max

instance : Decidable m.Fits := inferInstanceAs (Decidable (_ ≤ _))

/-- No part binds a label twice, and no reference is captured. The order of the tables is that of the module
whose last body has taken its end labels from the epilogue. -/
structure Clean : Prop where
  distinct : ∀ q ∈ m.allParts, (boundLabelIds (m.absorbTrailingLabels.part q)).Nodup
  apart : ∀ l, m.absorbTrailingLabels.binds l .prologue → ¬ m.absorbTrailingLabels.binds l .epilogue
  uncaptured : ∀ q ∈ m.allParts, ∀ op ∈ m.part q, ∀ (l : ℕ) (pc : ℕ), op.target? = some l →
    m.meant q l = some pc →
    ((m.absorbTrailingLabels.pick q op l).bind fun b ↦ m.absorbTrailingLabels.pcIn b.1 b.2) = some pc

end IlModule

end CoilLang.Il
