import CoilLang.Lib.Packing
import CoilLang.Lib.RunLength

/-!
# Run-length line tables

The debug info of a program has one location and one line per bytecode slot (`ProgramDebug`). A
`LineTable` stores each of them **once per run of slots that share it**, and its runs are written as
varints with deltas against the run before. The definitions follow the source, including its conversions
of slot indices to `u32`, which truncate. Bytes still to be read stand for the reader's slice and position.
-/

namespace CoilLang

/-- Sentinel file index: no source location. -/
def debugFileUnknown : UInt32 := 0xffffffff

/-- A byte span of a source file. -/
structure DebugLoc where
  file : UInt32
  startByte : UInt32
  endByte : UInt32
  deriving DecidableEq, Repr

namespace DebugLoc

def unknown : DebugLoc := ⟨debugFileUnknown, 0, 0⟩

def isKnown (l : DebugLoc) : Bool := l.file ≠ debugFileUnknown ∧ l.startByte < l.endByte

end DebugLoc

/-- Line and column of a location; line 0 means unknown. -/
structure DebugLine where
  line : UInt32
  column : UInt32
  deriving DecidableEq, Repr

def DebugLine.isKnown (l : DebugLine) : Bool := l.line ≠ 0

/-! ### Dense tables -/

/-- The dense tables: one entry per bytecode slot. -/
structure ProgramDebug where
  debugLocs : List DebugLoc
  debugLines : List DebugLine

namespace ProgramDebug

/-- Byte span recorded for `pc`. -/
def locAt (d : ProgramDebug) (pc : ℕ) : Option DebugLoc := d.debugLocs[pc]?.filter DebugLoc.isKnown

/-- Recorded line and column for the location at `pc`. -/
def lineAt (d : ProgramDebug) (pc : ℕ) : Option DebugLine :=
  if d.debugLines.length ≠ d.debugLocs.length then none
  else d.debugLines[pc]?.filter DebugLine.isKnown

/-- File index and line/column recorded for `pc`. -/
def fileLineAt (d : ProgramDebug) (pc : ℕ) : Option (UInt32 × DebugLine) := do
  let loc ← d.locAt pc
  (d.lineAt pc).map fun line ↦ (loc.file, line)

end ProgramDebug

/-! ### Runs -/

/-- Line and column from `pc` up to the next run. -/
structure LineRun where
  pc : UInt32
  file : UInt32
  line : UInt32
  column : UInt32
  deriving DecidableEq, Repr

/-- Byte span from `pc` up to the next run. -/
structure SpanRun where
  pc : UInt32
  loc : DebugLoc
  deriving DecidableEq, Repr

/-- Run-length locations for `len` bytecode slots. -/
structure LineTable where
  len : UInt32
  lines : List LineRun
  spans : List SpanRun
  deriving DecidableEq, Repr

namespace LineTable

/-- What `fromDense` carries from slot to slot: the table so far and the last line and span. -/
structure Progress where
  table : LineTable
  prevLine : Option (UInt32 × UInt32 × UInt32)
  prevSpan : Option DebugLoc

/-- The line of a slot, if it and the slot's location are known. -/
def lineKey (aligned : Bool) (lines : List DebugLine) (pc : ℕ) (loc : DebugLoc) :
    Option (UInt32 × UInt32 × UInt32) :=
  ((if aligned && loc.isKnown then lines[pc]? else none).filter DebugLine.isKnown).map
    fun l ↦ (loc.file, l.line, l.column)

def spanKey (loc : DebugLoc) : Option DebugLoc := if loc.isKnown then some loc else none

def lineRun (pc : ℕ) (line : Option (UInt32 × UInt32 × UInt32)) : LineRun :=
  let (file, lineNo, column) := line.getD (debugFileUnknown, 0, 0)
  ⟨UInt32.ofNat pc, file, lineNo, column⟩

def spanRun (pc : ℕ) (span : Option DebugLoc) : SpanRun :=
  ⟨UInt32.ofNat pc, span.getD DebugLoc.unknown⟩

/-- One slot of the loop of `fromDense`. -/
def slot (aligned : Bool) (lines : List DebugLine) (spans : Bool) (p : Progress)
    (entry : DebugLoc × ℕ) : Progress :=
  let (loc, pc) := entry
  let line := lineKey aligned lines pc loc
  let p := if line ≠ p.prevLine then
      { p with
        table := { p.table with lines := p.table.lines ++ [lineRun pc line] }
        prevLine := line }
    else p
  let span := spanKey loc
  if spans ∧ span ≠ p.prevSpan then
    { p with
      table := { p.table with spans := p.table.spans ++ [spanRun pc span] }
      prevSpan := span }
  else p

/-- Runs from the dense tables. `lines` is aligned with `locs`, or no line is known. Spans are kept
only when `spans` is set. -/
def fromDense (locs : List DebugLoc) (lines : List DebugLine) (spans : Bool) : LineTable :=
  (locs.zipIdx.foldl (slot (lines.length = locs.length) lines spans)
    ⟨⟨UInt32.ofNat locs.length, [], []⟩, none, none⟩).table

/-- Index of the run that holds `pc`. -/
def runIndex {α : Type} (t : LineTable) (runs : List α) (pc : ℕ) (runPc : α → UInt32) : Option ℕ :=
  if t.len.toNat ≤ pc then none
  else
    match partitionPoint (fun r ↦ (runPc r).toNat ≤ pc) runs with
    | 0 => none
    | k + 1 => some k

/-- File index and line/column recorded for `pc`. -/
def lineAt (t : LineTable) (pc : ℕ) : Option (UInt32 × DebugLine) := do
  let i ← t.runIndex t.lines pc LineRun.pc
  let run ← t.lines[i]?
  if run.file ≠ debugFileUnknown then some (run.file, ⟨run.line, run.column⟩) else none

/-- Byte span recorded for `pc`. -/
def spanAt (t : LineTable) (pc : ℕ) : Option DebugLoc := do
  let i ← t.runIndex t.spans pc SpanRun.pc
  let run ← t.spans[i]?
  if run.loc.isKnown then some run.loc else none

/-! ### Encoding -/

def zigzag (v : Int64) : UInt64 := ((v <<< 1) ^^^ (v >>> 63)).toUInt64

def unzigzag (v : UInt64) : Int64 := (v >>> 1).toInt64 ^^^ -(v &&& 1).toInt64

/-- Seven bits a byte, lowest first; every byte but the last has its top bit set. -/
def putVarint (v : UInt64) : List UInt8 :=
  if 0x80 ≤ v then (v.toUInt8 ||| 0x80) :: putVarint (v >>> 7) else [v.toUInt8]
termination_by v.toNat
decreasing_by
  have h : (0x80 : UInt64).toNat ≤ v.toNat := UInt64.le_iff_toNat_le.1 ‹_›
  rw [UInt64.toNat_shiftRight]
  exact Nat.lt_of_le_of_lt (Nat.le_of_eq (Nat.shiftRight_eq_div_pow _ _))
    (Nat.div_lt_self (Nat.lt_of_lt_of_le (by decide) h) (by decide))

def putFile (file : UInt32) : List UInt8 :=
  putVarint (if file = debugFileUnknown then 0 else file.toUInt64 + 1)

/-- The difference of two `u32` as `i64`. -/
def delta (a b : UInt32) : Int64 := a.toUInt64.toInt64 - b.toUInt64.toInt64

def encodeLineRuns (pc line : UInt32) : List LineRun → List UInt8
  | [] => []
  | run :: rs =>
    putVarint (run.pc - pc).toUInt64 ++ (putFile run.file ++
      if run.file ≠ debugFileUnknown then
        putVarint (zigzag (delta run.line line)) ++ (putVarint run.column.toUInt64 ++
          encodeLineRuns run.pc run.line rs)
      else encodeLineRuns run.pc line rs)

/-- Encoded line runs. -/
def encodeLines (t : LineTable) : List UInt8 :=
  if t.lines = [] then []
  else putVarint t.len.toUInt64 ++ (putVarint (UInt64.ofNat t.lines.length) ++ encodeLineRuns 0 0 t.lines)

def encodeSpanRuns (pc start : UInt32) : List SpanRun → List UInt8
  | [] => []
  | run :: rs =>
    putVarint (run.pc - pc).toUInt64 ++ (putFile run.loc.file ++
      if run.loc.file ≠ debugFileUnknown then
        putVarint (zigzag (delta run.loc.startByte start)) ++
          (putVarint (run.loc.endByte - run.loc.startByte).toUInt64 ++
            encodeSpanRuns run.pc run.loc.startByte rs)
      else encodeSpanRuns run.pc start rs)

/-- Encoded span runs. -/
def encodeSpans (t : LineTable) : List UInt8 :=
  if t.spans = [] then []
  else putVarint t.len.toUInt64 ++ (putVarint (UInt64.ofNat t.spans.length) ++ encodeSpanRuns 0 0 t.spans)

end LineTable

/-! ### Decoding -/

/-- Why an encoded table did not decode. -/
structure LineTableError where
  message : String
  deriving DecidableEq, Repr

namespace LineTable

/-- `base` moved by a delta, if it stays a `u32`. -/
def applyDelta (base : UInt32) (d : Int64) : Except LineTableError UInt32 :=
  let v := (base.toUInt64.toInt64 + d).toInt
  if 0 ≤ v ∧ v < 2 ^ 32 then .ok (UInt32.ofNat v.toNat) else .error ⟨"delta out of range"⟩

/-- The bytes still to be read. -/
abbrev Reader := List UInt8

namespace Reader

def varintFrom (v : UInt64) : List UInt64 → Reader → Except LineTableError (UInt64 × Reader)
  | [], _ => .error ⟨"varint too long"⟩
  | _ :: _, [] => .error ⟨"truncated varint"⟩
  | shift :: shifts, b :: r =>
    let v := v ||| (b &&& 0x7f).toUInt64 <<< shift
    if b &&& 0x80 = 0 then .ok (v, r) else varintFrom v shifts r

def varint (r : Reader) : Except LineTableError (UInt64 × Reader) :=
  varintFrom 0 [0, 7, 14, 21, 28, 35, 42, 49, 56, 63] r

def u32 (r : Reader) : Except LineTableError (UInt32 × Reader) := do
  let (v, r) ← varint r
  if v.toNat < 2 ^ 32 then .ok (v.toUInt32, r) else .error ⟨"value exceeds u32"⟩

def zigzag (r : Reader) : Except LineTableError (Int64 × Reader) := do
  let (v, r) ← varint r
  .ok (unzigzag v, r)

/-- A run count: every run takes at least two bytes. -/
def count (r : Reader) : Except LineTableError (ℕ × Reader) := do
  let (v, r) ← varint r
  if r.length / 2 < v.toNat then .error ⟨"run count exceeds table"⟩ else .ok (v.toNat, r)

def nextPc (r : Reader) (pc : UInt32) (i : ℕ) (len : UInt32) :
    Except LineTableError (UInt32 × Reader) := do
  let (d, r) ← u32 r
  if 0 < i ∧ d = 0 then .error ⟨"runs out of order"⟩
  else if pc.toNat + d.toNat < 2 ^ 32 ∧ pc + d < len then .ok (pc + d, r)
  else .error ⟨"run past the end of the bytecode"⟩

def file (r : Reader) (files : ℕ) : Except LineTableError (UInt32 × Reader) := do
  let (code, r) ← varint r
  if code = 0 then .ok (debugFileUnknown, r)
  else if (code - 1).toNat < files then .ok ((code - 1).toUInt32, r)
  else .error ⟨"file index out of range"⟩

def finish (r : Reader) : Except LineTableError Unit :=
  if r = [] then .ok () else .error ⟨"trailing bytes"⟩

/-- `n` line runs, the first of them run `i`. -/
def lineRuns (files : ℕ) (len : UInt32) :
    ℕ → ℕ → UInt32 → UInt32 → Reader → Except LineTableError (List LineRun × Reader)
  | 0, _, _, _, r => .ok ([], r)
  | n + 1, i, pc, line, r => do
    let (pc, r) ← nextPc r pc i len
    let (file, r) ← r.file files
    if file ≠ debugFileUnknown then
      let (d, r) ← r.zigzag
      let l ← applyDelta line d
      let (column, r) ← r.u32
      let (rs, r) ← lineRuns files len n (i + 1) pc l r
      .ok (⟨pc, file, l, column⟩ :: rs, r)
    else
      let (rs, r) ← lineRuns files len n (i + 1) pc line r
      .ok (⟨pc, file, 0, 0⟩ :: rs, r)

/-- `n` span runs, the first of them run `i`. -/
def spanRuns (files : ℕ) (len : UInt32) :
    ℕ → ℕ → UInt32 → UInt32 → Reader → Except LineTableError (List SpanRun × Reader)
  | 0, _, _, _, r => .ok ([], r)
  | n + 1, i, pc, start, r => do
    let (pc, r) ← nextPc r pc i len
    let (file, r) ← r.file files
    if file ≠ debugFileUnknown then
      let (d, r) ← r.zigzag
      let s ← applyDelta start d
      let (length, r) ← r.u32
      if s.toNat + length.toNat < 2 ^ 32 then
        let (rs, r) ← spanRuns files len n (i + 1) pc s r
        .ok (⟨pc, ⟨file, s, s + length⟩⟩ :: rs, r)
      else .error ⟨"span end overflows"⟩
    else
      let (rs, r) ← spanRuns files len n (i + 1) pc start r
      .ok (⟨pc, DebugLoc.unknown⟩ :: rs, r)

end Reader

/-- The length of a table and its line runs, if there are any. -/
def decodeLines (lines : List UInt8) (files : ℕ) :
    Except LineTableError (Option UInt32 × List LineRun) :=
  if lines = [] then .ok (none, [])
  else do
    let (len, r) ← Reader.u32 lines
    let (n, r) ← r.count
    let (rs, r) ← Reader.lineRuns files len n 0 0 0 r
    r.finish
    .ok (some len, rs)

/-- The length of a table and its span runs, if there are any. The length must be `len?` if the line
runs gave one. -/
def decodeSpans (len? : Option UInt32) (spans : List UInt8) (files : ℕ) :
    Except LineTableError (Option UInt32 × List SpanRun) :=
  if spans = [] then .ok (len?, [])
  else do
    let (len, r) ← Reader.u32 spans
    if ∃ l ∈ len?, len ≠ l then .error ⟨"line and span tables cover different lengths"⟩
    else
      let (n, r) ← r.count
      let (rs, r) ← Reader.spanRuns files len n 0 0 0 r
      r.finish
      .ok (some len, rs)

/-- Decode what `encodeLines` and `encodeSpans` write. -/
def decode (lines spans : List UInt8) (files : ℕ) : Except LineTableError LineTable := do
  let (len?, lineRuns) ← decodeLines lines files
  let (len?, spanRuns) ← decodeSpans len? spans files
  .ok ⟨len?.getD 0, lineRuns, spanRuns⟩

end LineTable

end CoilLang
