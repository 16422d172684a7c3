import CoilLang.Common.LineTableRoundTrip
import Mathlib.Data.Int.Notation

/-!
# Decoding with every operation checked

`decode` reads bytes that anyone may have written. Here it is again with the reader's slice and position
and with **every arithmetic operation of the source checked**, as a build with overflow checks runs it. The
only one that can overflow is the sum of `applyDelta`: a run may add any 64-bit delta to the line, or the
start, of the run before. Where no delta does (`DeltasFit`), the two decodes agree; where one does, this
one stops there (`decodeChecked_overflow`).
-/

namespace CoilLang.LineTable

/-- How a decode stops: at an operation that overflows, or with an error. -/
inductive Fault
  | overflow
  | err (e : LineTableError)
  deriving DecidableEq, Repr

/-- A byte slice. The language bounds its length. -/
def Slice : Type := { b : List UInt8 // b.length < 2 ^ 63 }

/-! ### Checked operations -/

/-- A `usize`. -/
def checkedUsize (n : ℤ) : Except Fault ℕ := if 0 ≤ n ∧ n < 2 ^ 64 then .ok n.toNat else .error .overflow

/-- A `u64`. -/
def checkedU64 (n : ℤ) : Except Fault UInt64 := if 0 ≤ n ∧ n < 2 ^ 64 then .ok (UInt64.ofNat n.toNat) else .error .overflow

/-- An `i64`. -/
def checkedI64 (n : ℤ) : Except Fault Int64 := if -2 ^ 63 ≤ n ∧ n < 2 ^ 63 then .ok (Int64.ofInt n) else .error .overflow

/-- `v << shift` for a `u64`. -/
def checkedShl (v shift : UInt64) : Except Fault UInt64 := if shift < 64 then .ok (v <<< shift) else .error .overflow

def unzigzagChecked (v : UInt64) : Except Fault Int64 := do
  let sign ← checkedI64 (-(v &&& 1).toInt64.toInt)
  .ok ((v >>> 1).toInt64 ^^^ sign)

def applyDeltaChecked (base : UInt32) (d : Int64) : Except Fault UInt32 := do
  let v ← checkedI64 (base.toNat + d.toInt)
  if 0 ≤ v.toInt ∧ v.toInt < 2 ^ 32 then .ok (UInt32.ofNat v.toInt.toNat) else .error (.err ⟨"delta out of range"⟩)

/-- A slice and the place of the next byte. -/
structure SliceReader where
  bytes : Slice
  pos : ℕ

namespace SliceReader

def new (bytes : Slice) : SliceReader := ⟨bytes, 0⟩

def varintFrom (v : UInt64) : List UInt64 → SliceReader → Except Fault (UInt64 × SliceReader)
  | [], _ => .error (.err ⟨"varint too long"⟩)
  | shift :: shifts, r =>
    match r.bytes.1[r.pos]? with
    | none => .error (.err ⟨"truncated varint"⟩)
    | some b => do
      let pos ← checkedUsize (r.pos + 1)
      let part ← checkedShl (b &&& 0x7f).toUInt64 shift
      if b &&& 0x80 = 0 then .ok (v ||| part, ⟨r.bytes, pos⟩) else varintFrom (v ||| part) shifts ⟨r.bytes, pos⟩

def varint (r : SliceReader) : Except Fault (UInt64 × SliceReader) :=
  varintFrom 0 [0, 7, 14, 21, 28, 35, 42, 49, 56, 63] r

def u32 (r : SliceReader) : Except Fault (UInt32 × SliceReader) := do
  let (v, r) ← varint r
  if v.toNat < 2 ^ 32 then .ok (v.toUInt32, r) else .error (.err ⟨"value exceeds u32"⟩)

def zigzag (r : SliceReader) : Except Fault (Int64 × SliceReader) := do
  let (v, r) ← varint r
  let d ← unzigzagChecked v
  .ok (d, r)

def count (r : SliceReader) : Except Fault (ℕ × SliceReader) := do
  let (v, r) ← varint r
  let left ← checkedUsize (r.bytes.1.length - r.pos)
  if left / 2 < v.toNat then .error (.err ⟨"run count exceeds table"⟩) else .ok (v.toNat, r)

def nextPc (r : SliceReader) (pc : UInt32) (i : ℕ) (len : UInt32) : Except Fault (UInt32 × SliceReader) := do
  let (d, r) ← u32 r
  if 0 < i ∧ d = 0 then .error (.err ⟨"runs out of order"⟩)
  else if pc.toNat + d.toNat < 2 ^ 32 ∧ pc + d < len then .ok (pc + d, r)
  else .error (.err ⟨"run past the end of the bytecode"⟩)

def file (r : SliceReader) (files : ℕ) : Except Fault (UInt32 × SliceReader) := do
  let (code, r) ← varint r
  if code = 0 then .ok (debugFileUnknown, r)
  else
    let id ← checkedU64 (code.toNat - 1)
    if id.toNat < files then .ok (id.toUInt32, r) else .error (.err ⟨"file index out of range"⟩)

def finish (r : SliceReader) : Except Fault Unit :=
  if r.pos = r.bytes.1.length then .ok () else .error (.err ⟨"trailing bytes"⟩)

end SliceReader

/-! ### Runs, one after another

Both loops of `decode` read the place and the file of a run and, if there is a file, move the line or the
start they carry by a delta. -/

/-- `for i in 0..n`, with a state and a reader. -/
def eachRun {E α σ ρ : Type} (body : ℕ → σ → ρ → Except E (α × σ × ρ)) :
    ℕ → ℕ → σ → ρ → Except E (List α × σ × ρ)
  | 0, _, s, r => .ok ([], s, r)
  | n + 1, i, s, r => do
    let (x, s, r) ← body i s r
    let (xs, s, r) ← eachRun body n (i + 1) s r
    .ok (x :: xs, s, r)

/-- Place, file and, for a known file, what the delta gives. -/
structure Head where
  pc : UInt32
  file : UInt32
  moved : Option UInt32

namespace SliceReader

def head (files : ℕ) (len : UInt32) (i : ℕ) (pc base : UInt32) (r : SliceReader) : Except Fault (Head × SliceReader) := do
  let (pc, r) ← r.nextPc pc i len
  let (file, r) ← r.file files
  if file ≠ debugFileUnknown then
    let (d, r) ← r.zigzag
    let v ← applyDeltaChecked base d
    .ok (⟨pc, file, some v⟩, r)
  else .ok (⟨pc, file, none⟩, r)

def lineBody (files : ℕ) (len : UInt32) (i : ℕ) (s : UInt32 × UInt32) (r : SliceReader) :
    Except Fault (LineRun × (UInt32 × UInt32) × SliceReader) := do
  let (h, r) ← r.head files len i s.1 s.2
  match h.moved with
  | some l =>
    let (column, r) ← r.u32
    .ok (⟨h.pc, h.file, l, column⟩, (h.pc, l), r)
  | none => .ok (⟨h.pc, h.file, 0, 0⟩, (h.pc, s.2), r)

def spanBody (files : ℕ) (len : UInt32) (i : ℕ) (s : UInt32 × UInt32) (r : SliceReader) :
    Except Fault (SpanRun × (UInt32 × UInt32) × SliceReader) := do
  let (h, r) ← r.head files len i s.1 s.2
  match h.moved with
  | some start =>
    let (length, r) ← r.u32
    if start.toNat + length.toNat < 2 ^ 32 then .ok (⟨h.pc, ⟨h.file, start, start + length⟩⟩, (h.pc, start), r)
    else .error (.err ⟨"span end overflows"⟩)
  | none => .ok (⟨h.pc, DebugLoc.unknown⟩, (h.pc, s.2), r)

end SliceReader

/-- The length of the table and its line runs, if there are any. -/
def decodeLinesChecked (lines : Slice) (files : ℕ) : Except Fault (Option UInt32 × List LineRun) :=
  if lines.1 = [] then .ok (none, [])
  else do
    let (len, r) ← (SliceReader.new lines).u32
    let (n, r) ← r.count
    let (rs, _, r) ← eachRun (SliceReader.lineBody files len) n 0 (0, 0) r
    r.finish
    .ok (some len, rs)

def decodeSpansChecked (len? : Option UInt32) (spans : Slice) (files : ℕ) : Except Fault (Option UInt32 × List SpanRun) :=
  if spans.1 = [] then .ok (len?, [])
  else do
    let (len, r) ← (SliceReader.new spans).u32
    if ∃ l ∈ len?, len ≠ l then .error (.err ⟨"line and span tables cover different lengths"⟩)
    else
      let (n, r) ← r.count
      let (rs, _, r) ← eachRun (SliceReader.spanBody files len) n 0 (0, 0) r
      r.finish
      .ok (some len, rs)

/-- `decode` as a build with overflow checks runs it. -/
def decodeChecked (lines spans : Slice) (files : ℕ) : Except Fault LineTable := do
  let (len?, lineRuns) ← decodeLinesChecked lines files
  let (len?, spanRuns) ← decodeSpansChecked len? spans files
  .ok ⟨len?.getD 0, lineRuns, spanRuns⟩

namespace Reader

def head (files : ℕ) (len : UInt32) (i : ℕ) (pc base : UInt32) (r : Reader) : Except LineTableError (Head × Reader) := do
  let (pc, r) ← r.nextPc pc i len
  let (file, r) ← r.file files
  if file ≠ debugFileUnknown then
    let (d, r) ← r.zigzag
    let v ← applyDelta base d
    .ok (⟨pc, file, some v⟩, r)
  else .ok (⟨pc, file, none⟩, r)

/-- One line run. -/
def lineBody (files : ℕ) (len : UInt32) (i : ℕ) (s : UInt32 × UInt32) (r : Reader) :
    Except LineTableError (LineRun × (UInt32 × UInt32) × Reader) := do
  let (h, r) ← r.head files len i s.1 s.2
  match h.moved with
  | some l =>
    let (column, r) ← r.u32
    .ok (⟨h.pc, h.file, l, column⟩, (h.pc, l), r)
  | none => .ok (⟨h.pc, h.file, 0, 0⟩, (h.pc, s.2), r)

/-- One span run. -/
def spanBody (files : ℕ) (len : UInt32) (i : ℕ) (s : UInt32 × UInt32) (r : Reader) :
    Except LineTableError (SpanRun × (UInt32 × UInt32) × Reader) := do
  let (h, r) ← r.head files len i s.1 s.2
  match h.moved with
  | some start =>
    let (length, r) ← r.u32
    if start.toNat + length.toNat < 2 ^ 32 then .ok (⟨h.pc, ⟨h.file, start, start + length⟩⟩, (h.pc, start), r)
    else .error ⟨"span end overflows"⟩
  | none => .ok (⟨h.pc, DebugLoc.unknown⟩, (h.pc, s.2), r)

theorem lineRuns_eq (files : ℕ) (len : UInt32) (n i : ℕ) (pc line : UInt32) (r : Reader) :
    lineRuns files len n i pc line r = (eachRun (lineBody files len) n i (pc, line) r).map fun x ↦ (x.1, x.2.2) := by
  induction n generalizing i pc line r with
  | zero => rfl
  | succ n ih =>
    rw [lineRuns, eachRun, lineBody, head]
    rcases nextPc r pc i len with e | ⟨pc', r₁⟩
    · rfl
    simp only [ok_bind]
    rcases file r₁ files with e | ⟨file, r₂⟩
    · rfl
    simp only [ok_bind]
    split
    · rcases zigzag r₂ with e | ⟨d, r₃⟩
      · rfl
      simp only [ok_bind]
      rcases applyDelta line d with e | l
      · rfl
      simp only [ok_bind]
      rcases u32 r₃ with e | ⟨column, r₄⟩
      · rfl
      simp only [ok_bind, ih]
      rcases eachRun (lineBody files len) n (i + 1) (pc', l) r₄ with e | x <;> rfl
    · simp only [ok_bind, ih]
      rcases eachRun (lineBody files len) n (i + 1) (pc', line) r₂ with e | x <;> rfl

theorem spanRuns_eq (files : ℕ) (len : UInt32) (n i : ℕ) (pc start : UInt32) (r : Reader) :
    spanRuns files len n i pc start r = (eachRun (spanBody files len) n i (pc, start) r).map fun x ↦ (x.1, x.2.2) := by
  induction n generalizing i pc start r with
  | zero => rfl
  | succ n ih =>
    rw [spanRuns, eachRun, spanBody, head]
    rcases nextPc r pc i len with e | ⟨pc', r₁⟩
    · rfl
    simp only [ok_bind]
    rcases file r₁ files with e | ⟨file, r₂⟩
    · rfl
    simp only [ok_bind]
    split
    · rcases zigzag r₂ with e | ⟨d, r₃⟩
      · rfl
      simp only [ok_bind]
      rcases applyDelta start d with e | s
      · rfl
      simp only [ok_bind]
      rcases u32 r₃ with e | ⟨length, r₄⟩
      · rfl
      simp only [ok_bind, ih]
      split
      · simp only [ok_bind]
        rcases eachRun (spanBody files len) n (i + 1) (pc', s) r₄ with e | x <;> rfl
      · rfl
    · simp only [ok_bind, ih]
      rcases eachRun (spanBody files len) n (i + 1) (pc', start) r₂ with e | x <;> rfl

end Reader

/-! ### The two readers agree -/

/-- The same outcome, and none is an overflow. -/
def Agree {α β : Type} (R : α → β → Prop) : Except Fault α → Except LineTableError β → Prop
  | .ok a, .ok b => R a b
  | .error (.err e), .error e' => e = e'
  | _, _ => False

/-- The bytes a reader has left. -/
def SliceReader.rest (r : SliceReader) : Reader := r.bytes.1.drop r.pos

/-- The same value read, and the same bytes left. -/
def Same {α : Type} (x : α × SliceReader) (y : α × Reader) : Prop :=
  x.1 = y.1 ∧ x.2.rest = y.2 ∧ x.2.pos ≤ x.2.bytes.1.length

theorem Agree.bind {α β γ δ : Type} {R : α → β → Prop} {S : γ → δ → Prop} {x : Except Fault α} {y : Except LineTableError β}
    {f : α → Except Fault γ} {g : β → Except LineTableError δ} (h : Agree R x y) (hfg : ∀ a b, y = .ok b → R a b → Agree S (f a) (g b)) :
    Agree S (x >>= f) (y >>= g) := by
  rcases x with (_ | e) | a <;> rcases y with e' | b
  · exact h.elim
  · exact h.elim
  · exact h
  · exact h.elim
  · exact h.elim
  · exact hfg a b rfl h

theorem Agree.ite {α β : Type} {R : α → β → Prop} {p : Prop} [Decidable p] {x x' : Except Fault α} {y y' : Except LineTableError β}
    (h : p → Agree R x y) (h' : ¬ p → Agree R x' y') : Agree R (if p then x else x') (if p then y else y') := by
  split
  · exact h ‹_›
  · exact h' ‹_›

theorem checkedUsize_of_lt {n : ℕ} (h : n < 2 ^ 64) : checkedUsize n = .ok n := by
  rw [checkedUsize, if_pos ⟨by omega, by omega⟩, Int.toNat_natCast]

theorem unzigzagChecked_eq (v : UInt64) : unzigzagChecked v = .ok (unzigzag v) := by
  have hbit : (v &&& 1).toNat = v.toNat % 2 := by
    rw [UInt64.toNat_and]
    exact Nat.and_one_is_mod v.toNat
  have hand : v &&& 1 = 0 ∨ v &&& 1 = 1 := by
    rw [← UInt64.toNat_inj, ← UInt64.toNat_inj, hbit]
    exact Nat.mod_two_eq_zero_or_one v.toNat
  rw [unzigzagChecked, unzigzag]
  rcases hand with h | h
  · rw [h]
    rfl
  · rw [h]
    rfl

namespace SliceReader

variable {r : SliceReader} (hr : r.pos ≤ r.bytes.1.length)
include hr

theorem agree_varintFrom (v : UInt64) (shifts : List UInt64) (hs : ∀ s ∈ shifts, s < 64) :
    Agree Same (r.varintFrom v shifts) (Reader.varintFrom v shifts r.rest) := by
  induction shifts generalizing v r with
  | nil => exact rfl
  | cons shift shifts ih =>
    rw [varintFrom]
    rcases hb : r.bytes.1[r.pos]? with _ | b
    · have hrest : r.rest = [] := List.drop_eq_nil_of_le (List.getElem?_eq_none_iff.mp hb)
      rw [hrest]
      exact rfl
    · have hlt : r.pos < r.bytes.1.length := (List.getElem?_eq_some_iff.mp hb).1
      have hrest : r.rest = b :: r.bytes.1.drop (r.pos + 1) := by
        rw [rest, List.drop_eq_getElem_cons hlt, (List.getElem?_eq_some_iff.mp hb).2]
      have hlen := r.bytes.2
      have hpos : checkedUsize (r.pos + 1) = .ok (r.pos + 1) :=
        checkedUsize_of_lt (show r.pos + 1 < 2 ^ 64 by omega)
      have hshl : checkedShl (b &&& 0x7f).toUInt64 shift = .ok ((b &&& 0x7f).toUInt64 <<< shift) :=
        if_pos (hs shift List.mem_cons_self)
      rw [hrest, Reader.varintFrom]
      simp only [hpos, hshl]
      refine Agree.ite (fun _ ↦ ⟨rfl, rfl, hlt⟩) fun _ ↦ ?_
      exact ih (show (SliceReader.mk r.bytes (r.pos + 1)).pos ≤ _ from hlt) _ fun s hs' ↦ hs s (List.mem_cons_of_mem shift hs')

theorem agree_varint : Agree Same r.varint (Reader.varint r.rest) := by
  refine agree_varintFrom hr 0 _ ?_
  simp only [List.forall_mem_cons, List.not_mem_nil, false_imp_iff, implies_true, and_true]
  decide +kernel

theorem agree_u32 : Agree Same r.u32 (Reader.u32 r.rest) := by
  refine (agree_varint hr).bind ?_
  rintro ⟨v, r'⟩ ⟨-, -⟩ - ⟨rfl, rfl, hr'⟩
  exact Agree.ite (fun _ ↦ ⟨rfl, rfl, hr'⟩) fun _ ↦ rfl

theorem agree_zigzag : Agree Same r.zigzag (Reader.zigzag r.rest) := by
  refine (agree_varint hr).bind ?_
  rintro ⟨v, r'⟩ ⟨-, -⟩ - ⟨rfl, rfl, hr'⟩
  dsimp only
  rw [unzigzagChecked_eq]
  exact ⟨rfl, rfl, hr'⟩

theorem agree_count : Agree Same r.count (Reader.count r.rest) := by
  refine (agree_varint hr).bind ?_
  rintro ⟨v, r'⟩ ⟨-, -⟩ - ⟨rfl, rfl, hr'⟩
  have hlen : r'.rest.length = r'.bytes.1.length - r'.pos := List.length_drop
  have hleft : checkedUsize (r'.bytes.1.length - r'.pos) = .ok (r'.bytes.1.length - r'.pos) := by
    have := r'.bytes.2
    rw [← Int.natCast_sub hr']
    exact checkedUsize_of_lt (show r'.bytes.1.length - r'.pos < 2 ^ 64 by omega)
  simp only [hleft, hlen]
  exact Agree.ite (fun _ ↦ rfl) fun _ ↦ ⟨rfl, rfl, hr'⟩

theorem agree_nextPc (pc : UInt32) (i : ℕ) (len : UInt32) : Agree Same (r.nextPc pc i len) (Reader.nextPc r.rest pc i len) := by
  refine (agree_u32 hr).bind ?_
  rintro ⟨d, r'⟩ ⟨-, -⟩ - ⟨rfl, rfl, hr'⟩
  exact Agree.ite (fun _ ↦ rfl) fun _ ↦ Agree.ite (fun _ ↦ ⟨rfl, rfl, hr'⟩) fun _ ↦ rfl

theorem agree_file (files : ℕ) : Agree Same (r.file files) (Reader.file r.rest files) := by
  refine (agree_varint hr).bind ?_
  rintro ⟨code, r'⟩ ⟨-, -⟩ - ⟨rfl, rfl, hr'⟩
  refine Agree.ite (fun _ ↦ ⟨rfl, rfl, hr'⟩) fun hne ↦ ?_
  have hpos : 1 ≤ code.toNat := Nat.one_le_iff_ne_zero.mpr fun h ↦ hne (UInt64.toNat_inj.mp h)
  have hid : checkedU64 (code.toNat - 1) = .ok (code - 1) := by
    have hlt := code.toNat_lt
    have hsub : (code - 1).toNat = code.toNat - 1 := UInt64.toNat_sub_of_le code 1 hpos
    rw [checkedU64, if_pos ⟨by omega, by omega⟩, ← UInt64.ofNat_toNat (x := code - 1), hsub]
    congr 2
    omega
  simp only [hid]
  exact Agree.ite (fun _ ↦ ⟨rfl, rfl, hr'⟩) fun _ ↦ rfl

end SliceReader

/-! ### Where a sum overflows -/

/-- The delta of the next run, if there is one, does not take `base` past the largest `i64`. -/
def DeltaFits (files : ℕ) (len : UInt32) (i : ℕ) (s : UInt32 × UInt32) (r : Reader) : Prop :=
  ∀ pc r₁ file r₂ d r₃, r.nextPc s.1 i len = .ok (pc, r₁) → r₁.file files = .ok (file, r₂) →
    file ≠ debugFileUnknown → r₂.zigzag = .ok (d, r₃) → s.2.toNat + d.toInt < 2 ^ 63

theorem applyDeltaChecked_of_fits {base : UInt32} {d : Int64} (h : base.toNat + d.toInt < 2 ^ 63) :
    Agree Eq (applyDeltaChecked base d) (applyDelta base d) := by
  have hlo : -2 ^ 63 ≤ d.toInt := d.le_toInt
  have hbase : base.toUInt64.toInt64.toInt = base.toNat := by
    have hlt := base.toNat_lt
    have hnat : base.toUInt64.toBitVec.toNat = base.toNat := UInt32.toNat_toUInt64 base
    show base.toUInt64.toBitVec.toInt = _
    rw [BitVec.toInt_eq_toNat_of_lt (by omega), hnat]
  have hsum : (base.toUInt64.toInt64 + d).toInt = base.toNat + d.toInt := by
    rw [Int64.toInt_add, hbase]
    exact Int.bmod_eq_of_le (by omega) (by omega)
  have hcast : (Int64.ofInt (base.toNat + d.toInt)).toInt = base.toNat + d.toInt :=
    Int64.toInt_ofInt_of_le (by omega) (by omega)
  rw [applyDeltaChecked, applyDelta, checkedI64, if_pos ⟨by omega, h⟩, hsum]
  show Agree Eq (if _ then _ else _) _
  rw [hcast]
  exact Agree.ite (fun _ ↦ rfl) fun _ ↦ rfl

theorem applyDeltaChecked_of_not_fits {base : UInt32} {d : Int64} (h : ¬ base.toNat + d.toInt < 2 ^ 63) :
    applyDeltaChecked base d = .error .overflow := by
  rw [applyDeltaChecked, checkedI64, if_neg fun hi ↦ h hi.2]
  rfl

theorem Agree.ok {α β : Type} {R : α → β → Prop} {x : Except Fault α} {y : Except LineTableError β} (h : Agree R x y) {b : β}
    (hy : y = .ok b) : ∃ a, x = .ok a ∧ R a b := by
  subst hy
  rcases x with (_ | e) | a
  · exact h.elim
  · exact h.elim
  · exact ⟨a, rfl, h⟩

namespace SliceReader

variable {r : SliceReader} (hr : r.pos ≤ r.bytes.1.length)
include hr

theorem agree_head (files : ℕ) (len : UInt32) (i : ℕ) (s : UInt32 × UInt32) (h : DeltaFits files len i s r.rest) :
    Agree Same (r.head files len i s.1 s.2) (Reader.head files len i s.1 s.2 r.rest) := by
  refine (agree_nextPc hr s.1 i len).bind ?_
  rintro ⟨pc, r₁⟩ ⟨-, -⟩ hpc ⟨rfl, rfl, hr₁⟩
  refine (agree_file hr₁ files).bind ?_
  rintro ⟨file, r₂⟩ ⟨-, -⟩ hfile ⟨rfl, rfl, hr₂⟩
  refine Agree.ite (fun hknown ↦ ?_) fun _ ↦ ⟨rfl, rfl, hr₂⟩
  refine (agree_zigzag hr₂).bind ?_
  rintro ⟨d, r₃⟩ ⟨-, -⟩ hd ⟨rfl, rfl, hr₃⟩
  refine (applyDeltaChecked_of_fits (h _ _ _ _ _ _ hpc hfile hknown hd)).bind ?_
  rintro v - - rfl
  exact ⟨rfl, rfl, hr₃⟩

theorem head_overflow (files : ℕ) (len : UInt32) (i : ℕ) (s : UInt32 × UInt32) (h : ¬ DeltaFits files len i s r.rest) :
    r.head files len i s.1 s.2 = .error .overflow := by
  simp only [DeltaFits, not_forall] at h
  obtain ⟨pc, r₁, file, r₂, d, r₃, hpc, hfile, hknown, hd, hover⟩ := h
  obtain ⟨⟨pc', q₁⟩, hq₁, hsame₁, rfl, hpos₁⟩ := (agree_nextPc hr s.1 i len).ok hpc
  cases (hsame₁ : pc' = pc)
  obtain ⟨⟨file', q₂⟩, hq₂, hsame₂, rfl, hpos₂⟩ := (agree_file hpos₁ files).ok hfile
  cases (hsame₂ : file' = file)
  obtain ⟨⟨d', q₃⟩, hq₃, hsame₃, -, -⟩ := (agree_zigzag hpos₂).ok hd
  cases (hsame₃ : d' = d)
  rw [head, hq₁]
  show (q₁.file files >>= _) = _
  rw [hq₂]
  show (if _ then _ else _) = _
  rw [if_pos hknown, hq₃]
  show (applyDeltaChecked s.2 d >>= _) = _
  rw [applyDeltaChecked_of_not_fits hover]
  rfl

omit hr in
theorem bind_overflow {α β : Type} {x : Except Fault α} (h : x = .error .overflow) (f : α → Except Fault β) :
    (x >>= f) = .error .overflow := by
  rw [h]
  rfl

end SliceReader

/-- The same run, the same state and the same bytes left. -/
def SameRun {α σ : Type} (x : α × σ × SliceReader) (y : α × σ × Reader) : Prop := x.1 = y.1 ∧ Same x.2 y.2

namespace SliceReader

variable (files : ℕ) (len : UInt32) (i : ℕ) (s : UInt32 × UInt32) (r : SliceReader) (hr : r.pos ≤ r.bytes.1.length)
include hr

theorem agree_lineBody (h : DeltaFits files len i s r.rest) :
    Agree SameRun (r.lineBody files len i s) (Reader.lineBody files len i s r.rest) := by
  refine (agree_head hr files len i s h).bind ?_
  rintro ⟨⟨pc, file, moved⟩, r₁⟩ ⟨-, -⟩ - ⟨rfl, rfl, hr₁⟩
  cases moved with
  | some l =>
    refine (agree_u32 hr₁).bind ?_
    rintro ⟨column, r₂⟩ ⟨-, -⟩ - ⟨rfl, rfl, hr₂⟩
    exact ⟨rfl, rfl, rfl, hr₂⟩
  | none => exact ⟨rfl, rfl, rfl, hr₁⟩

theorem agree_spanBody (h : DeltaFits files len i s r.rest) :
    Agree SameRun (r.spanBody files len i s) (Reader.spanBody files len i s r.rest) := by
  refine (agree_head hr files len i s h).bind ?_
  rintro ⟨⟨pc, file, moved⟩, r₁⟩ ⟨-, -⟩ - ⟨rfl, rfl, hr₁⟩
  cases moved with
  | some l =>
    refine (agree_u32 hr₁).bind ?_
    rintro ⟨length, r₂⟩ ⟨-, -⟩ - ⟨rfl, rfl, hr₂⟩
    exact Agree.ite (fun _ ↦ ⟨rfl, rfl, rfl, hr₂⟩) fun _ ↦ rfl
  | none => exact ⟨rfl, rfl, rfl, hr₁⟩

theorem lineBody_overflow (h : ¬ DeltaFits files len i s r.rest) : r.lineBody files len i s = .error .overflow :=
  bind_overflow (head_overflow hr files len i s h) _

theorem spanBody_overflow (h : ¬ DeltaFits files len i s r.rest) : r.spanBody files len i s = .error .overflow :=
  bind_overflow (head_overflow hr files len i s h) _

end SliceReader

/-! ### Loops -/

section
variable {α σ : Type} {checked : ℕ → σ → SliceReader → Except Fault (α × σ × SliceReader)}
  {body : ℕ → σ → Reader → Except LineTableError (α × σ × Reader)} {Fits : ℕ → σ → Reader → Prop}

/-- What the loop reads next fits after any number of runs that decode. -/
def AllFit (body : ℕ → σ → Reader → Except LineTableError (α × σ × Reader)) (Fits : ℕ → σ → Reader → Prop)
    (n i : ℕ) (s : σ) (r : Reader) : Prop :=
  ∀ k < n, ∀ xs s' r', eachRun body k i s r = .ok (xs, s', r') → Fits (i + k) s' r'

theorem allFit_succ {n i : ℕ} {s : σ} {r : Reader} : AllFit body Fits (n + 1) i s r ↔
    Fits i s r ∧ ∀ x s' r', body i s r = .ok (x, s', r') → AllFit body Fits n (i + 1) s' r' := by
  constructor
  · intro h
    refine ⟨h 0 n.succ_pos [] s r rfl, fun x s' r' hx k hk xs s'' r'' hxs ↦ ?_⟩
    rw [Nat.add_right_comm, Nat.add_assoc]
    refine h (k + 1) (Nat.succ_lt_succ hk) (x :: xs) s'' r'' ?_
    rw [eachRun, hx]
    show (eachRun body k (i + 1) s' r' >>= _) = _
    rw [hxs]
    rfl
  · rintro ⟨h, hrest⟩ k hk xs s' r' hxs
    cases k with
    | zero =>
      cases hxs
      exact h
    | succ k =>
      rw [eachRun] at hxs
      rcases hx : body i s r with e | ⟨x, s₁, r₁⟩
      · rw [hx] at hxs
        cases hxs
      · rw [hx] at hxs
        change (eachRun body k (i + 1) s₁ r₁ >>= _) = _ at hxs
        rcases hys : eachRun body k (i + 1) s₁ r₁ with e | ⟨ys, s₂, r₂⟩
        · rw [hys] at hxs
          cases hxs
        · rw [hys] at hxs
          cases hxs
          rw [← Nat.add_assoc, Nat.add_right_comm]
          exact hrest x s₁ r₁ hx k (Nat.lt_of_succ_lt_succ hk) ys _ _ hys

variable (hok : ∀ i s (r : SliceReader), r.pos ≤ r.bytes.1.length → Fits i s r.rest → Agree SameRun (checked i s r) (body i s r.rest))
include hok

theorem agree_eachRun {n i : ℕ} {s : σ} {r : SliceReader} (hr : r.pos ≤ r.bytes.1.length) (h : AllFit body Fits n i s r.rest) :
    Agree SameRun (eachRun checked n i s r) (eachRun body n i s r.rest) := by
  induction n generalizing i s r with
  | zero => exact ⟨rfl, rfl, rfl, hr⟩
  | succ n ih =>
    obtain ⟨hfit, hrest⟩ := allFit_succ.mp h
    refine (hok i s r hr hfit).bind ?_
    rintro ⟨x, s₁, r₁⟩ ⟨-, -, -⟩ hx ⟨rfl, ⟨rfl, rfl, hr₁⟩⟩
    refine (ih hr₁ (hrest x s₁ r₁.rest hx)).bind ?_
    rintro ⟨xs, s₂, r₂⟩ ⟨-, -, -⟩ - ⟨rfl, ⟨rfl, rfl, hr₂⟩⟩
    exact ⟨rfl, rfl, rfl, hr₂⟩

theorem eachRun_overflow (hbad : ∀ i s (r : SliceReader), r.pos ≤ r.bytes.1.length → ¬ Fits i s r.rest → checked i s r = .error .overflow)
    {n i : ℕ} {s : σ} {r : SliceReader} (hr : r.pos ≤ r.bytes.1.length) (h : ¬ AllFit body Fits n i s r.rest) :
    eachRun checked n i s r = .error .overflow := by
  induction n generalizing i s r with
  | zero => exact absurd (fun k hk ↦ absurd hk (Nat.not_lt_zero k)) h
  | succ n ih =>
    rw [allFit_succ, not_and_or] at h
    by_cases hfit : Fits i s r.rest
    · have hrest := h.resolve_left (not_not_intro hfit)
      simp only [not_forall] at hrest
      obtain ⟨x, s₁, r₁, hx, hrest⟩ := hrest
      obtain ⟨⟨x', s', q⟩, hq, hsame, ⟨hs, rfl, hq'⟩⟩ := (hok i s r hr hfit).ok hx
      cases (hs : s' = s₁)
      rw [eachRun, hq]
      exact SliceReader.bind_overflow (ih hq' hrest) _
    · exact SliceReader.bind_overflow (hbad i s r hr hfit) _

end

/-! ### Decoding -/

/-- No delta of the line runs takes the line before past the largest `i64`. -/
def LinesFit (lines : List UInt8) (files : ℕ) : Prop :=
  ∀ len r n r', Reader.u32 lines = .ok (len, r) → r.count = .ok (n, r') →
    AllFit (Reader.lineBody files len) (DeltaFits files len) n 0 (0, 0) r'

/-- No delta of the span runs takes the start before past the largest `i64`. -/
def SpansFit (len? : Option UInt32) (spans : List UInt8) (files : ℕ) : Prop :=
  ∀ len r n r', Reader.u32 spans = .ok (len, r) → (∀ l ∈ len?, len = l) → r.count = .ok (n, r') →
    AllFit (Reader.spanBody files len) (DeltaFits files len) n 0 (0, 0) r'

/-- **Whenever a number of runs decode, the delta of the next one fits.** -/
def DeltasFit (lines spans : List UInt8) (files : ℕ) : Prop :=
  LinesFit lines files ∧ ∀ len? rs, decodeLines lines files = .ok (len?, rs) → SpansFit len? spans files

theorem rest_new (b : Slice) : (SliceReader.new b).rest = b.1 := List.drop_zero

theorem pos_new (b : Slice) : (SliceReader.new b).pos ≤ (SliceReader.new b).bytes.1.length := Nat.zero_le _

theorem agree_finish {r : SliceReader} (hr : r.pos ≤ r.bytes.1.length) : Agree Eq r.finish (Reader.finish r.rest) := by
  have hrest : r.rest = [] ↔ r.pos = r.bytes.1.length := by
    rw [SliceReader.rest, List.drop_eq_nil_iff]
    omega
  rw [SliceReader.finish, Reader.finish]
  simp only [hrest]
  exact Agree.ite (fun _ ↦ rfl) fun _ ↦ rfl

/-- The runs of a table and the end of its bytes. -/
theorem agree_runs {α : Type} {checked : ℕ → UInt32 × UInt32 → SliceReader → Except Fault (α × (UInt32 × UInt32) × SliceReader)}
    {body : ℕ → UInt32 × UInt32 → Reader → Except LineTableError (α × (UInt32 × UInt32) × Reader)}
    {Fits : ℕ → UInt32 × UInt32 → Reader → Prop}
    (hok : ∀ i s (r : SliceReader), r.pos ≤ r.bytes.1.length → Fits i s r.rest → Agree SameRun (checked i s r) (body i s r.rest))
    {n : ℕ} {r : SliceReader} (hr : r.pos ≤ r.bytes.1.length) (h : AllFit body Fits n 0 (0, 0) r.rest) (len : UInt32) :
    Agree Eq (eachRun checked n 0 (0, 0) r >>= fun x ↦ x.2.2.finish >>= fun _ ↦ .ok (some len, x.1))
      ((eachRun body n 0 (0, 0) r.rest).map (fun x ↦ (x.1, x.2.2)) >>= fun x ↦ Reader.finish x.2 >>= fun _ ↦ .ok (some len, x.1)) := by
  have hruns := agree_eachRun hok hr h
  revert hruns
  rcases eachRun body n 0 (0, 0) r.rest with e | ⟨xs, s, r'⟩ <;>
    rcases eachRun checked n 0 (0, 0) r with (_ | e') | ⟨ys, s', r''⟩ <;> intro hruns
  · exact hruns.elim
  · exact hruns
  · exact hruns.elim
  · exact hruns.elim
  · exact hruns.elim
  · obtain ⟨hxs, -, hrest, hpos⟩ := hruns
    cases (hxs : ys = xs)
    cases (hrest : r''.rest = r')
    exact (agree_finish hpos).bind fun _ _ _ _ ↦ rfl

theorem agree_decodeLines {lines : Slice} {files : ℕ} (h : LinesFit lines.1 files) :
    Agree Eq (decodeLinesChecked lines files) (decodeLines lines.1 files) := by
  refine Agree.ite (fun _ ↦ rfl) fun _ ↦ ?_
  refine ((rest_new lines) ▸ SliceReader.agree_u32 (pos_new lines)).bind ?_
  rintro ⟨len, r₁⟩ ⟨-, -⟩ hlen ⟨rfl, rfl, hr₁⟩
  refine (SliceReader.agree_count hr₁).bind ?_
  rintro ⟨n, r₂⟩ ⟨-, -⟩ hn ⟨rfl, rfl, hr₂⟩
  dsimp only
  rw [Reader.lineRuns_eq]
  exact agree_runs (SliceReader.agree_lineBody files len) hr₂ (h _ _ _ _ hlen hn) len

theorem agree_decodeSpans {len? : Option UInt32} {spans : Slice} {files : ℕ} (h : SpansFit len? spans.1 files) :
    Agree Eq (decodeSpansChecked len? spans files) (decodeSpans len? spans.1 files) := by
  refine Agree.ite (fun _ ↦ rfl) fun _ ↦ ?_
  refine ((rest_new spans) ▸ SliceReader.agree_u32 (pos_new spans)).bind ?_
  rintro ⟨len, r₁⟩ ⟨-, -⟩ hlen ⟨rfl, rfl, hr₁⟩
  refine Agree.ite (fun _ ↦ rfl) fun hsame ↦ ?_
  refine (SliceReader.agree_count hr₁).bind ?_
  rintro ⟨n, r₂⟩ ⟨-, -⟩ hn ⟨rfl, rfl, hr₂⟩
  dsimp only
  rw [Reader.spanRuns_eq]
  refine agree_runs (SliceReader.agree_spanBody files len) hr₂ (h _ _ _ _ hlen (fun l hl ↦ ?_) hn) len
  exact Classical.not_not.mp fun hne ↦ hsame ⟨l, hl, hne⟩

/-- The header of a table, read by both readers. -/
theorem header_ok {b : Slice} {len : UInt32} {r : Reader} {n : ℕ} {r' : Reader} (hlen : Reader.u32 b.1 = .ok (len, r))
    (hn : r.count = .ok (n, r')) : b.1 ≠ [] ∧ ∃ q q', (SliceReader.new b).u32 = .ok (len, q) ∧ q.count = .ok (n, q') ∧
      q'.rest = r' ∧ q'.pos ≤ q'.bytes.1.length := by
  refine ⟨fun hnil ↦ (by rw [hnil] at hlen; cases hlen), ?_⟩
  obtain ⟨⟨len', q⟩, hq, hsame, rfl, hpos⟩ := (rest_new b ▸ SliceReader.agree_u32 (pos_new b)).ok hlen
  cases (hsame : len' = len)
  obtain ⟨⟨n', q'⟩, hq', hsame', hrest, hpos'⟩ := (SliceReader.agree_count hpos).ok hn
  cases (hsame' : n' = n)
  exact ⟨q, q', hq, hq', hrest, hpos'⟩

theorem decodeLinesChecked_overflow {lines : Slice} {files : ℕ} (h : ¬ LinesFit lines.1 files) :
    decodeLinesChecked lines files = .error .overflow := by
  simp only [LinesFit, not_forall] at h
  obtain ⟨len, r, n, r', hlen, hn, h⟩ := h
  obtain ⟨hne, q, q', hq, hq', rfl, hpos⟩ := header_ok hlen hn
  have hloop := eachRun_overflow (SliceReader.agree_lineBody files len) (SliceReader.lineBody_overflow files len) hpos h
  rw [decodeLinesChecked, if_neg hne, hq]
  show (q.count >>= _) = _
  rw [hq']
  exact SliceReader.bind_overflow hloop _

theorem decodeSpansChecked_overflow {len? : Option UInt32} {spans : Slice} {files : ℕ} (h : ¬ SpansFit len? spans.1 files) :
    decodeSpansChecked len? spans files = .error .overflow := by
  simp only [SpansFit, not_forall] at h
  obtain ⟨len, r, n, r', hlen, hsame, hn, h⟩ := h
  obtain ⟨hne, q, q', hq, hq', rfl, hpos⟩ := header_ok hlen hn
  have hloop := eachRun_overflow (SliceReader.agree_spanBody files len) (SliceReader.spanBody_overflow files len) hpos h
  have hlens : ¬ ∃ l ∈ len?, len ≠ l := fun ⟨l, hl, hne⟩ ↦ hne (hsame l hl)
  rw [decodeSpansChecked, if_neg hne, hq]
  show (if _ then _ else q.count >>= _) = _
  rw [if_neg hlens, hq']
  exact SliceReader.bind_overflow hloop _

theorem agree_decode {lines spans : Slice} {files : ℕ} (h : DeltasFit lines.1 spans.1 files) :
    Agree Eq (decodeChecked lines spans files) (decode lines.1 spans.1 files) := by
  refine (agree_decodeLines h.1).bind ?_
  rintro ⟨len?, rs⟩ - hlines rfl
  refine (agree_decodeSpans (h.2 len? rs hlines)).bind ?_
  rintro ⟨len?', rs'⟩ - - rfl
  exact rfl

theorem decodeChecked_overflow {lines spans : Slice} {files : ℕ} (h : ¬ DeltasFit lines.1 spans.1 files) :
    decodeChecked lines spans files = .error .overflow := by
  by_cases hlines : LinesFit lines.1 files
  · have hspans := (not_and.mp h) hlines
    simp only [not_forall] at hspans
    obtain ⟨len?, rs, hdec, hspans⟩ := hspans
    obtain ⟨-, hx, rfl⟩ := (agree_decodeLines hlines).ok hdec
    rw [decodeChecked, hx]
    exact SliceReader.bind_overflow (decodeSpansChecked_overflow hspans) _
  · exact SliceReader.bind_overflow (decodeLinesChecked_overflow hlines) _

end CoilLang.LineTable
