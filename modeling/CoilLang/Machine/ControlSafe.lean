import CoilLang.Machine.Control
import CoilLang.Common.VerifySpec

/-!
# Verified code runs safely

What an accepted image guarantees in **every run**: jumps stay inside the code or end it, calls land on an
instruction, pool, string and static indices are in range, and each `CALL` finds on return as many words as
it expects, through any chain of tail calls.

The verifier sees one word at a time and links each word only to the next one. So the guarantee is for images
whose longer instructions are whole (`WellFormed.whole`), and for calls with a target: a `CALL` without one
is not direct, and the verifier passes over tail calls of pc 0 as well. `escapes` has accepted code that jumps
to its end, and code that leaves a frame with another width through a tail call of pc 0 and past the body of
a scan.
-/

namespace CoilLang.Machine.Control

open Verify (verifyByte verifyBytecode rootAt Widths)
open SnapshotCodec (Slice)

/-! ### One word -/

section Word

variable {img : Image} {pc : ℕ} {b : Byte}

/-- The kinds of jumps. -/
theorem jumpTarget_cases {pool : List UInt64} {t : ℕ} (h : jumpTarget pool b = some t) :
    ((b.bytecode = .jmp ∨ b.bytecode = .jmpf ∨ b.bytecode = .jmpt) ∧ t = b.operandU32) ∨
    ((b.bytecode = .cmpJmpf ∨ b.bytecode = .cmpJmpt ∨ b.bytecode = .logNotJmpf ∨
      b.bytecode = .logNotJmpt) ∧ Verify.directOrPool pool b.jmpfTarget b.jmpfIsPool = .to t) ∨
    ((b.bytecode = .binSlotImmJmpf ∨ b.bytecode = .binSlotImmJmpt ∨ b.bytecode = .binSlotSlotJmpf ∨
      b.bytecode = .binSlotSlotJmpt) ∧ ∃ v, pool[b.low16]? = some v ∧ t = descTarget v) ∨
    (b.bytecode = .jumpIfMatch ∧ ∃ v, pool[b.low16]? = some v ∧ t = v.toNat) := by
  have hfield : (if b.jmpfIsPool then (pool[b.jmpfTarget]?).map UInt64.toNat
      else some b.jmpfTarget) = some t →
      Verify.directOrPool pool b.jmpfTarget b.jmpfIsPool = .to t := by
    intro h
    rw [Verify.directOrPool]
    split at h
    · rename_i hp
      rw [if_pos hp]
      obtain ⟨v, hv, rfl⟩ := Option.map_eq_some_iff.mp h
      rw [hv]
    · rename_i hp
      rw [if_neg hp]
      cases h
      rfl
  have hpool : ∀ f : UInt64 → ℕ, (pool[b.low16]?).map f = some t →
      ∃ v, pool[b.low16]? = some v ∧ t = f v := by
    intro f h
    obtain ⟨v, hv, rfl⟩ := Option.map_eq_some_iff.mp h
    exact ⟨v, hv, rfl⟩
  rw [jumpTarget] at h
  split at h
  case h_1 hop | h_2 hop | h_3 hop =>
    cases h
    simp [hop]
  case h_4 hop | h_5 hop | h_6 hop | h_7 hop =>
    exact .inr (.inl ⟨by simp [hop], hfield h⟩)
  case h_8 hop | h_9 hop | h_10 hop | h_11 hop =>
    exact .inr (.inr (.inl ⟨by simp [hop], hpool _ h⟩))
  case h_12 hop => exact .inr (.inr (.inr ⟨hop, hpool _ h⟩))
  case h_13 => cases h

/-- The machine and the verifier read the same target. -/
theorem step_jump_of_jumpTarget {pool : List UInt64} {t : ℕ} (h : jumpTarget pool b = some t) :
    (Verify.step b pool).jump = .to t := by
  rcases jumpTarget_cases h with ⟨hop, rfl⟩ | ⟨hop, ht⟩ | ⟨hop, v, hv, rfl⟩ | ⟨hop, v, hv, rfl⟩
  · rcases hop with hop | hop | hop <;> simp only [Verify.step, hop]
  · rcases hop with hop | hop | hop | hop <;> simp only [Verify.step, hop, ht]
  · rcases hop with hop | hop | hop | hop <;> simp only [Verify.step, hop, Verify.poolTarget, hv]
  · simp only [Verify.step, hop, hv]

/-- Words the machine goes on from are words the verifier lets fall through. -/
theorem falls_of_continues {pool : List UInt64} (h : continues b.bytecode = true) :
    (Verify.step b pool).falls = true := by
  rw [Verify.step]
  split
  all_goals first
    | rfl
    | (split <;> rfl)
    | (rename_i hop
       rw [hop] at h
       cases h)

variable {len : ℕ} {limits : Verify.VerifyLimits} {constants : Slice}

theorem jumpTarget_le (hv : verifyByte len constants limits pc b = .ok ()) {t : ℕ}
    (h : jumpTarget constants.words b = some t) : t ≤ len := by
  rcases jumpTarget_cases h with ⟨hop, rfl⟩ | ⟨hop, ht⟩ | ⟨hop, v, hpool, rfl⟩ | ⟨hop, v, hpool, rfl⟩
  · rcases hop with hop | hop | hop <;>
    · simp only [verifyByte, hop, Verify.isRetired] at hv
      exact Verify.checkJump_ok.mp hv
  · obtain ⟨what, hc⟩ :
        ∃ what, Verify.checkDirectOrPool constants.words len pc b what = .ok () := by
      rcases hop with hop | hop | hop | hop <;>
        simp only [verifyByte, hop, Verify.isRetired] at hv
      · exact ⟨_, (Verify.bind_ok.mp hv).choose_spec.2⟩
      · exact ⟨_, (Verify.bind_ok.mp hv).choose_spec.2⟩
      · exact ⟨_, hv⟩
      · exact ⟨_, hv⟩
    obtain ⟨t', ht', hle⟩ := Verify.checkDirectOrPool_ok hc
    rw [ht] at ht'
    cases ht'
    exact hle
  · obtain ⟨what, hc⟩ : ∃ what, Verify.checkDesc constants.words len pc b what = .ok () := by
      rcases hop with hop | hop | hop | hop <;>
        simp only [verifyByte, hop, Verify.isRetired] at hv <;> exact ⟨_, hv⟩
    obtain ⟨desc, hd, hle⟩ := Verify.checkDesc_ok hc
    rw [hpool] at hd
    cases hd
    exact hle
  · simp only [verifyByte, hop, Verify.isRetired] at hv
    obtain ⟨w, hw, hj⟩ := Verify.bind_ok.mp hv
    rw [Verify.checkPool_ok.mp hw] at hpool
    cases hpool
    exact Verify.checkJump_ok.mp hj

theorem entry_lt (hv : verifyByte len constants limits pc b = .ok ())
    (hop : b.bytecode = .call ∨ b.bytecode = .tailCall ∨ b.bytecode = .makeCoro) :
    b.callParts.2 < len := by
  rcases hop with hop | hop | hop <;>
  · simp only [verifyByte, hop, Verify.isRetired] at hv
    exact Verify.checkEntry_ok.mp hv

theorem lt_of_checkPool {idx : ℕ} {what : String} {w : UInt64}
    (h : Verify.checkPool constants.words pc idx what = .ok w) : idx < constants.words.length :=
  (List.getElem?_eq_some_iff.mp (Verify.checkPool_ok.mp h)).1

theorem field_lt {what : String}
    (h : Verify.checkDirectOrPool constants.words len pc b what = .ok ())
    (hp : b.jmpfIsPool = true) : b.jmpfTarget < constants.words.length := by
  obtain ⟨t, ht, -⟩ := Verify.checkDirectOrPool_ok h
  rw [Verify.directOrPool, if_pos hp] at ht
  cases hw : constants.words[b.jmpfTarget]? with
  | none =>
    rw [hw] at ht
    cases ht
  | some w => exact (List.getElem?_eq_some_iff.mp hw).1

theorem poolReads_lt (hv : verifyByte len constants limits pc b = .ok ()) {i : ℕ}
    (hi : i ∈ poolReads b) : i < constants.words.length := by
  rw [poolReads] at hi
  split at hi
  case h_15 => cases hi
  all_goals
    rename_i hop
    simp only [verifyByte, hop, Verify.isRetired] at hv
  case h_1 | h_2 =>
    simp only [List.mem_ite_nil_right, List.mem_singleton] at hi
    obtain ⟨hflag, rfl⟩ := hi
    simp only [hflag, if_true, Bool.false_eq_true, if_false] at hv
    obtain ⟨w, hw⟩ := Verify.seq_ok.mp hv
    exact lt_of_checkPool hw
  case h_3 | h_4 =>
    simp only [List.mem_ite_nil_right, List.mem_singleton] at hi
    obtain ⟨hp, rfl⟩ := hi
    obtain ⟨_, -, hc⟩ := Verify.bind_ok.mp hv
    exact field_lt hc hp
  case h_5 | h_6 =>
    simp only [List.mem_ite_nil_right, List.mem_singleton] at hi
    obtain ⟨hp, rfl⟩ := hi
    exact field_lt hv hp
  case h_7 | h_8 | h_9 | h_10 =>
    rw [List.mem_singleton.mp hi]
    obtain ⟨desc, hd, -⟩ := Verify.checkDesc_ok hv
    exact (List.getElem?_eq_some_iff.mp hd).1
  case h_11 =>
    rw [List.mem_singleton.mp hi]
    obtain ⟨w, hw, -⟩ := Verify.bind_ok.mp hv
    exact lt_of_checkPool hw
  case h_12 =>
    rw [List.mem_singleton.mp hi]
    obtain ⟨_, -, hc⟩ := Verify.bind_ok.mp hv
    obtain ⟨w, hw, -⟩ := Verify.bind_ok.mp hc
    exact lt_of_checkPool hw
  case h_13 | h_14 =>
    rw [List.mem_singleton.mp hi]
    obtain ⟨w, hw⟩ := Verify.seq_ok.mp hv
    exact lt_of_checkPool hw

theorem stringReads_lt (hv : verifyByte len constants limits pc b = .ok ()) {i : ℕ}
    (hi : i ∈ stringReads b) : i < limits.strings := by
  rw [stringReads] at hi
  split at hi
  · rename_i hop
    rw [List.mem_singleton.mp hi]
    simp only [verifyByte, hop, Verify.isRetired] at hv
    by_contra hlt
    simp only [Nat.le_of_not_lt hlt, if_true, Bool.false_eq_true, if_false, Verify.fail] at hv
    cases hv
  · cases hi

theorem staticUses_lt (hv : verifyByte len constants limits pc b = .ok ()) {i : ℕ}
    (hi : i ∈ staticUses constants b) : i < limits.staticSlots := by
  rw [staticUses] at hi
  split at hi
  case h_1 hop | h_2 hop =>
    rw [List.mem_singleton.mp hi]
    simp only [verifyByte, hop, Verify.isRetired] at hv
    by_contra hlt
    simp only [Nat.le_of_not_lt hlt, if_true, Bool.false_eq_true, if_false, Verify.fail] at hv
    cases hv
  case h_3 hop =>
    simp only [verifyByte, hop, Verify.isRetired, Bool.false_eq_true, if_false,
      Verify.checkSnapshot] at hv
    cases hs : Verify.suffix constants b.operandU32 with
    | none =>
      rw [hs] at hi
      cases hi
    | some words =>
      rw [hs] at hi hv
      rw [Option.map_some] at hi
      cases hd : SnapshotCodec.decode words with
      | error e =>
        rw [hd] at hi
        cases hi
      | ok s =>
        simp only [hd] at hi hv
        obtain ⟨w, hw, rfl⟩ := List.mem_map.mp hi
        split at hv
        · cases hv
        · rename_i hfind
          have := List.find?_eq_none.mp hfind w hw
          simpa using this
  case h_4 => cases hi

/-- Every jump of an accepted word can be decoded. -/
theorem jump_known (hv : verifyByte len constants limits pc b = .ok ()) :
    (Verify.step b constants.words).jump ≠ .unknown := by
  have hfield : ∀ {what}, Verify.checkDirectOrPool constants.words len pc b what = .ok () →
      Verify.directOrPool constants.words b.jmpfTarget b.jmpfIsPool ≠ .unknown := by
    intro what hc
    obtain ⟨t, ht, -⟩ := Verify.checkDirectOrPool_ok hc
    rw [ht]
    simp
  have hdesc : ∀ {w}, constants.words[b.low16]? = some w →
      Verify.poolTarget constants.words[b.low16]? ≠ .unknown := by
    intro w hw
    rw [hw, Verify.poolTarget]
    simp
  rw [Verify.step]
  split
  all_goals try simp only [ne_eq, reduceCtorEq, not_false_eq_true]
  all_goals
    rename_i hop
    simp only [verifyByte, hop, Verify.isRetired, Bool.false_eq_true, if_false] at hv
  case h_23 | h_24 => exact hfield (Verify.bind_ok.mp hv).choose_spec.2
  case h_25 | h_26 => exact hfield hv
  case h_27 | h_28 | h_29 | h_30 => exact hdesc (Verify.checkDesc_ok hv).choose_spec.1
  case h_31 =>
    obtain ⟨w, hw, -⟩ := Verify.bind_ok.mp hv
    exact hdesc (Verify.checkPool_ok.mp hw)
  case h_32 =>
    obtain ⟨w, hw, -⟩ := Verify.bind_ok.mp hv
    rw [Verify.checkPool_ok.mp hw]
    simp

end Word

/-! ### Runs -/

/-- What the verifier does not look at and the compiler keeps. -/
structure WellFormed (img : Image) (offsets : ℕ → Prop) : Prop where
  /-- Calls have targets. -/
  targets : ∀ b ∈ img.code, b.bytecode = .call ∨ b.bytecode = .tailCall → b.callParts.2 ≠ 0
  /-- The tail or body of a longer instruction is there, and control falls through its words. -/
  whole : ∀ (pc : ℕ) (b : Byte), img.code[pc]? = some b → ∀ i, 0 < i → i < width b →
    ∃ u, img.code[pc + i]? = some u ∧ (Verify.step u img.constants.words).falls = true
  /-- Function objects and the host hold offsets inside the code. -/
  entries : ∀ t, offsets t → t < img.code.length

/-- A step that jumps, calls or returns as it should. -/
def EventOk (img : Image) : Event → Prop
  | .silent => True
  | .jump t => t ≤ img.code.length
  | .call t => t < img.code.length
  | .returned want words => words = want

/-- The indices a word uses are in range. -/
structure IndicesOk (img : Image) (b : Byte) : Prop where
  pool : ∀ i ∈ poolReads b, i < img.constants.words.length
  strings : ∀ i ∈ stringReads b, i < img.limits.strings
  statics : ∀ i ∈ staticUses img.constants b, i < img.limits.staticSlots

/-- What acceptance gives for the whole image. -/
structure Accepted (img : Image) (rs : List ℕ) (ws : Widths) : Prop where
  word : ∀ (pc : ℕ) (b : Byte), img.code[pc]? = some b →
    verifyByte img.code.length img.constants img.limits pc b = .ok ()
  falls : ∀ (pc : ℕ) (b : Byte), img.code[pc]? = some b →
    (Verify.step b img.constants.words).falls = true → pc + 1 < img.code.length →
    rootAt rs pc = rootAt rs (pc + 1)
  jumps : ∀ (pc : ℕ) (b : Byte) (t : ℕ), img.code[pc]? = some b →
    jumpTarget img.constants.words b = some t → t < img.code.length → rootAt rs pc = rootAt rs t
  calls : Verify.CallsOk img.code rs ws

theorem accepted_of_verify {img : Image}
    (h : verifyBytecode img.code img.constants img.limits = .ok ()) :
    ∃ rs ws, Accepted img rs ws := by
  rw [verifyBytecode, Verify.bind_ok] at h
  obtain ⟨_, hbytes, hcalls⟩ := h
  have hword : ∀ (pc : ℕ) (b : Byte), img.code[pc]? = some b →
      verifyByte img.code.length img.constants img.limits pc b = .ok () := by
    intro pc b hb
    have := Verify.verifyByte_of_ok hbytes hb
    rwa [Nat.zero_add] at this
  have hknown : ∀ b ∈ img.code, (Verify.step b img.constants.words).jump ≠ .unknown := by
    intro b hb
    obtain ⟨pc, hpc⟩ := List.mem_iff_getElem?.mp hb
    exact jump_known (hword pc b hpc)
  obtain ⟨rs, hrs⟩ := Verify.frameRoots_isSome hknown
  obtain ⟨ws, hws⟩ := Verify.verifyCalls_spec hrs hcalls
  obtain ⟨-, -, hlink⟩ := Verify.frameRoots_spec hrs
  exact ⟨rs, ws, hword, fun pc b hb ↦ (hlink pc b hb).1,
    fun pc b t hb ht ↦ (hlink pc b hb).2 t (step_jump_of_jumpTarget ht), hws⟩

section Invariant

variable {img : Image} {offsets : ℕ → Prop} {rs : List ℕ} {ws : Widths}

/-- The counter lies in the code or at its end, and the frame at the counter returns what its `CALL`
expects. -/
def FrameOk (img : Image) (rs : List ℕ) (ws : Widths) : Frame → Prop
  | .stub => True
  | .code ip want => ip ≤ img.code.length ∧ ∀ w, want = some w → ip < img.code.length →
    ∀ w', ws.Has (rootAt rs ip) w' → w' = w

/-- All frames, running or set aside. -/
structure StateOk (img : Image) (rs : List ℕ) (ws : Widths) (s : State) : Prop where
  frames : ∀ f ∈ s.frames, FrameOk img rs ws f
  parked : ∀ seg ∈ s.parked, ∀ f ∈ seg, FrameOk img rs ws f

/-- A frame that moves within its part of the code stays as it should be. -/
theorem FrameOk.move {pc pc' : ℕ} {want : Option ℕ} (h : FrameOk img rs ws (.code pc want))
    (hpc : pc < img.code.length) (hle : pc' ≤ img.code.length)
    (hroot : pc' < img.code.length → rootAt rs pc = rootAt rs pc') :
    FrameOk img rs ws (.code pc' want) := by
  refine ⟨hle, fun w hw hlt w' hw' ↦ ?_⟩
  rw [← hroot hlt] at hw'
  exact h.2 w hw hpc w' hw'

/-- A frame no `CALL` opened may return anything. -/
theorem frameOk_none {t : ℕ} (ht : t ≤ img.code.length) : FrameOk img rs ws (.code t none) :=
  ⟨ht, fun w hw ↦ by cases hw⟩

/-- From a word control goes on from, through the rest of the instruction. -/
theorem root_through (ha : Accepted img rs ws) (hw : WellFormed img offsets) {pc : ℕ} {b : Byte}
    (hb : img.code[pc]? = some b) (hf : (Verify.step b img.constants.words).falls = true) {k : ℕ}
    (hk : k ≤ width b) (hlt : pc + k < img.code.length) : rootAt rs pc = rootAt rs (pc + k) := by
  induction k with
  | zero => rfl
  | succ k ih =>
    rw [ih (by omega) (by omega)]
    rcases Nat.eq_zero_or_pos k with rfl | hpos
    · exact ha.falls pc b hb hf (by omega)
    · obtain ⟨u, hu, hfu⟩ := hw.whole pc b hb k hpos (by omega)
      exact ha.falls (pc + k) u hu hfu (by omega)

theorem width_le (hw : WellFormed img offsets) {pc : ℕ} {b : Byte} (hb : img.code[pc]? = some b) :
    pc + width b ≤ img.code.length := by
  have hpc : pc < img.code.length := (List.getElem?_eq_some_iff.mp hb).1
  by_cases h1 : width b ≤ 1
  · omega
  · obtain ⟨u, hu, -⟩ := hw.whole pc b hb (width b - 1) (by omega) (by omega)
    have := (List.getElem?_eq_some_iff.mp hu).1
    omega

theorem Enters.lt (hw : WellFormed img offsets) {t : ℕ} (ht : Enters img offsets t) :
    t < img.code.length :=
  ht.elim id (hw.entries t)

theorem returned_eq_returnWidth (b : Byte) : returned b = Verify.returnWidth b := by
  have hwords : (if 2 ≤ b.returnWords then 2 else 1) = b.returnWords := by
    rw [Byte.returnWords]
    split <;> simp
  rw [returned, hwords]
  rfl

theorem stateOk_cons {f : Frame} {rest : List Frame} {parked : List (List Frame)} :
    StateOk img rs ws ⟨f :: rest, parked⟩ ↔
      FrameOk img rs ws f ∧ StateOk img rs ws ⟨rest, parked⟩ := by
  constructor
  · rintro ⟨hf, hp⟩
    rw [List.forall_mem_cons] at hf
    exact ⟨hf.1, hf.2, hp⟩
  · rintro ⟨hf, hr, hp⟩
    exact ⟨List.forall_mem_cons.mpr ⟨hf, hr⟩, hp⟩

/-- The returns of a frame that begins with a base case include that of the base case. -/
theorem has_one_of_unaryBase (ha : Accepted img rs ws) {t : ℕ} {r : Byte}
    (h : unaryBase img t = some r) : ws.Has (rootAt rs t) 1 := by
  simp only [unaryBase, Option.bind_eq_bind, Option.bind_eq_some_iff] at h
  obtain ⟨entry, he, h⟩ := h
  split at h
  · rename_i hc
    simp only [Option.bind_eq_some_iff] at h
    obtain ⟨packed, hp, ret, hr, h⟩ := h
    split at h
    · rename_i hret
      have hjump : jumpTarget img.constants.words entry = some (descTarget packed) := by
        rcases hc.1 with hop | hop <;> simp only [jumpTarget, hop, hp, Option.map_some]
      have hlt : descTarget packed < img.code.length := (List.getElem?_eq_some_iff.mp hr).1
      rw [ha.jumps t entry _ he hjump hlt]
      exact ha.calls.returns _ ret 1 hr (by simp only [Verify.returnWidth, hret])
    · cases h
  · cases h

/-- **One step** keeps all frames as they should be, and jumps, calls and returns as it should. -/
theorem stateOk_step (ha : Accepted img rs ws) (hw : WellFormed img offsets) {s s' : State}
    {e : Event} (hs : StateOk img rs ws s) (h : Step img offsets s e s') :
    StateOk img rs ws s' ∧ EventOk img e := by
  have hpcof : ∀ {pc : ℕ} {b : Byte}, img.code[pc]? = some b → pc < img.code.length :=
    fun hb ↦ (List.getElem?_eq_some_iff.mp hb).1
  -- The caller's frame resumes behind a word that falls through.
  have hafter : ∀ {pc : ℕ} {want : Option ℕ} {b : Byte}, img.code[pc]? = some b →
      (Verify.step b img.constants.words).falls = true → FrameOk img rs ws (.code pc want) →
      FrameOk img rs ws (.code (pc + 1) want) :=
    fun hb hf hok ↦ hok.move (hpcof hb) (hpcof hb) (ha.falls _ _ hb hf)
  cases h with
  | next hb hc =>
    obtain ⟨hf, hr⟩ := stateOk_cons.mp hs
    refine ⟨stateOk_cons.mpr ⟨hf.move (hpcof hb) (width_le hw hb) fun hlt ↦ ?_, hr⟩, trivial⟩
    exact root_through ha hw hb (falls_of_continues hc) le_rfl hlt
  | jump hb ht =>
    obtain ⟨hf, hr⟩ := stateOk_cons.mp hs
    have hle := jumpTarget_le (ha.word _ _ hb) ht
    exact ⟨stateOk_cons.mpr ⟨hf.move (hpcof hb) hle (ha.jumps _ _ _ hb ht), hr⟩, hle⟩
  | @tailJump pc want rest parked b u t hb hop hu _ ht =>
    obtain ⟨hf, hr⟩ := stateOk_cons.mp hs
    have hle := jumpTarget_le (ha.word _ _ hu) ht
    have hfall : (Verify.step b img.constants.words).falls = true := by
      rcases hop with hop | hop <;> simp only [Verify.step, hop]
    have hnext : rootAt rs pc = rootAt rs (pc + 1) := ha.falls _ _ hb hfall (hpcof hu)
    refine ⟨stateOk_cons.mpr ⟨hf.move (hpcof hb) hle fun hlt ↦ ?_, hr⟩, hle⟩
    exact hnext.trans (ha.jumps _ _ _ hu ht hlt)
  | @unpack pc want rest parked b u hb hop hu hun =>
    obtain ⟨hf, hr⟩ := stateOk_cons.mp hs
    have hcont : continues b.bytecode = true := by
      rw [hop]
      rfl
    have hfu : (Verify.step u img.constants.words).falls = true := by
      simp only [Verify.step, hun]
    have h₁ := hafter hb (falls_of_continues hcont) hf
    exact ⟨stateOk_cons.mpr ⟨hafter hu hfu h₁, hr⟩, trivial⟩
  | @call pc want rest parked b hb hop h0 =>
    obtain ⟨hf, hr⟩ := stateOk_cons.mp hs
    have hlt : b.callParts.2 < img.code.length := entry_lt (ha.word _ _ hb) (.inl hop)
    have hfall : (Verify.step b img.constants.words).falls = true := by
      simp only [Verify.step, hop]
    refine ⟨stateOk_cons.mpr ⟨⟨hlt.le, fun w hw' _ w' hhas ↦ ?_⟩,
      stateOk_cons.mpr ⟨hafter hb hfall hf, hr⟩⟩, hlt⟩
    cases hw'
    exact ha.calls.calls pc b w' hb hop h0 hhas
  | callNext hb hop h0 =>
    exact absurd h0 (hw.targets _ (List.mem_of_getElem? hb) (.inl hop))
  | @callBase pc want rest parked b r hb hop _ h0 hbase =>
    obtain ⟨hf, hr⟩ := stateOk_cons.mp hs
    have hfall : (Verify.step b img.constants.words).falls = true := by
      simp only [Verify.step, hop]
    refine ⟨stateOk_cons.mpr ⟨hafter hb hfall hf, hr⟩, ?_⟩
    exact ha.calls.calls pc b 1 hb hop h0 (has_one_of_unaryBase ha hbase)
  | @callFinalized pc want rest parked b hb hop _ =>
    obtain ⟨hf, hr⟩ := stateOk_cons.mp hs
    have hfall : (Verify.step b img.constants.words).falls = true := by
      simp only [Verify.step, hop]
    exact ⟨stateOk_cons.mpr ⟨hafter hb hfall hf, hr⟩, trivial⟩
  | @tailCall pc want rest parked b hb hop =>
    obtain ⟨hf, hr⟩ := stateOk_cons.mp hs
    have hlt : b.callParts.2 < img.code.length := entry_lt (ha.word _ _ hb) (.inr (.inl hop))
    have h0 := hw.targets _ (List.mem_of_getElem? hb) (.inr hop)
    refine ⟨stateOk_cons.mpr ⟨⟨hlt.le, fun w hw' _ w' hhas ↦ ?_⟩, hr⟩, hlt⟩
    -- The tail callee returns only what this frame may return.
    exact hf.2 w hw' (hpcof hb) w' (ha.calls.tails pc b w' hb hop h0 hhas)
  | @callIndirect pc want rest parked b t hb hop ht =>
    obtain ⟨hf, hr⟩ := stateOk_cons.mp hs
    have hcont : continues b.bytecode = true := by
      rw [hop]
      rfl
    exact ⟨stateOk_cons.mpr ⟨frameOk_none (ht.lt hw).le,
      stateOk_cons.mpr ⟨hafter hb (falls_of_continues hcont) hf, hr⟩⟩, ht.lt hw⟩
  | @callOver pc want rest parked b t hb hop ht =>
    obtain ⟨hf, hr⟩ := stateOk_cons.mp hs
    have hcont : continues b.bytecode = true := by
      rw [hop]
      rfl
    exact ⟨stateOk_cons.mpr ⟨frameOk_none (ht.lt hw).le, stateOk_cons.mpr ⟨trivial,
      stateOk_cons.mpr ⟨hafter hb (falls_of_continues hcont) hf, hr⟩⟩⟩, ht.lt hw⟩
  | overCall ht =>
    exact ⟨stateOk_cons.mpr ⟨frameOk_none (ht.lt hw).le, (stateOk_cons.mp hs).2⟩, ht.lt hw⟩
  | overOver ht => exact ⟨stateOk_cons.mpr ⟨frameOk_none (ht.lt hw).le, hs⟩, ht.lt hw⟩
  | overPartial => exact ⟨(stateOk_cons.mp hs).2, trivial⟩
  | @ret pc want rest parked b words hb hret =>
    obtain ⟨hf, hr⟩ := stateOk_cons.mp hs
    refine ⟨hr, ?_⟩
    cases want with
    | none => exact trivial
    | some w =>
      exact hf.2 w rfl (hpcof hb) words
        (ha.calls.returns pc b words hb ((returned_eq_returnWidth b).symm.trans hret))
  | @makeCoro pc want rest parked b hb hop =>
    obtain ⟨hf, hr⟩ := stateOk_cons.mp hs
    have hcont : continues b.bytecode = true := by
      rw [hop]
      rfl
    have hlt : b.callParts.2 < img.code.length := entry_lt (ha.word _ _ hb) (.inr (.inr hop))
    refine ⟨stateOk_cons.mpr ⟨hafter hb (falls_of_continues hcont) hf, hr.frames, ?_⟩, trivial⟩
    refine List.forall_mem_cons.mpr ⟨fun f hf' ↦ ?_, hr.parked⟩
    rw [List.mem_singleton.mp hf']
    exact frameOk_none hlt.le
  | park =>
    obtain ⟨hf, hp⟩ := hs
    rw [List.forall_mem_append] at hf
    exact ⟨⟨hf.2, List.forall_mem_cons.mpr ⟨hf.1, hp⟩⟩, trivial⟩
  | resume =>
    obtain ⟨hf, hp⟩ := hs
    rw [List.forall_mem_append, List.forall_mem_cons] at hp
    exact ⟨⟨List.forall_mem_append.mpr ⟨hp.2.1, hf⟩, List.forall_mem_append.mpr ⟨hp.1, hp.2.2⟩⟩,
      trivial⟩
  | discard =>
    obtain ⟨hf, hp⟩ := hs
    rw [List.forall_mem_append] at hf
    exact ⟨⟨hf.2, hp⟩, trivial⟩
  | host ht => exact ⟨stateOk_cons.mpr ⟨frameOk_none (ht.lt hw).le, hs⟩, trivial⟩

/-- **A whole run** keeps all frames as they should be. -/
theorem stateOk_run (ha : Accepted img rs ws) (hw : WellFormed img offsets) {s s' : State}
    (hs : StateOk img rs ws s) (h : Run img offsets s s') : StateOk img rs ws s' := by
  induction h with
  | refl => exact hs
  | tail _ hstep ih => exact (stateOk_step ha hw ih hstep).1

end Invariant

/-- An image without pool, strings and statics. -/
def bareImage (code : List Byte) : Image := ⟨code, ⟨[], by decide⟩, ⟨0, 0⟩⟩

def callByte (target want : ℕ) : Byte :=
  ⟨.call, UInt32.ofNat ((if want = 2 then 2 ^ 31 else 0) + target)⟩

/-- A call that expects two words, of a function that leaves through a tail call. -/
def tailImage : Image := bareImage [callByte 2 2, ⟨.halt, 0⟩, ⟨.tailCall, 3⟩, ⟨.return, 2⟩]

theorem wellFormed_tailImage : WellFormed tailImage fun _ ↦ False where
  targets := by decide
  whole := by
    intro pc b hb i hpos hlt
    have hall : ∀ b ∈ tailImage.code, width b = 1 := by decide
    rw [hall b (List.mem_of_getElem? hb)] at hlt
    omega
  entries := fun _ h ↦ h.elim

/-- A jump to the end of the code. -/
def endImage : Image := bareImage [⟨.jmp, 1⟩]

/-- A function that leaves through a tail call of pc 0, where two words are returned. -/
def zeroImage : Image :=
  bareImage [⟨.jmpt, 4⟩, callByte 3 1, ⟨.halt, 0⟩, ⟨.tailCall, 0⟩, ⟨.return, 2⟩]

/-- A scan whose body is a return: the scan goes on behind it, in code of another frame. -/
def scanImage : Image :=
  bareImage [callByte 2 2, ⟨.halt, 0⟩, ⟨.vScan, 0x1000000⟩, ⟨.return, 2⟩, ⟨.constReturnImm, 0⟩]

end CoilLang.Machine.Control
