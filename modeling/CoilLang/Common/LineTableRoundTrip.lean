import CoilLang.Common.LineTableRuns

/-!
# Round trip of line tables

Every part of an encoded table is read back: varints, zigzag deltas, file codes, and with them the line runs
and the span runs. Reading span runs gives them back **exactly when they all start below the table's
length**, and is an error otherwise (`spanRuns_encode`), because the decoder checks each `pc` against it.

Together with the lookups of `LineTableRuns` this settles when a run table is as good as the dense table
it was made of (`fromDense_faithful_iff`): always, for tables of fewer than `2 ^ 32` slots. The length
of a longer table wraps, and what lies past the wrapped length is lost.
-/

namespace CoilLang.LineTable

/-! ### Zigzag -/

theorem and_one_eq (x : BitVec 64) : x &&& 1#64 = if x.getLsbD 0 then 1#64 else 0#64 := by
  refine BitVec.eq_of_getLsbD_eq fun i hi ↦ ?_
  rw [BitVec.getLsbD_and, BitVec.getLsbD_one]
  rcases Nat.eq_zero_or_pos i with rfl | hpos
  · cases x.getLsbD 0 <;> rfl
  · cases x.getLsbD 0 <;> simp [Nat.ne_of_gt hpos, BitVec.getLsbD_one]

theorem getLsbD_zigzag (b : BitVec 64) {i : ℕ} (hi : i < 64) :
    ((b <<< 1) ^^^ b.sshiftRight 63).getLsbD i =
      ((decide (0 < i) && b.getLsbD (i - 1)) ^^ b.msb) := by
  rw [BitVec.getLsbD_xor, BitVec.getLsbD_shiftLeft, BitVec.getLsbD_sshiftRight]
  rcases Nat.eq_zero_or_pos i with rfl | hpos
  · simp [BitVec.msb_eq_getLsbD_last]
  · have h63 : ¬(63 + i < 64) := by omega
    have h1 : ¬i < 1 := by omega
    have h64 : ¬64 ≤ i := by omega
    simp [h63, h1, hi, hpos, h64]

/-- The sign goes to the lowest bit and comes back from there. -/
theorem unzigzag_zigzag_bits (b : BitVec 64) :
    (((b <<< 1) ^^^ b.sshiftRight 63) >>> 1) ^^^ -(((b <<< 1) ^^^ b.sshiftRight 63) &&& 1#64) = b := by
  have hbit := fun i hi ↦ @getLsbD_zigzag b i hi
  generalize (b <<< 1) ^^^ b.sshiftRight 63 = x at hbit
  have hlow : x.getLsbD 0 = b.msb := by
    rw [hbit 0 (by decide)]
    simp
  rw [and_one_eq, hlow]
  refine BitVec.eq_of_getLsbD_eq fun i hi ↦ ?_
  have hneg : (-(if b.msb then 1#64 else 0#64)).getLsbD i = b.msb := by
    cases b.msb with
    | false => simp
    | true =>
      have hones : -(1#64) = BitVec.allOnes 64 := by decide
      rw [if_pos rfl, hones, BitVec.getLsbD_allOnes]
      exact decide_eq_true hi
  rw [BitVec.getLsbD_xor, BitVec.getLsbD_ushiftRight, hneg]
  rcases Nat.lt_or_ge (1 + i) 64 with hlt | hge
  · have hpos : 0 < 1 + i := by omega
    rw [hbit (1 + i) hlt, decide_eq_true hpos]
    simp
  · obtain rfl : i = 63 := by omega
    simp [BitVec.msb_eq_getLsbD_last]

theorem unzigzag_zigzag (v : Int64) : unzigzag (zigzag v) = v :=
  Int64.toBitVec_inj.1 (unzigzag_zigzag_bits v.toBitVec)

theorem applyDelta_delta (a b : UInt32) : applyDelta b (delta a b) = .ok a := by
  have hsum : b.toUInt64.toInt64 + delta a b = a.toUInt64.toInt64 := by
    rw [delta, Int64.add_comm, Int64.sub_add_cancel]
  have ha := a.toNat_lt
  have hint : a.toUInt64.toInt64.toInt = a.toNat := by
    have hnat : a.toUInt64.toBitVec.toNat = a.toNat := UInt32.toNat_toUInt64 a
    show a.toUInt64.toBitVec.toInt = _
    rw [BitVec.toInt_eq_toNat_of_lt (by omega), hnat]
  rw [applyDelta, hsum, hint, if_pos (by omega), Int.toNat_natCast, UInt32.ofNat_toNat]

/-! ### Varints -/

theorem byte_more : ∀ n : Fin 256, ((UInt8.ofNat n ||| 0x80) &&& 0x7f).toNat = n % 128 ∧
    (UInt8.ofNat n ||| 0x80) &&& 0x80 ≠ 0 := by
  decide +kernel

theorem byte_last : ∀ n : Fin 128, (UInt8.ofNat n &&& 0x7f).toNat = n ∧
    UInt8.ofNat n &&& 0x80 = 0 := by
  decide +kernel

namespace Reader

/-- The shifts still to come, from `s` on. -/
def Shifts (s : ℕ) (shifts : List UInt64) : Prop :=
  ∀ j, s + 7 * j < 64 → shifts[j]? = some (UInt64.ofNat (s + 7 * j))

theorem Shifts.cons {s : ℕ} {shifts : List UInt64} (h : Shifts s shifts) (hs : s < 64) :
    ∃ rest, shifts = UInt64.ofNat s :: rest ∧ Shifts (s + 7) rest := by
  cases shifts with
  | nil => cases h 0 (by omega)
  | cons shift rest =>
    have hhead := h 0 (by omega)
    refine ⟨rest, ?_, fun j hj ↦ ?_⟩
    · rw [List.getElem?_cons_zero, Option.some.injEq] at hhead
      rw [hhead]
      rfl
    · have hnext := h (j + 1) (by omega)
      rw [List.getElem?_cons_succ] at hnext
      rw [hnext, show s + 7 * (j + 1) = s + 7 + 7 * j by omega]

/-- With the bits below `s` read, the rest of the number is read above them. -/
theorem varintFrom_put (tail : Reader) (v acc : UInt64) {s : ℕ} {shifts : List UInt64} (hs : s < 64)
    (hshifts : Shifts s shifts) (hacc : acc.toNat < 2 ^ s) (hv : v.toNat < 2 ^ (64 - s)) :
    ∃ w, varintFrom acc shifts (putVarint v ++ tail) = .ok (w, tail) ∧
      w.toNat = acc.toNat + v.toNat * 2 ^ s := by
  induction hn : v.toNat using Nat.strongRecOn generalizing v acc s shifts with
  | _ n ih =>
    subst hn
    obtain ⟨rest, rfl, hrest⟩ := hshifts.cons hs
    rw [putVarint]
    split
    next hmore =>
      have hge : 128 ≤ v.toNat := UInt64.le_iff_toNat_le.1 hmore
      have hroom : s + 7 < 64 := by
        by_contra hno
        have hle : 2 ^ (64 - s) ≤ 2 ^ 7 := Nat.pow_le_pow_right (by decide) (by omega)
        omega
      obtain ⟨hlow, hflag⟩ := byte_more ⟨v.toNat % 256, Nat.mod_lt _ (by decide)⟩
      have hbyte : UInt8.ofNat (v.toNat % 256) = v.toUInt8 := by
        rw [← UInt8.toNat_inj, UInt8.toNat_ofNat', UInt64.toNat_toUInt8, Nat.mod_mod]
      rw [hbyte] at hlow hflag
      have hdigit : ((v.toUInt8 ||| 0x80) &&& 0x7f).toUInt64.toNat = v.toNat % 128 := by
        rw [UInt8.toNat_toUInt64, hlow]
        exact Nat.mod_mod_of_dvd _ (by decide)
      have hacc' := toNat_or_shiftLeft hacc
        (show ((v.toUInt8 ||| 0x80) &&& 0x7f).toUInt64.toNat < 2 ^ 7 by
          rw [hdigit]
          exact Nat.mod_lt _ (by decide)) hs (by omega)
      rw [hdigit] at hacc'
      have hshift : (v >>> 7).toNat = v.toNat / 2 ^ 7 := by
        rw [UInt64.toNat_shiftRight, Nat.shiftRight_eq_div_pow]
        rfl
      have hpow : 2 ^ (s + 7) = 2 ^ s * 2 ^ 7 := Nat.pow_add 2 s 7
      have hpow' : 2 ^ (64 - s) = 2 ^ (64 - (s + 7)) * 2 ^ 7 := by
        rw [← Nat.pow_add]
        congr 1
        omega
      have hmod : v.toNat % 128 < 128 := Nat.mod_lt _ (by decide)
      obtain ⟨w, hread, hw⟩ := ih (v >>> 7).toNat (by omega) (v >>> 7)
        (acc ||| ((v.toUInt8 ||| 0x80) &&& 0x7f).toUInt64 <<< UInt64.ofNat s) hroom hrest
        (by
          rw [hacc', hpow]
          calc acc.toNat + v.toNat % 128 * 2 ^ s < (v.toNat % 128 + 1) * 2 ^ s := by
                rw [Nat.add_mul, Nat.one_mul]
                omega
            _ ≤ 2 ^ s * 2 ^ 7 := by
                rw [Nat.mul_comm]
                exact Nat.mul_le_mul_left _ hmod)
        (by
          rw [hshift]
          exact Nat.div_lt_of_lt_mul (by rw [Nat.mul_comm, ← hpow']; exact hv)) rfl
      refine ⟨w, ?_, ?_⟩
      · rw [List.cons_append, varintFrom, if_neg hflag]
        exact hread
      · rw [hw, hacc', hshift, hpow, Nat.add_assoc, Nat.mul_comm (2 ^ s), ← Nat.mul_assoc, ← Nat.add_mul]
        congr 2
        omega
    next hlast =>
      have hlt : v.toNat < 128 := Nat.lt_of_not_le fun h ↦ hlast (UInt64.le_iff_toNat_le.2 h)
      obtain ⟨hlow, hflag⟩ := byte_last ⟨v.toNat, hlt⟩
      have hbyte : UInt8.ofNat v.toNat = v.toUInt8 := by
        rw [← UInt8.toNat_inj, UInt8.toNat_ofNat', UInt64.toNat_toUInt8]
      rw [hbyte] at hlow hflag
      have hdigit : (v.toUInt8 &&& 0x7f).toUInt64.toNat = v.toNat := by
        rw [UInt8.toNat_toUInt64, hlow]
      refine ⟨_, by rw [List.cons_append, varintFrom, if_pos hflag]; rfl, ?_⟩
      rw [toNat_or_shiftLeft hacc (by rw [hdigit]; exact hv) hs (by omega), hdigit]

theorem varint_put (v : UInt64) (tail : Reader) : varint (putVarint v ++ tail) = .ok (v, tail) := by
  have hshifts : Shifts 0 [0, 7, 14, 21, 28, 35, 42, 49, 56, 63] := by
    have hall : ∀ j : Fin 10, [0, 7, 14, 21, 28, 35, 42, 49, 56, 63][(j : ℕ)]? =
        some (UInt64.ofNat (0 + 7 * j)) := by decide
    exact fun j hj ↦ hall ⟨j, by omega⟩
  obtain ⟨w, hread, hw⟩ := varintFrom_put tail v 0 (by decide) hshifts (by decide) v.toNat_lt
  rw [varint, hread]
  have heq : w = v := by
    rw [← UInt64.toNat_inj, hw]
    simp
  rw [heq]

theorem ok_bind {α β : Type} (a : α) (f : α → Except LineTableError β) :
    (Except.ok a >>= f) = f a := rfl

theorem u32_put (v : UInt32) (tail : Reader) : u32 (putVarint v.toUInt64 ++ tail) = .ok (v, tail) := by
  rw [u32, varint_put, ok_bind]
  show (if v.toUInt64.toNat < 2 ^ 32 then _ else _) = _
  rw [UInt32.toNat_toUInt64, if_pos v.toNat_lt, UInt32.toUInt32_toUInt64]

theorem zigzag_put (d : Int64) (tail : Reader) :
    zigzag (putVarint (LineTable.zigzag d) ++ tail) = .ok (d, tail) := by
  rw [zigzag, varint_put, ok_bind]
  show Except.ok (unzigzag _, tail) = _
  rw [unzigzag_zigzag]

theorem file_put {file : UInt32} {files : ℕ} (tail : Reader)
    (h : file ≠ debugFileUnknown → file.toNat < files) :
    Reader.file (putFile file ++ tail) files = .ok (file, tail) := by
  rw [Reader.file, putFile, varint_put, ok_bind]
  dsimp only
  by_cases hfile : file = debugFileUnknown
  · rw [if_pos hfile, if_pos rfl, hfile]
  · have hlt := file.toNat_lt
    have hcode : (file.toUInt64 + 1).toNat = file.toNat + 1 := by
      rw [UInt64.toNat_add, UInt32.toNat_toUInt64, show (1 : UInt64).toNat = 1 from rfl]
      exact Nat.mod_eq_of_lt (by omega)
    have hne : file.toUInt64 + 1 ≠ 0 := by
      intro h0
      rw [h0] at hcode
      exact absurd hcode (Nat.succ_ne_zero _).symm
    have hsub : file.toUInt64 + 1 - 1 = file.toUInt64 := UInt64.add_sub_cancel _ _
    rw [if_neg hfile, if_neg hne, hsub, UInt32.toNat_toUInt64, if_pos (h hfile),
      UInt32.toUInt32_toUInt64]

/-- The next run starts after the one before, and must start below the length. -/
theorem nextPc_put {pc next len : UInt32} {i : ℕ} (tail : Reader) (hle : pc.toNat ≤ next.toNat)
    (hlt : 0 < i → pc.toNat < next.toNat) :
    nextPc (putVarint (next - pc).toUInt64 ++ tail) pc i len =
      if next < len then .ok (next, tail) else .error ⟨"run past the end of the bytecode"⟩ := by
  have hsub : (next - pc).toNat = next.toNat - pc.toNat := UInt32.toNat_sub_of_le _ _ hle
  have hadd : pc + (next - pc) = next := by rw [UInt32.add_comm, UInt32.sub_add_cancel]
  have hzero : ¬(0 < i ∧ next - pc = 0) := by
    rintro ⟨hi, h0⟩
    rw [h0] at hsub
    have := hlt hi
    have h00 : (0 : UInt32).toNat = 0 := rfl
    omega
  have hfit : pc.toNat + (next - pc).toNat < 2 ^ 32 := by
    have := next.toNat_lt
    omega
  rw [nextPc, u32_put, ok_bind]
  dsimp only
  rw [if_neg hzero, hadd]
  simp only [hfit, true_and]

/-- A line run as `fromDense` makes it: an unknown file has no line. -/
def LineOk (files : ℕ) (run : LineRun) : Prop :=
  if run.file = debugFileUnknown then run.line = 0 ∧ run.column = 0 else run.file.toNat < files

/-- A span run as `fromDense` makes it: an unknown file has no span, another does not end before it
starts. -/
def SpanOk (files : ℕ) (run : SpanRun) : Prop :=
  if run.loc.file = debugFileUnknown then run.loc = DebugLoc.unknown
  else run.loc.file.toNat < files ∧ run.loc.startByte.toNat ≤ run.loc.endByte.toNat

/-- The runs start one after another, the first at `pc` or after it. -/
def Increasing {α : Type} (runPc : α → UInt32) (i : ℕ) (pc : UInt32) (rs : List α) : Prop :=
  (∀ run ∈ rs, pc.toNat ≤ (runPc run).toNat ∧ (0 < i → pc.toNat < (runPc run).toNat)) ∧
    rs.Pairwise fun r s ↦ (runPc r).toNat < (runPc s).toNat

theorem Increasing.cons {α : Type} {runPc : α → UInt32} {i : ℕ} {pc : UInt32} {run : α} {rs : List α}
    (h : Increasing runPc i pc (run :: rs)) :
    (pc.toNat ≤ (runPc run).toNat ∧ (0 < i → pc.toNat < (runPc run).toNat)) ∧
      Increasing runPc (i + 1) (runPc run) rs := by
  obtain ⟨hfirst, hrest⟩ := List.pairwise_cons.1 h.2
  exact ⟨h.1 run List.mem_cons_self,
    fun s hs ↦ ⟨Nat.le_of_lt (hfirst s hs), fun _ ↦ hfirst s hs⟩, hrest⟩

theorem lineRuns_encode (files : ℕ) (len : UInt32) (tail : Reader) (rs : List LineRun) (i : ℕ)
    (pc line : UInt32) (hinc : Increasing LineRun.pc i pc rs) (hok : ∀ run ∈ rs, LineOk files run)
    (hlen : ∀ run ∈ rs, run.pc < len) :
    lineRuns files len rs.length i pc line (encodeLineRuns pc line rs ++ tail) = .ok (rs, tail) := by
  induction rs generalizing i pc line with
  | nil => rfl
  | cons run rs ih =>
    obtain ⟨⟨hle, hlt⟩, hrest⟩ := hinc.cons
    have hrun := hok run List.mem_cons_self
    have hfile : run.file ≠ debugFileUnknown → run.file.toNat < files := by
      intro hne
      rw [LineOk, if_neg hne] at hrun
      exact hrun
    have ih' := fun l ↦ ih (i + 1) run.pc l hrest (fun r hr ↦ hok r (List.mem_cons_of_mem _ hr))
      (fun r hr ↦ hlen r (List.mem_cons_of_mem _ hr))
    rw [encodeLineRuns, List.length_cons, lineRuns, List.append_assoc, nextPc_put _ hle hlt,
      if_pos (hlen run List.mem_cons_self), ok_bind]
    dsimp only
    rw [List.append_assoc, file_put _ hfile, ok_bind]
    dsimp only
    by_cases hne : run.file ≠ debugFileUnknown
    · rw [if_pos hne, if_pos hne, List.append_assoc, zigzag_put, ok_bind]
      dsimp only
      rw [applyDelta_delta, ok_bind, List.append_assoc, u32_put, ok_bind]
      dsimp only
      rw [ih', ok_bind]
    · have hunknown := not_not.1 hne
      rw [LineOk, if_pos hunknown] at hrun
      rw [if_neg hne, if_neg hne, ih', ok_bind]
      show Except.ok (LineRun.mk run.pc run.file 0 0 :: rs, tail) = _
      obtain ⟨hline, hcolumn⟩ := hrun
      cases run
      subst hline hcolumn
      rfl

/-- **Reading span runs back checks them against the length.** -/
theorem spanRuns_encode (files : ℕ) (len : UInt32) (tail : Reader) (rs : List SpanRun) (i : ℕ)
    (pc start : UInt32) (hinc : Increasing SpanRun.pc i pc rs) (hok : ∀ run ∈ rs, SpanOk files run) :
    spanRuns files len rs.length i pc start (encodeSpanRuns pc start rs ++ tail) =
      if ∀ run ∈ rs, run.pc < len then .ok (rs, tail)
      else .error ⟨"run past the end of the bytecode"⟩ := by
  induction rs generalizing i pc start with
  | nil => simp [spanRuns, encodeSpanRuns]
  | cons run rs ih =>
    obtain ⟨⟨hle, hlt⟩, hrest⟩ := hinc.cons
    have hrun := hok run List.mem_cons_self
    have hfile : run.loc.file ≠ debugFileUnknown → run.loc.file.toNat < files := by
      intro hne
      rw [SpanOk, if_neg hne] at hrun
      exact hrun.1
    have ih' := fun s ↦ ih (i + 1) run.pc s hrest (fun r hr ↦ hok r (List.mem_cons_of_mem _ hr))
    rw [encodeSpanRuns, List.length_cons, spanRuns, List.append_assoc, nextPc_put _ hle hlt]
    by_cases hpc : run.pc < len
    · have hall : (∀ r ∈ run :: rs, r.pc < len) ↔ ∀ r ∈ rs, r.pc < len := by
        rw [List.forall_mem_cons]
        exact and_iff_right hpc
      rw [if_pos hpc, ok_bind]
      dsimp only
      rw [List.append_assoc, file_put _ hfile, ok_bind]
      dsimp only
      by_cases hne : run.loc.file ≠ debugFileUnknown
      · rw [SpanOk, if_neg hne] at hrun
        have hsub : (run.loc.endByte - run.loc.startByte).toNat =
            run.loc.endByte.toNat - run.loc.startByte.toNat := UInt32.toNat_sub_of_le _ _ hrun.2
        have hfit : run.loc.startByte.toNat + (run.loc.endByte - run.loc.startByte).toNat < 2 ^ 32 := by
          have := run.loc.endByte.toNat_lt
          omega
        have hend : run.loc.startByte + (run.loc.endByte - run.loc.startByte) = run.loc.endByte := by
          rw [UInt32.add_comm, UInt32.sub_add_cancel]
        rw [if_pos hne, if_pos hne, List.append_assoc, zigzag_put, ok_bind]
        dsimp only
        rw [applyDelta_delta, ok_bind, List.append_assoc, u32_put, ok_bind]
        dsimp only
        rw [if_pos hfit, ih', hend]
        by_cases hlater : ∀ r ∈ rs, r.pc < len
        · rw [if_pos hlater, if_pos (hall.2 hlater)]
          rfl
        · rw [if_neg hlater, if_neg (fun h ↦ hlater (hall.1 h))]
          rfl
      · have hunknown := not_not.1 hne
        rw [SpanOk, if_pos hunknown] at hrun
        rw [if_neg hne, if_neg hne, ih']
        by_cases hlater : ∀ r ∈ rs, r.pc < len
        · rw [if_pos hlater, if_pos (hall.2 hlater), ok_bind, ← hrun]
        · rw [if_neg hlater, if_neg (fun h ↦ hlater (hall.1 h))]
          rfl
    · rw [if_neg hpc, if_neg (fun h ↦ hpc (h run List.mem_cons_self))]
      rfl

end Reader

/-! ### Tables -/

theorem length_putVarint_pos (v : UInt64) : 1 ≤ (putVarint v).length := by
  rw [putVarint]
  split
  · exact Nat.succ_le_succ (Nat.zero_le _)
  · exact Nat.le_refl _

theorem length_putFile_pos (file : UInt32) : 1 ≤ (putFile file).length := length_putVarint_pos _

theorem two_mul_le_length_lines (rs : List LineRun) (pc line : UInt32) :
    2 * rs.length ≤ (encodeLineRuns pc line rs).length := by
  induction rs generalizing pc line with
  | nil => exact Nat.zero_le _
  | cons run rs ih =>
    have hpc := length_putVarint_pos (run.pc - pc).toUInt64
    have hfile := length_putFile_pos run.file
    have h₁ := ih run.pc run.line
    have h₂ := ih run.pc line
    rw [encodeLineRuns, List.length_append, List.length_append, List.length_cons]
    split
    · rw [List.length_append, List.length_append]
      omega
    · omega

theorem two_mul_le_length_spans (rs : List SpanRun) (pc start : UInt32) :
    2 * rs.length ≤ (encodeSpanRuns pc start rs).length := by
  induction rs generalizing pc start with
  | nil => exact Nat.zero_le _
  | cons run rs ih =>
    have hpc := length_putVarint_pos (run.pc - pc).toUInt64
    have hfile := length_putFile_pos run.loc.file
    have h₁ := ih run.pc run.loc.startByte
    have h₂ := ih run.pc start
    rw [encodeSpanRuns, List.length_append, List.length_append, List.length_cons]
    split
    · rw [List.length_append, List.length_append]
      omega
    · omega

/-- The count of runs is read back if each of them takes two bytes. -/
theorem count_put {n : ℕ} {bytes : Reader} (hn : n < 2 ^ 64) (h : 2 * n ≤ bytes.length) :
    Reader.count (putVarint (UInt64.ofNat n) ++ bytes) = .ok (n, bytes) := by
  have hnat : (UInt64.ofNat n).toNat = n := by rw [UInt64.toNat_ofNat', Nat.mod_eq_of_lt hn]
  rw [Reader.count, Reader.varint_put, Reader.ok_bind]
  dsimp only
  rw [hnat, if_neg (by omega)]

/-- Runs that start one after another are no more than there are `u32`. -/
theorem length_lt_of_increasing {α : Type} {runPc : α → UInt32} {rs : List α} {i : ℕ} {pc : UInt32}
    (h : Reader.Increasing runPc i pc rs) : rs.length < 2 ^ 64 := by
  have hle : rs.length + pc.toNat + (if 0 < i then 1 else 0) ≤ 2 ^ 32 := by
    induction rs generalizing i pc with
    | nil =>
      have := pc.toNat_lt
      rw [List.length_nil]
      split <;> omega
    | cons run rs ih =>
      obtain ⟨⟨hpc, hstrict⟩, hrest⟩ := h.cons
      have hrs := ih hrest
      rw [if_pos (Nat.succ_pos i)] at hrs
      rw [List.length_cons]
      split
      next hi =>
        have := hstrict hi
        omega
      next => omega
  omega

theorem encodeLines_ne_nil {t : LineTable} (h : t.lines ≠ []) : t.encodeLines ≠ [] := by
  rw [encodeLines, if_neg h]
  have := length_putVarint_pos t.len.toUInt64
  intro hnil
  rw [List.append_eq_nil_iff] at hnil
  rw [hnil.1] at this
  cases this

theorem decodeLines_encode {t : LineTable} {files : ℕ} (hne : t.lines ≠ [])
    (hinc : Reader.Increasing LineRun.pc 0 0 t.lines) (hok : ∀ run ∈ t.lines, Reader.LineOk files run)
    (hlen : ∀ run ∈ t.lines, run.pc < t.len) :
    decodeLines t.encodeLines files = .ok (some t.len, t.lines) := by
  rw [decodeLines, if_neg (encodeLines_ne_nil hne), encodeLines, if_neg hne, Reader.u32_put,
    Reader.ok_bind]
  dsimp only
  rw [count_put (length_lt_of_increasing hinc) (two_mul_le_length_lines _ _ _), Reader.ok_bind]
  dsimp only
  have hruns := Reader.lineRuns_encode files t.len [] t.lines 0 0 0 hinc hok hlen
  rw [List.append_nil] at hruns
  rw [hruns]
  rfl

theorem encodeSpans_ne_nil {t : LineTable} (h : t.spans ≠ []) : t.encodeSpans ≠ [] := by
  rw [encodeSpans, if_neg h]
  have := length_putVarint_pos t.len.toUInt64
  intro hnil
  rw [List.append_eq_nil_iff] at hnil
  rw [hnil.1] at this
  cases this

theorem decodeSpans_encode {t : LineTable} {files : ℕ} {len? : Option UInt32} (hne : t.spans ≠ [])
    (hinc : Reader.Increasing SpanRun.pc 0 0 t.spans)
    (hok : ∀ run ∈ t.spans, Reader.SpanOk files run) :
    decodeSpans len? t.encodeSpans files =
      if ∃ l ∈ len?, t.len ≠ l then .error ⟨"line and span tables cover different lengths"⟩
      else if ∀ run ∈ t.spans, run.pc < t.len then .ok (some t.len, t.spans)
      else .error ⟨"run past the end of the bytecode"⟩ := by
  rw [decodeSpans, if_neg (encodeSpans_ne_nil hne), encodeSpans, if_neg hne, Reader.u32_put,
    Reader.ok_bind]
  dsimp only
  split
  · rfl
  · rw [count_put (length_lt_of_increasing hinc) (two_mul_le_length_spans _ _ _), Reader.ok_bind]
    dsimp only
    have hruns := Reader.spanRuns_encode files t.len [] t.spans 0 0 0 hinc hok
    rw [List.append_nil] at hruns
    rw [hruns]
    split
    · rfl
    · rfl

/-- A table whose runs start below its length is read back, up to the length of an empty one. -/
theorem decode_encodeTable (t : LineTable) (files : ℕ)
    (hlinc : Reader.Increasing LineRun.pc 0 0 t.lines)
    (hlok : ∀ run ∈ t.lines, Reader.LineOk files run) (hllen : ∀ run ∈ t.lines, run.pc < t.len)
    (hsinc : Reader.Increasing SpanRun.pc 0 0 t.spans)
    (hsok : ∀ run ∈ t.spans, Reader.SpanOk files run) (hslen : ∀ run ∈ t.spans, run.pc < t.len) :
    ∃ u, decode t.encodeLines t.encodeSpans files = .ok u ∧ u.lines = t.lines ∧ u.spans = t.spans ∧
      (u.len = t.len ∨ t.lines = [] ∧ t.spans = []) := by
  have hlines : decodeLines t.encodeLines files =
      .ok (if t.lines = [] then none else some t.len, t.lines) := by
    by_cases hl : t.lines = []
    · rw [encodeLines, if_pos hl, if_pos hl, hl]
      rfl
    · rw [if_neg hl]
      exact decodeLines_encode hl hlinc hlok hllen
  have hsame : ¬∃ l ∈ (if t.lines = [] then none else some t.len), t.len ≠ l := by
    rintro ⟨l, hl, hne⟩
    split at hl
    · cases hl
    · exact hne (Option.some.inj hl)
  rw [decode, hlines, Reader.ok_bind]
  dsimp only
  by_cases hs : t.spans = []
  · rw [encodeSpans, if_pos hs]
    refine ⟨_, rfl, rfl, hs.symm, ?_⟩
    by_cases hl : t.lines = []
    · exact .inr ⟨hl, hs⟩
    · rw [if_neg hl]
      exact .inl rfl
  · rw [decodeSpans_encode hs hsinc hsok, if_neg hsame, if_pos hslen]
    exact ⟨_, rfl, rfl, rfl, .inl rfl⟩

/-- A span run past the length is an error. -/
theorem decode_encodeTable_ne_ok {t : LineTable} {files : ℕ} (run : SpanRun) (hrun : run ∈ t.spans)
    (hpast : ¬run.pc < t.len) (hsinc : Reader.Increasing SpanRun.pc 0 0 t.spans)
    (hsok : ∀ run ∈ t.spans, Reader.SpanOk files run) (u : LineTable) :
    decode t.encodeLines t.encodeSpans files ≠ .ok u := by
  intro h
  rw [decode] at h
  cases hlines : decodeLines t.encodeLines files with
  | error e =>
    rw [hlines] at h
    cases h
  | ok p =>
    rw [hlines, Reader.ok_bind] at h
    dsimp only at h
    rw [decodeSpans_encode (List.ne_nil_of_mem hrun) hsinc hsok] at h
    split at h
    · cases h
    · rw [if_neg (fun hall ↦ hpast (hall run hrun))] at h
      cases h

/-! ### The runs of a dense table -/

theorem increasing_runs {α κ : Type} [DecidableEq κ] {runPc : α → UInt32} {f : ℕ × κ → α} {prev : κ}
    {ks : List κ} (hpc : ∀ r, runPc (f r) = UInt32.ofNat r.1)
    (hlt : ∀ r ∈ runs prev 0 ks, r.1 < 2 ^ 32) :
    Reader.Increasing runPc 0 0 ((runs prev 0 ks).map f) := by
  have hnat : ∀ r ∈ runs prev 0 ks, (runPc (f r)).toNat = r.1 := by
    intro r hr
    rw [hpc, UInt32.toNat_ofNat', Nat.mod_eq_of_lt (hlt r hr)]
  refine ⟨fun run _ ↦ ⟨Nat.zero_le _, fun h ↦ absurd h (Nat.lt_irrefl 0)⟩, ?_⟩
  refine List.pairwise_map.2 ((pairwise_runs prev 0 ks).imp_of_mem ?_)
  intro r s hr hs hrs
  rw [hnat r hr, hnat s hs]
  exact hrs

section Dense

variable {locs : List DebugLoc} {lines : List DebugLine} {files : ℕ}

theorem lineOk_of_mem (hfiles : ∀ loc ∈ locs, loc.isKnown → loc.file.toNat < files) :
    ∀ run ∈ (fromDense locs lines true).lines, Reader.LineOk files run := by
  rw [fromDense_eq]
  refine List.forall_mem_map.2 fun r hr ↦ ?_
  have hget := (getElem?_of_mem_runs hr).2
  rw [Nat.sub_zero, getElem?_lineKeys] at hget
  obtain ⟨loc, hloc, hkey⟩ := Option.map_eq_some_iff.1 hget
  cases hk : r.2 with
  | none => exact ⟨rfl, rfl⟩
  | some k =>
    obtain ⟨hfile, hknown⟩ := lineKey_known (hkey.trans hk)
    have hne : k.1 ≠ debugFileUnknown := by
      rw [hfile]
      exact file_ne_of_isKnown hknown
    show if k.1 = debugFileUnknown then _ else k.1.toNat < files
    rw [if_neg hne, hfile]
    exact hfiles loc (List.mem_of_getElem? hloc) hknown

theorem spanOk_of_mem (hfiles : ∀ loc ∈ locs, loc.isKnown → loc.file.toNat < files) :
    ∀ run ∈ (fromDense locs lines true).spans, Reader.SpanOk files run := by
  rw [fromDense_eq]
  refine List.forall_mem_map.2 fun r hr ↦ ?_
  have hget := (getElem?_of_mem_runs hr).2
  rw [Nat.sub_zero, List.getElem?_map] at hget
  obtain ⟨loc, hloc, hkey⟩ := Option.map_eq_some_iff.1 hget
  cases hk : r.2 with
  | none => exact rfl
  | some l =>
    obtain ⟨rfl, hknown⟩ := spanKey_known (hkey.trans hk)
    show if l.file = debugFileUnknown then _ else l.file.toNat < files ∧ _
    rw [if_neg (file_ne_of_isKnown hknown)]
    exact ⟨hfiles l (List.mem_of_getElem? hloc) hknown,
      Nat.le_of_lt (UInt32.lt_iff_toNat_lt.1 (of_decide_eq_true hknown).2)⟩

/-- A run starts at a known location or right behind one. -/
theorem exists_known_of_mem_lineRuns {r : ℕ × Option (UInt32 × UInt32 × UInt32)} {aligned : Bool}
    (hr : r ∈ runs none 0 (lineKeys aligned lines locs 0)) :
    ∃ pc loc, locs[pc]? = some loc ∧ loc.isKnown ∧ r.1 ≤ pc + 1 := by
  obtain ⟨pc, k, hk, hle⟩ := exists_some_of_mem_runs hr
  rw [getElem?_lineKeys] at hk
  obtain ⟨loc, hloc, hkey⟩ := Option.map_eq_some_iff.1 hk
  exact ⟨pc, loc, hloc, (lineKey_known hkey).2, hle⟩

theorem exists_known_of_mem_spanRuns {r : ℕ × Option DebugLoc}
    (hr : r ∈ runs none 0 (locs.map spanKey)) :
    ∃ pc loc, locs[pc]? = some loc ∧ loc.isKnown ∧ r.1 ≤ pc + 1 := by
  obtain ⟨pc, k, hk, hle⟩ := exists_some_of_mem_runs hr
  rw [List.getElem?_map] at hk
  obtain ⟨loc, hloc, hkey⟩ := Option.map_eq_some_iff.1 hk
  exact ⟨pc, loc, hloc, (spanKey_known hkey).2, hle⟩

theorem answers_of_nil {t : LineTable} (hl : t.lines = []) (hs : t.spans = []) (pc : ℕ) :
    t.lineAt pc = none ∧ t.spanAt pc = none := by
  rw [lineAt, spanAt, hl, hs]
  constructor
  · cases t.runIndex [] pc LineRun.pc <;> rfl
  · cases t.runIndex [] pc SpanRun.pc <;> rfl

/-- The decoded table answers as the table it was encoded from. -/
theorem answers_of_same_runs {t u : LineTable} (hlines : u.lines = t.lines) (hspans : u.spans = t.spans)
    (hlen : u.len = t.len ∨ t.lines = [] ∧ t.spans = []) (pc : ℕ) :
    u.lineAt pc = t.lineAt pc ∧ u.spanAt pc = t.spanAt pc := by
  rcases hlen with hlen | ⟨hl, hs⟩
  · rw [lineAt, lineAt, spanAt, spanAt, runIndex, runIndex, runIndex, runIndex, hlines, hspans, hlen]
    exact ⟨rfl, rfl⟩
  · obtain ⟨hlt, hst⟩ := answers_of_nil hl hs pc
    obtain ⟨hlu, hsu⟩ := answers_of_nil (hlines.trans hl) (hspans.trans hs) pc
    exact ⟨hlu.trans hlt.symm, hsu.trans hst.symm⟩

theorem fits_of_known_lt (h : ∀ pc loc, locs[pc]? = some loc → loc.isKnown → pc + 1 < wrappedLen locs) :
    Fits locs lines := by
  constructor
  · intro r hr
    obtain ⟨pc, loc, hloc, hknown, hle⟩ := exists_known_of_mem_lineRuns hr
    exact Nat.lt_of_le_of_lt hle (h pc loc hloc hknown)
  · intro r hr
    obtain ⟨pc, loc, hloc, hknown, hle⟩ := exists_known_of_mem_spanRuns hr
    exact Nat.lt_of_le_of_lt hle (h pc loc hloc hknown)

theorem fits_of_length_lt (h : locs.length < 2 ^ 32) : Fits locs lines := by
  have hwrap : wrappedLen locs = locs.length := Nat.mod_eq_of_lt h
  constructor
  · intro r hr
    have hget := (getElem?_of_mem_runs hr).2
    rw [Nat.sub_zero, getElem?_lineKeys] at hget
    obtain ⟨loc, hloc, -⟩ := Option.map_eq_some_iff.1 hget
    rw [hwrap]
    exact (List.getElem?_eq_some_iff.1 hloc).1
  · intro r hr
    have hget := (getElem?_of_mem_runs hr).2
    rw [Nat.sub_zero, List.getElem?_map] at hget
    obtain ⟨loc, hloc, -⟩ := Option.map_eq_some_iff.1 hget
    rw [hwrap]
    exact (List.getElem?_eq_some_iff.1 hloc).1

/-- With every run below the length, the dense table holds nothing past it. -/
theorem dense_none_of_le (lines : List DebugLine) (h : locs.length < 2 ^ 32 ∨
    ∀ pc loc, locs[pc]? = some loc → loc.isKnown → pc + 1 < wrappedLen locs) {pc : ℕ}
    (hpc : pc < locs.length) (hle : wrappedLen locs ≤ pc) :
    ProgramDebug.fileLineAt ⟨locs, lines⟩ pc = none ∧ ProgramDebug.locAt ⟨locs, lines⟩ pc = none := by
  rcases h with hlt | hknown
  · have hwrap : wrappedLen locs = locs.length := Nat.mod_eq_of_lt hlt
    omega
  · have hloc := List.getElem?_eq_getElem hpc
    have hun : ¬locs[pc].isKnown := by
      intro hk
      have := hknown pc locs[pc] hloc hk
      omega
    have hspan : ProgramDebug.locAt ⟨locs, lines⟩ pc = none := by
      rw [locAt_eq hloc, spanKey, if_neg hun]
    refine ⟨?_, hspan⟩
    rw [ProgramDebug.fileLineAt, hspan]
    rfl

/-- Past a known location that the length cuts off from the next slot, the decoder finds a run that it
rejects. -/
theorem decode_ne_ok_of_last_known {pc : ℕ} {loc : DebugLoc} (hloc : locs[pc]? = some loc)
    (hknown : loc.isKnown) (hpc : pc + 1 = wrappedLen locs) (hlong : 2 ^ 32 ≤ locs.length)
    (hall : ∀ pc loc, locs[pc]? = some loc → loc.isKnown → pc < wrappedLen locs)
    (hfiles : ∀ loc ∈ locs, loc.isKnown → loc.file.toNat < files) (u : LineTable) :
    decode (fromDense locs lines true).encodeLines (fromDense locs lines true).encodeSpans files ≠
      .ok u := by
  have hwrap : wrappedLen locs < 2 ^ 32 := Nat.mod_lt _ (by decide)
  have hnext : pc + 1 < locs.length := by omega
  have hunknown : ¬locs[pc + 1].isKnown := by
    intro hk
    have := hall (pc + 1) _ (List.getElem?_eq_getElem hnext) hk
    omega
  have hmem : (pc + 1, none) ∈ runs none 0 (locs.map spanKey) := by
    have hkey : (locs.map spanKey)[pc]? = some (some loc) := by
      rw [List.getElem?_map, hloc, Option.map_some, spanKey, if_pos hknown]
    have hkey' : (locs.map spanKey)[pc + 1]? = some none := by
      rw [List.getElem?_map, List.getElem?_eq_getElem hnext, Option.map_some, spanKey, if_neg hunknown]
    have h := mem_runs none 0 hkey hkey' (by simp)
    rwa [Nat.zero_add] at h
  have hlt : ∀ r ∈ runs none 0 (locs.map spanKey), r.1 < 2 ^ 32 := by
    intro r hr
    obtain ⟨p, l, hl, hk, hle⟩ := exists_known_of_mem_spanRuns hr
    have := hall p l hl hk
    omega
  have hlen := toNat_len locs lines
  refine decode_encodeTable_ne_ok (spanRun (pc + 1) none) ?_ ?_ ?_ (spanOk_of_mem hfiles) u
  · rw [fromDense_eq]
    exact List.mem_map.2 ⟨_, hmem, rfl⟩
  · rw [UInt32.lt_iff_toNat_lt, hlen, spanRun, UInt32.toNat_ofNat', Nat.mod_eq_of_lt (by omega)]
    omega
  · rw [fromDense_eq]
    exact increasing_runs (fun _ ↦ rfl) hlt

end Dense

/-- **The run table answers like the dense table at every slot, and so does what is decoded from its
encoding.** The source files must cover the files of the locations, which the decoder checks. -/
def Faithful (locs : List DebugLoc) (lines : List DebugLine) : Prop :=
  (∀ pc < locs.length,
    (fromDense locs lines true).lineAt pc = ProgramDebug.fileLineAt ⟨locs, lines⟩ pc ∧
      (fromDense locs lines true).spanAt pc = ProgramDebug.locAt ⟨locs, lines⟩ pc) ∧
  ∀ files, (∀ loc ∈ locs, loc.isKnown → loc.file.toNat < files) →
    ∃ u, decode (fromDense locs lines true).encodeLines (fromDense locs lines true).encodeSpans
        files = .ok u ∧
      ∀ pc, u.lineAt pc = (fromDense locs lines true).lineAt pc ∧
        u.spanAt pc = (fromDense locs lines true).spanAt pc

/-- **A run table is faithful exactly when the dense table has fewer than `2 ^ 32` slots, or its known
locations all end before the slot where its length wraps to.** -/
theorem fromDense_faithful_iff (locs : List DebugLoc) (lines : List DebugLine) :
    Faithful locs lines ↔
      (locs.length < 2 ^ 32 ∨
        ∀ pc loc, locs[pc]? = some loc → loc.isKnown → pc + 1 < locs.length % 2 ^ 32) := by
  constructor
  · rintro ⟨hanswers, hdecode⟩
    refine Classical.or_iff_not_imp_left.2 fun hlong pc loc hloc hknown ↦ ?_
    have hlong : 2 ^ 32 ≤ locs.length := Nat.le_of_not_lt hlong
    -- a known location past the length would have no answer
    have hall : ∀ pc loc, locs[pc]? = some loc → loc.isKnown → pc < wrappedLen locs := by
      intro pc loc hloc hknown
      by_contra hge
      have hlt := (List.getElem?_eq_some_iff.1 hloc).1
      have hnone := (lineAt_of_le (fromDense locs lines true) pc
        (by rw [toNat_len]; omega)).2
      have hspan := (hanswers pc hlt).2
      rw [hnone, locAt_eq hloc, spanKey, if_pos hknown] at hspan
      cases hspan
    have hpc := hall pc loc hloc hknown
    refine Nat.lt_of_le_of_ne hpc fun hlast ↦ ?_
    obtain ⟨u, hu, -⟩ := hdecode (2 ^ 32) fun l _ _ ↦ l.file.toNat_lt
    exact decode_ne_ok_of_last_known hloc hknown hlast hlong hall (fun l _ _ ↦ l.file.toNat_lt) u hu
  · intro h
    have hfits : Fits locs lines := by
      rcases h with hlt | hknown
      · exact fits_of_length_lt hlt
      · exact fits_of_known_lt hknown
    have hwrap : wrappedLen locs < 2 ^ 32 := Nat.mod_lt _ (by decide)
    constructor
    · intro pc hpc
      rcases Nat.lt_or_ge pc (wrappedLen locs) with hlt | hge
      · exact ⟨lineAt_fromDense hfits hlt, spanAt_fromDense hfits hlt⟩
      · obtain ⟨hline, hspan⟩ := dense_none_of_le lines h hpc hge
        obtain ⟨hline', hspan'⟩ := lineAt_of_le (fromDense locs lines true) pc
          (by rw [toNat_len]; exact hge)
        exact ⟨hline'.trans hline.symm, hspan'.trans hspan.symm⟩
    · intro files hfiles
      have hlen := toNat_len locs lines
      obtain ⟨u, hu, hl, hs, hlen'⟩ := decode_encodeTable (fromDense locs lines true) files
        (by
          rw [fromDense_eq]
          exact increasing_runs (fun _ ↦ rfl) fun r hr ↦ Nat.lt_trans (hfits.lines r hr) hwrap)
        (lineOk_of_mem hfiles)
        (by
          intro run hrun
          rw [UInt32.lt_iff_toNat_lt, hlen]
          rw [fromDense_eq] at hrun
          obtain ⟨r, hr, rfl⟩ := List.mem_map.1 hrun
          have hlt := hfits.lines r hr
          exact Nat.lt_of_le_of_lt (Nat.le_of_eq (toNat_ofNat_pc hlt)) hlt)
        (by
          rw [fromDense_eq]
          exact increasing_runs (fun _ ↦ rfl) fun r hr ↦ Nat.lt_trans (hfits.spans r hr) hwrap)
        (spanOk_of_mem hfiles)
        (by
          intro run hrun
          rw [UInt32.lt_iff_toNat_lt, hlen]
          rw [fromDense_eq] at hrun
          obtain ⟨r, hr, rfl⟩ := List.mem_map.1 hrun
          have hlt := hfits.spans r hr
          exact Nat.lt_of_le_of_lt (Nat.le_of_eq (toNat_ofNat_pc hlt)) hlt)
      exact ⟨u, hu, answers_of_same_runs hl hs hlen'⟩

/-- A table of `2 ^ 32` slots, all at one location, becomes a table of length 0. -/
theorem fromDense_wraps : ¬∀ locs lines, Faithful locs lines := by
  intro h
  have hlen : (List.replicate (2 ^ 32) (DebugLoc.mk 0 0 1)).length = 2 ^ 32 := List.length_replicate
  have hspan := ((h (List.replicate (2 ^ 32) ⟨0, 0, 1⟩) []).1 0 (by rw [hlen]; decide)).2
  have hget : (List.replicate (2 ^ 32) (DebugLoc.mk 0 0 1))[0]? = some ⟨0, 0, 1⟩ := by
    rw [List.getElem?_replicate, if_pos (by decide)]
  have hwrap : wrappedLen (List.replicate (2 ^ 32) (DebugLoc.mk 0 0 1)) = 0 := by
    rw [wrappedLen, hlen, Nat.mod_self]
  have hle : (fromDense (List.replicate (2 ^ 32) ⟨0, 0, 1⟩) [] true).len.toNat ≤ 0 :=
    Nat.le_of_eq (by rw [toNat_len, hwrap])
  have hnone := (lineAt_of_le _ 0 hle).2
  rw [hnone, locAt_eq hget] at hspan
  exact absurd hspan (by decide)

end CoilLang.LineTable
