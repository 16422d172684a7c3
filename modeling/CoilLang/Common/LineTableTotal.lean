import CoilLang.Common.LineTableChecked

/-!
# Decoding is total

Whatever decodes has its runs in order, below the length and with files of the file list
(`valid_of_decode`), and that is all a look-up relies on. So a decode keeps what it promises for
**exactly the byte strings whose deltas fit** (`decodeChecked_total_iff`).
-/

namespace CoilLang.LineTable

/-! ### What decodes -/

theorem bind_eq_ok {α β : Type} {x : Except LineTableError α} {f : α → Except LineTableError β} {b : β} :
    (x >>= f) = .ok b ↔ ∃ a, x = .ok a ∧ f a = .ok b := by
  rcases x with e | a
  · exact ⟨fun h ↦ (by cases h), fun ⟨a, ha, _⟩ ↦ (by cases ha)⟩
  · exact ⟨fun h ↦ ⟨a, rfl, h⟩, fun ⟨a', ha, h⟩ ↦ (by cases ha; exact h)⟩

/-- The runs of the table start one after another below its length, with files of the list. -/
structure Valid (files : ℕ) (t : LineTable) : Prop where
  lines_sorted : t.lines.Pairwise fun r s ↦ r.pc.toNat < s.pc.toNat
  lines_lt : ∀ run ∈ t.lines, run.pc.toNat < t.len.toNat
  lines_file : ∀ run ∈ t.lines, run.file ≠ debugFileUnknown → run.file.toNat < files
  spans_sorted : t.spans.Pairwise fun r s ↦ r.pc.toNat < s.pc.toNat
  spans_lt : ∀ run ∈ t.spans, run.pc.toNat < t.len.toNat
  spans_file : ∀ run ∈ t.spans, run.loc.file ≠ debugFileUnknown → run.loc.file.toNat < files

/-- A look-up finds a run of the table, and an answer has a file of the list. -/
structure LooksUp (files : ℕ) (t : LineTable) : Prop where
  line_index : ∀ pc i, t.runIndex t.lines pc LineRun.pc = some i → i < t.lines.length
  span_index : ∀ pc i, t.runIndex t.spans pc SpanRun.pc = some i → i < t.spans.length
  line_file : ∀ pc file line, t.lineAt pc = some (file, line) → file.toNat < files
  span_file : ∀ pc loc, t.spanAt pc = some loc → loc.file.toNat < files

theorem runIndex_lt {α : Type} {t : LineTable} {runs : List α} {pc i : ℕ} {runPc : α → UInt32}
    (h : t.runIndex runs pc runPc = some i) : i < runs.length := by
  rw [runIndex] at h
  split at h
  · cases h
  · split at h
    · cases h
    · rename_i k hk
      cases h
      have hle := partitionPoint_le (fun r ↦ (runPc r).toNat ≤ pc) runs
      omega

theorem Valid.looksUp {files : ℕ} {t : LineTable} (h : t.Valid files) : t.LooksUp files where
  line_index _ _ := runIndex_lt
  span_index _ _ := runIndex_lt
  line_file pc file line hat := by
    simp only [lineAt, Option.bind_eq_bind, Option.bind_eq_some_iff, Option.ite_none_right_eq_some] at hat
    obtain ⟨i, -, run, hrun, hknown, hfile⟩ := hat
    cases hfile
    exact h.lines_file run (List.mem_of_getElem? hrun) hknown
  span_file pc loc hat := by
    simp only [spanAt, Option.bind_eq_bind, Option.bind_eq_some_iff, Option.ite_none_right_eq_some] at hat
    obtain ⟨i, -, run, hrun, hknown, hloc⟩ := hat
    cases hloc
    exact h.spans_file run (List.mem_of_getElem? hrun) (file_ne_of_isKnown hknown)

/-- A run that is read starts where it may, and its file is one of the list. -/
theorem head_spec {files : ℕ} {len : UInt32} {i : ℕ} {pc base : UInt32} {r r' : Reader} {h : Head}
    (hh : Reader.head files len i pc base r = .ok (h, r')) :
    pc.toNat ≤ h.pc.toNat ∧ (0 < i → pc.toNat < h.pc.toNat) ∧ h.pc.toNat < len.toNat ∧
      (h.file ≠ debugFileUnknown → h.file.toNat < files) := by
  rw [Reader.head] at hh
  obtain ⟨⟨pc', r₁⟩, hpc, hh⟩ := bind_eq_ok.mp hh
  obtain ⟨⟨file, r₂⟩, hfile, hh⟩ := bind_eq_ok.mp hh
  have hkept : h.pc = pc' ∧ h.file = file := by
    dsimp only at hh
    split at hh
    · obtain ⟨⟨d, r₃⟩, -, hh⟩ := bind_eq_ok.mp hh
      obtain ⟨v, -, hh⟩ := bind_eq_ok.mp hh
      cases hh
      exact ⟨rfl, rfl⟩
    · cases hh
      exact ⟨rfl, rfl⟩
  rw [hkept.1, hkept.2]
  rw [Reader.nextPc] at hpc
  obtain ⟨⟨d, r₃⟩, -, hpc⟩ := bind_eq_ok.mp hpc
  dsimp only at hpc
  split at hpc
  · cases hpc
  rename_i hfirst
  split at hpc
  · rename_i hlt
    cases hpc
    have hsum : (pc + d).toNat = pc.toNat + d.toNat := by
      rw [UInt32.toNat_add]
      exact Nat.mod_eq_of_lt hlt.1
    have hd : 0 < i → 0 < d.toNat := fun hi ↦
      Nat.pos_of_ne_zero fun h0 ↦ hfirst ⟨hi, UInt32.toNat_inj.mp h0⟩
    refine ⟨by omega, fun hi ↦ (by have := hd hi; omega), UInt32.lt_iff_toNat_lt.mp hlt.2, fun hknown ↦ ?_⟩
    rw [Reader.file] at hfile
    obtain ⟨⟨code, r₄⟩, -, hfile⟩ := bind_eq_ok.mp hfile
    dsimp only at hfile
    split at hfile
    · cases hfile
      exact absurd rfl hknown
    · split at hfile
      · rename_i hlt'
        cases hfile
        rw [UInt64.toNat_toUInt32]
        exact Nat.lt_of_le_of_lt (Nat.mod_le _ _) hlt'
      · cases hfile
  · cases hpc

/-- The runs a loop reads are in order when each starts after the one before. -/
theorem increasing_eachRun {α : Type} {runPc : α → UInt32} {P : α → Prop}
    {body : ℕ → UInt32 × UInt32 → Reader → Except LineTableError (α × (UInt32 × UInt32) × Reader)}
    (hbody : ∀ i s r x s' r', body i s r = .ok (x, s', r') → s'.1 = runPc x ∧ s.1.toNat ≤ (runPc x).toNat ∧
      (0 < i → s.1.toNat < (runPc x).toNat) ∧ P x)
    {n i : ℕ} {s s' : UInt32 × UInt32} {r r' : Reader} {xs : List α} (h : eachRun body n i s r = .ok (xs, s', r')) :
    Reader.Increasing runPc i s.1 xs ∧ ∀ x ∈ xs, P x := by
  induction n generalizing i s r xs with
  | zero =>
    cases h
    exact ⟨⟨fun run hrun ↦ absurd hrun List.not_mem_nil, List.Pairwise.nil⟩, fun x hx ↦ absurd hx List.not_mem_nil⟩
  | succ n ih =>
    obtain ⟨⟨x, s₁, r₁⟩, hx, h⟩ := bind_eq_ok.mp h
    obtain ⟨⟨ys, s₂, r₂⟩, hys, h⟩ := bind_eq_ok.mp h
    cases h
    obtain ⟨hpc, hle, hlt, hP⟩ := hbody i s r x s₁ r₁ hx
    obtain ⟨⟨hfirst, hsorted⟩, hall⟩ := ih hys
    rw [show s₁.1 = runPc x from hpc] at hfirst
    have hafter : ∀ run ∈ ys, (runPc x).toNat < (runPc run).toNat := fun run hrun ↦ (hfirst run hrun).2 i.succ_pos
    refine ⟨⟨fun run hrun ↦ ?_, List.pairwise_cons.mpr ⟨hafter, hsorted⟩⟩, fun y hy ↦ ?_⟩
    · rcases List.mem_cons.mp hrun with rfl | hrun
      · exact ⟨hle, hlt⟩
      · have := hafter run hrun
        exact ⟨by omega, fun hi ↦ by omega⟩
    · rcases List.mem_cons.mp hy with rfl | hy
      · exact hP
      · exact hall y hy

theorem lineBody_spec {files : ℕ} {len : UInt32} (i : ℕ) (s : UInt32 × UInt32) (r : Reader) (x : LineRun) (s' : UInt32 × UInt32)
    (r' : Reader) (h : Reader.lineBody files len i s r = .ok (x, s', r')) :
    s'.1 = x.pc ∧ s.1.toNat ≤ x.pc.toNat ∧ (0 < i → s.1.toNat < x.pc.toNat) ∧
      x.pc.toNat < len.toNat ∧ (x.file ≠ debugFileUnknown → x.file.toNat < files) := by
  obtain ⟨⟨⟨pc, file, moved⟩, r₁⟩, hhead, h⟩ := bind_eq_ok.mp h
  have hspec := head_spec hhead
  cases moved with
  | some l =>
    obtain ⟨⟨column, r₂⟩, -, h⟩ := bind_eq_ok.mp h
    cases h
    exact ⟨rfl, hspec⟩
  | none =>
    cases h
    exact ⟨rfl, hspec⟩

theorem spanBody_spec {files : ℕ} {len : UInt32} (i : ℕ) (s : UInt32 × UInt32) (r : Reader) (x : SpanRun) (s' : UInt32 × UInt32)
    (r' : Reader) (h : Reader.spanBody files len i s r = .ok (x, s', r')) :
    s'.1 = x.pc ∧ s.1.toNat ≤ x.pc.toNat ∧ (0 < i → s.1.toNat < x.pc.toNat) ∧
      x.pc.toNat < len.toNat ∧ (x.loc.file ≠ debugFileUnknown → x.loc.file.toNat < files) := by
  obtain ⟨⟨⟨pc, file, moved⟩, r₁⟩, hhead, h⟩ := bind_eq_ok.mp h
  obtain ⟨hle, hlt, hlen, hfile⟩ := head_spec hhead
  cases moved with
  | some l =>
    obtain ⟨⟨length, r₂⟩, -, h⟩ := bind_eq_ok.mp h
    dsimp only at h
    split at h
    · cases h
      exact ⟨rfl, hle, hlt, hlen, hfile⟩
    · cases h
  | none =>
    cases h
    exact ⟨rfl, hle, hlt, hlen, fun hknown ↦ absurd rfl hknown⟩

/-- The runs of a table that decode, from the loop that read them. -/
theorem sorted_of_map {α : Type} {runPc : α → UInt32} {P : α → Prop}
    {body : ℕ → UInt32 × UInt32 → Reader → Except LineTableError (α × (UInt32 × UInt32) × Reader)}
    (hbody : ∀ i s r x s' r', body i s r = .ok (x, s', r') → s'.1 = runPc x ∧ s.1.toNat ≤ (runPc x).toNat ∧
      (0 < i → s.1.toNat < (runPc x).toNat) ∧ P x)
    {n i : ℕ} {s : UInt32 × UInt32} {r r' : Reader} {xs : List α}
    (h : (eachRun body n i s r).map (fun x ↦ (x.1, x.2.2)) = .ok (xs, r')) :
    xs.Pairwise (fun x y ↦ (runPc x).toNat < (runPc y).toNat) ∧ ∀ x ∈ xs, P x := by
  rcases hx : eachRun body n i s r with e | ⟨ys, s', r''⟩
  · rw [hx] at h
    cases h
  · rw [hx] at h
    cases h
    have hsorted := increasing_eachRun hbody hx
    exact ⟨hsorted.1.2, hsorted.2⟩

theorem decodeLines_spec {lines : List UInt8} {files : ℕ} {len? : Option UInt32} {rs : List LineRun}
    (h : decodeLines lines files = .ok (len?, rs)) : rs.Pairwise (fun r s ↦ r.pc.toNat < s.pc.toNat) ∧
      ∀ run ∈ rs, (∃ len, len? = some len ∧ run.pc.toNat < len.toNat) ∧ (run.file ≠ debugFileUnknown → run.file.toNat < files) := by
  rw [decodeLines] at h
  split at h
  · cases h
    exact ⟨List.Pairwise.nil, fun run hrun ↦ absurd hrun List.not_mem_nil⟩
  · obtain ⟨⟨len, r₁⟩, -, h⟩ := bind_eq_ok.mp h
    obtain ⟨⟨n, r₂⟩, -, h⟩ := bind_eq_ok.mp h
    obtain ⟨⟨rs', r₃⟩, hruns, h⟩ := bind_eq_ok.mp h
    obtain ⟨-, -, h⟩ := bind_eq_ok.mp h
    cases h
    obtain ⟨hsorted, hall⟩ := sorted_of_map lineBody_spec (Reader.lineRuns_eq .. ▸ hruns)
    exact ⟨hsorted, fun run hrun ↦ ⟨⟨len, rfl, (hall run hrun).1⟩, (hall run hrun).2⟩⟩

theorem decodeSpans_spec {len? len' : Option UInt32} {spans : List UInt8} {files : ℕ} {rs : List SpanRun}
    (h : decodeSpans len? spans files = .ok (len', rs)) : (∀ l, len? = some l → len' = some l) ∧
      rs.Pairwise (fun r s ↦ r.pc.toNat < s.pc.toNat) ∧
      ∀ run ∈ rs, (∃ len, len' = some len ∧ run.pc.toNat < len.toNat) ∧
        (run.loc.file ≠ debugFileUnknown → run.loc.file.toNat < files) := by
  rw [decodeSpans] at h
  split at h
  · cases h
    exact ⟨fun l hl ↦ hl, List.Pairwise.nil, fun run hrun ↦ absurd hrun List.not_mem_nil⟩
  · obtain ⟨⟨len, r₁⟩, -, h⟩ := bind_eq_ok.mp h
    dsimp only at h
    split at h
    · cases h
    rename_i hsame
    obtain ⟨⟨n, r₂⟩, -, h⟩ := bind_eq_ok.mp h
    obtain ⟨⟨rs', r₃⟩, hruns, h⟩ := bind_eq_ok.mp h
    obtain ⟨-, -, h⟩ := bind_eq_ok.mp h
    cases h
    obtain ⟨hsorted, hall⟩ := sorted_of_map spanBody_spec (Reader.spanRuns_eq .. ▸ hruns)
    refine ⟨fun l hl ↦ ?_, hsorted, fun run hrun ↦ ⟨⟨len, rfl, (hall run hrun).1⟩, (hall run hrun).2⟩⟩
    rw [Classical.not_not.mp fun hne ↦ hsame ⟨l, hl, hne⟩]

/-- **A table that decodes is well formed.** -/
theorem valid_of_decode {lines spans : List UInt8} {files : ℕ} {t : LineTable} (h : decode lines spans files = .ok t) :
    t.Valid files := by
  obtain ⟨⟨len?, lineRuns⟩, hlines, h⟩ := bind_eq_ok.mp h
  obtain ⟨⟨len', spanRuns⟩, hspans, h⟩ := bind_eq_ok.mp h
  cases h
  obtain ⟨hsorted, hall⟩ := decodeLines_spec hlines
  obtain ⟨hlen, hsorted', hall'⟩ := decodeSpans_spec hspans
  refine ⟨hsorted, fun run hrun ↦ ?_, fun run hrun ↦ (hall run hrun).2, hsorted', fun run hrun ↦ ?_, fun run hrun ↦ (hall' run hrun).2⟩
  · obtain ⟨len, rfl, hlt⟩ := (hall run hrun).1
    cases (hlen len rfl : len' = some len)
    exact hlt
  · obtain ⟨len, rfl, hlt⟩ := (hall' run hrun).1
    exact hlt

/-- **No operation of a decode overflows, and what it returns is well formed, exactly when the deltas
fit.** Only the first part can fail. -/
theorem decodeChecked_total_iff (lines spans : Slice) (files : ℕ) :
    (decodeChecked lines spans files ≠ .error .overflow ∧
      ∀ t, decodeChecked lines spans files = .ok t → t.Valid files ∧ t.LooksUp files) ↔
    DeltasFit lines.1 spans.1 files := by
  constructor
  · rintro ⟨hno, -⟩
    exact Classical.not_not.mp fun h ↦ hno (decodeChecked_overflow h)
  · intro h
    have hagree := agree_decode h
    refine ⟨fun hover ↦ ?_, fun t ht ↦ ?_⟩
    · rw [hover] at hagree
      exact hagree.elim
    · rcases hdec : decode lines.1 spans.1 files with e | u
      · rw [ht, hdec] at hagree
        exact hagree.elim
      · rw [ht, hdec] at hagree
        cases (hagree : t = u)
        exact ⟨valid_of_decode hdec, (valid_of_decode hdec).looksUp⟩

/-- Two line runs: the line of the first is 1, and the second adds the largest `i64` to it. -/
def overflowingLines : Slice :=
  ⟨[3, 2, 0, 1, 2, 1, 1, 1, 0xfe, 0xff, 0xff, 0xff, 0xff, 0xff, 0xff, 0xff, 0xff, 0x01, 0], by decide⟩

theorem decodeChecked_overflows : ¬ (decodeChecked overflowingLines ⟨[], by decide⟩ 1 ≠ .error .overflow ∧
    ∀ t, decodeChecked overflowingLines ⟨[], by decide⟩ 1 = .ok t → t.Valid 1 ∧ t.LooksUp 1) :=
  fun h ↦ h.1 (by decide)

end CoilLang.LineTable
