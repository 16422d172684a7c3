import CoilLang.Common.LineTable

/-!
# The runs of a dense table

`fromDense` makes one run wherever the line (or the span) of a slot differs from that of the slot
before: its loop is `runs` twice (`fromDense_lines`, `fromDense_spans`). As long as **every run starts
below the table's own length**, the lookups give back the dense entries (`lineAt_fromDense`,
`spanAt_fromDense`). The length is a `u32`: it is that of the dense table up to wrapping.
-/

namespace CoilLang.LineTable

/-! ### The loop -/

/-- The line keys of the slots from `pc` on. -/
def lineKeys (aligned : Bool) (lines : List DebugLine) (locs : List DebugLoc) (pc : ℕ) :
    List (Option (UInt32 × UInt32 × UInt32)) :=
  (locs.zipIdx pc).map fun e ↦ lineKey aligned lines e.2 e.1

theorem lineKeys_cons (aligned : Bool) (lines : List DebugLine) (loc : DebugLoc)
    (locs : List DebugLoc) (pc : ℕ) :
    lineKeys aligned lines (loc :: locs) pc =
      lineKey aligned lines pc loc :: lineKeys aligned lines locs (pc + 1) := rfl

theorem foldl_slot (aligned : Bool) (lines : List DebugLine) (locs : List DebugLoc) (pc : ℕ)
    (p : Progress) :
    ((locs.zipIdx pc).foldl (slot aligned lines true) p).table =
      ⟨p.table.len,
        p.table.lines ++ (runs p.prevLine pc (lineKeys aligned lines locs pc)).map fun r ↦
          lineRun r.1 r.2,
        p.table.spans ++ (runs p.prevSpan pc (locs.map spanKey)).map fun r ↦ spanRun r.1 r.2⟩ := by
  induction locs generalizing pc p with
  | nil => simp [lineKeys, runs]
  | cons loc locs ih =>
    rw [List.zipIdx_cons, List.foldl_cons, ih, lineKeys_cons, List.map_cons, runs, runs, slot]
    dsimp only
    by_cases hline : lineKey aligned lines pc loc ≠ p.prevLine
    · by_cases hspan : spanKey loc ≠ p.prevSpan
      · simp [hline, hspan]
      · simp [hline, hspan]
    · by_cases hspan : spanKey loc ≠ p.prevSpan
      · simp [hline, hspan]
      · simp [hline, hspan]

/-- The line runs and the span runs of a dense table. -/
theorem fromDense_eq (locs : List DebugLoc) (lines : List DebugLine) :
    fromDense locs lines true =
      ⟨UInt32.ofNat locs.length,
        (runs none 0 (lineKeys (lines.length = locs.length) lines locs 0)).map fun r ↦
          lineRun r.1 r.2,
        (runs none 0 (locs.map spanKey)).map fun r ↦ spanRun r.1 r.2⟩ := by
  rw [fromDense, foldl_slot]
  rfl

/-! ### The keys are the dense entries -/

theorem spanKey_known {loc l : DebugLoc} (h : spanKey loc = some l) : l = loc ∧ loc.isKnown := by
  rw [spanKey] at h
  split at h
  next hk => exact ⟨(Option.some.inj h).symm, hk⟩
  next => cases h

theorem lineKey_known {aligned : Bool} {lines : List DebugLine} {pc : ℕ} {loc : DebugLoc}
    {k : UInt32 × UInt32 × UInt32} (h : lineKey aligned lines pc loc = some k) :
    k.1 = loc.file ∧ loc.isKnown := by
  rw [lineKey] at h
  by_cases hk : (aligned && loc.isKnown) = true
  · obtain ⟨l, -, rfl⟩ := Option.map_eq_some_iff.1 h
    exact ⟨rfl, (Bool.and_eq_true_iff.1 hk).2⟩
  · rw [if_neg hk] at h
    cases h

theorem file_ne_of_isKnown {loc : DebugLoc} (h : loc.isKnown) : loc.file ≠ debugFileUnknown :=
  (of_decide_eq_true h).1

theorem getElem?_lineKeys (aligned : Bool) (lines : List DebugLine) (locs : List DebugLoc) (pc : ℕ) :
    (lineKeys aligned lines locs 0)[pc]? = locs[pc]?.map (lineKey aligned lines pc) := by
  simp [lineKeys, List.getElem?_zipIdx, Function.comp_def]

theorem fileLineAt_eq {locs : List DebugLoc} {lines : List DebugLine} {pc : ℕ} {loc : DebugLoc}
    (hloc : locs[pc]? = some loc) :
    ProgramDebug.fileLineAt ⟨locs, lines⟩ pc =
      (lineKey (lines.length = locs.length) lines pc loc).map fun k ↦ (k.1, ⟨k.2.1, k.2.2⟩) := by
  rw [ProgramDebug.fileLineAt, ProgramDebug.locAt, ProgramDebug.lineAt, lineKey]
  dsimp only
  rw [hloc]
  by_cases hlen : lines.length = locs.length
  · by_cases hk : loc.isKnown = true
    · simp [hlen, hk, Option.filter, Function.comp_def]
    · simp [hlen, hk, Option.filter]
  · simp [hlen]

theorem locAt_eq {locs : List DebugLoc} {lines : List DebugLine} {pc : ℕ} {loc : DebugLoc}
    (hloc : locs[pc]? = some loc) : ProgramDebug.locAt ⟨locs, lines⟩ pc = spanKey loc := by
  rw [ProgramDebug.locAt]
  dsimp only
  rw [hloc, spanKey]
  rfl

/-! ### Lookups -/

/-- The dense table up to the length the run table records. -/
def wrappedLen (locs : List DebugLoc) : ℕ := locs.length % 2 ^ 32

theorem toNat_len (locs : List DebugLoc) (lines : List DebugLine) :
    (fromDense locs lines true).len.toNat = wrappedLen locs := by
  rw [fromDense_eq]
  exact UInt32.toNat_ofNat'

theorem toNat_ofNat_pc {pc : ℕ} {locs : List DebugLoc} (h : pc < wrappedLen locs) :
    (UInt32.ofNat pc).toNat = pc := by
  rw [UInt32.toNat_ofNat', Nat.mod_eq_of_lt]
  exact Nat.lt_trans h (Nat.mod_lt _ (by decide))

/-- No run of the table starts past its length. -/
structure Fits (locs : List DebugLoc) (lines : List DebugLine) : Prop where
  lines : ∀ r ∈ runs none 0 (lineKeys (lines.length = locs.length) lines locs 0),
    r.1 < wrappedLen locs
  spans : ∀ r ∈ runs none 0 (locs.map spanKey), r.1 < wrappedLen locs

theorem lineAt_fromDense {locs : List DebugLoc} {lines : List DebugLine} (hfits : Fits locs lines)
    {pc : ℕ} (hpc : pc < wrappedLen locs) :
    (fromDense locs lines true).lineAt pc = ProgramDebug.fileLineAt ⟨locs, lines⟩ pc := by
  have hlt : pc < locs.length := Nat.lt_of_lt_of_le hpc (Nat.mod_le _ _)
  have hloc := List.getElem?_eq_getElem hlt
  have hlen : ¬(fromDense locs lines true).len.toNat ≤ pc := by
    rw [toNat_len]
    exact Nat.not_le.2 hpc
  have hkey := getElem?_lineKeys (lines.length = locs.length) lines locs pc
  rw [hloc, Option.map_some] at hkey
  have hsearch := partitionPoint_runs none (fun r ↦ lineRun r.1 r.2)
    (fun r ↦ r.pc.toNat) (fun r hr ↦ toNat_ofNat_pc (hfits.lines r hr)) hkey
  rw [fileLineAt_eq hloc, lineAt, runIndex, if_neg hlen, fromDense_eq]
  dsimp only
  rcases hsearch with ⟨hpoint, hnone⟩ | ⟨j, r, hr, hpoint, hrun, hk⟩
  · rw [hpoint, hnone]
    rfl
  · rw [hpoint]
    show (List.map _ _)[j]? >>= _ = _
    rw [hrun, ← hk]
    show (if (lineRun r.1 r.2).file ≠ debugFileUnknown then _ else _) = _
    cases hr2 : r.2 with
    | none => rfl
    | some k =>
      have hfile := lineKey_known (hk.symm.trans hr2)
      have hne : k.1 ≠ debugFileUnknown := by
        rw [hfile.1]
        exact file_ne_of_isKnown hfile.2
      exact if_pos hne

theorem spanAt_fromDense {locs : List DebugLoc} {lines : List DebugLine} (hfits : Fits locs lines)
    {pc : ℕ} (hpc : pc < wrappedLen locs) :
    (fromDense locs lines true).spanAt pc = ProgramDebug.locAt ⟨locs, lines⟩ pc := by
  have hlt : pc < locs.length := Nat.lt_of_lt_of_le hpc (Nat.mod_le _ _)
  have hloc := List.getElem?_eq_getElem hlt
  have hlen : ¬(fromDense locs lines true).len.toNat ≤ pc := by
    rw [toNat_len]
    exact Nat.not_le.2 hpc
  have hkey : (locs.map spanKey)[pc]? = some (spanKey locs[pc]) := by
    rw [List.getElem?_map, hloc, Option.map_some]
  have hsearch := partitionPoint_runs none (fun r ↦ spanRun r.1 r.2)
    (fun r ↦ r.pc.toNat) (fun r hr ↦ toNat_ofNat_pc (hfits.spans r hr)) hkey
  rw [locAt_eq hloc, spanAt, runIndex, if_neg hlen, fromDense_eq]
  dsimp only
  rcases hsearch with ⟨hpoint, hnone⟩ | ⟨j, r, hr, hpoint, hrun, hk⟩
  · rw [hpoint, hnone]
    rfl
  · rw [hpoint]
    show (List.map _ _)[j]? >>= _ = _
    rw [hrun, ← hk]
    show (if (spanRun r.1 r.2).loc.isKnown then _ else _) = _
    cases hr2 : r.2 with
    | none => rfl
    | some l =>
      obtain ⟨rfl, hknown⟩ := spanKey_known (hk.symm.trans hr2)
      exact if_pos hknown

/-- Past its length the table has no entries. -/
theorem lineAt_of_le (t : LineTable) (pc : ℕ) (h : t.len.toNat ≤ pc) :
    t.lineAt pc = none ∧ t.spanAt pc = none := by
  rw [lineAt, spanAt, runIndex, runIndex, if_pos h, if_pos h]
  exact ⟨rfl, rfl⟩

end CoilLang.LineTable
