import Mathlib.Data.Nat.Notation
import Mathlib.Tactic.Ring

/-!
# Packaged programs

A packaged program is a runner with an archive behind it, zero-padded so that the archive starts at a multiple
of 16, then the native lock if there is one, then a trailer of 32 bytes that says where the archive is. The
reader finds the trailer at the end of the file and the rest from there.

The trailer's flags are those given to the packer, **with the bit for the lock added when a lock was written**:
the bit is what tells the reader that the bytes between archive and trailer are a lock (`package_round_trip`).
-/

namespace CoilLang.Package

/-- The bytes of a slice or a vector: at most `isize::MAX`. -/
structure ByteSlice where
  bytes : List UInt8
  short : bytes.length < 2 ^ 63

/-- An index out of range, or an addition that overflows. -/
inductive Panic
  | range
  | overflow
  deriving DecidableEq

/-! ### Little-endian numbers -/

/-- The lowest `n` bytes of `x`. -/
def leBytes : ℕ → ℕ → List UInt8
  | 0, _ => []
  | n + 1, x => UInt8.ofNat x :: leBytes n (x / 256)

def ofLeBytes : List UInt8 → ℕ
  | [] => 0
  | b :: bs => b.toNat + 256 * ofLeBytes bs

@[simp] theorem length_leBytes (n x : ℕ) : (leBytes n x).length = n := by
  induction n generalizing x with
  | zero => rfl
  | succ n ih => rw [leBytes, List.length_cons, ih]

theorem ofLeBytes_leBytes {n x : ℕ} (h : x < 256 ^ n) : ofLeBytes (leBytes n x) = x := by
  induction n generalizing x with
  | zero =>
    rw [pow_zero] at h
    rw [leBytes, ofLeBytes]
    omega
  | succ n ih =>
    rw [pow_succ] at h
    rw [leBytes, ofLeBytes, ih (by omega), UInt8.toNat_ofNat']
    omega

/-! ### The trailer -/

def packageMagic : List UInt8 := [0x43, 0x4F, 0x49, 0x4C, 0x41, 0x50, 0x50, 0x00]

def packageTrailerSize : ℕ := 32

def packageFlagHasNativeLock : UInt32 := 2

def packageArchiveAlign : ℕ := 16

structure PackageTrailer where
  archiveOffset : UInt64
  archiveLen : UInt64
  flags : UInt32
  archiveVersion : UInt32
  deriving DecidableEq

namespace PackageTrailer

def hasNativeLock (t : PackageTrailer) : Bool := t.flags &&& packageFlagHasNativeLock ≠ 0

def encode (t : PackageTrailer) : List UInt8 :=
  packageMagic ++ leBytes 8 t.archiveOffset.toNat ++ leBytes 8 t.archiveLen.toNat ++
    leBytes 4 t.flags.toNat ++ leBytes 4 t.archiveVersion.toNat

/-- On the last 32 bytes of a file. -/
def decode (trailer : List UInt8) : Option PackageTrailer :=
  if trailer.take 8 ≠ packageMagic then none
  else some
    { archiveOffset := .ofNat (ofLeBytes ((trailer.drop 8).take 8))
      archiveLen := .ofNat (ofLeBytes ((trailer.drop 16).take 8))
      flags := .ofNat (ofLeBytes ((trailer.drop 24).take 4))
      archiveVersion := .ofNat (ofLeBytes ((trailer.drop 28).take 4)) }

theorem length_encode (t : PackageTrailer) : t.encode.length = packageTrailerSize := by
  simp only [encode, List.length_append, length_leBytes]
  rfl

theorem decode_encodeTrailer (t : PackageTrailer) : decode t.encode = some t := by
  obtain ⟨off, len, flags, version⟩ := t
  have hoff := ofLeBytes_leBytes (n := 8) off.toNat_lt
  have hlen := ofLeBytes_leBytes (n := 8) len.toNat_lt
  have hflags := ofLeBytes_leBytes (n := 4) flags.toNat_lt
  have hversion := ofLeBytes_leBytes (n := 4) version.toNat_lt
  have htake : ∀ (a b : List UInt8) (n : ℕ), a.length = n → (a ++ b).take n = a := fun a b n h ↦
    List.take_left' h
  have hdrop : ∀ (a b : List UInt8) (n : ℕ), a.length = n → (a ++ b).drop n = b := fun a b n h ↦
    List.drop_left' h
  rw [decode, encode]
  simp only [List.append_assoc]
  rw [htake packageMagic _ 8 rfl, if_neg (by simp), hdrop packageMagic _ 8 rfl, htake _ _ 8 (length_leBytes 8 _)]
  rw [show (16 : ℕ) = (packageMagic ++ leBytes 8 off.toNat).length by simp [packageMagic],
    ← List.append_assoc packageMagic, List.drop_left, htake _ _ 8 (length_leBytes 8 _)]
  rw [show (24 : ℕ) = (packageMagic ++ leBytes 8 off.toNat ++ leBytes 8 len.toNat).length by
      simp [packageMagic], ← List.append_assoc _ (leBytes 8 len.toNat), List.drop_left,
    htake _ _ 4 (length_leBytes 4 _)]
  rw [show (28 : ℕ) = (packageMagic ++ leBytes 8 off.toNat ++ leBytes 8 len.toNat ++
      leBytes 4 flags.toNat).length by simp [packageMagic], ← List.append_assoc _ (leBytes 4 flags.toNat),
    List.drop_left, List.take_of_length_le (by rw [length_leBytes])]
  simp [hoff, hlen, hflags, hversion]

end PackageTrailer

/-! ### Packing -/

def padding (n : ℕ) : ℕ := (packageArchiveAlign - n % packageArchiveAlign) % packageArchiveAlign

/-- A lock that is written: one with at least a byte. -/
def lockBytes (nativeLock : Option ByteSlice) : List UInt8 :=
  match nativeLock with
  | none => []
  | some lock => lock.bytes

def packedFlags (nativeLock : Option ByteSlice) (flags : UInt32) : UInt32 :=
  if lockBytes nativeLock = [] then flags else flags ||| packageFlagHasNativeLock

def packedTrailer (runner archive : ByteSlice) (nativeLock : Option ByteSlice)
    (flags archiveVersion : UInt32) : PackageTrailer where
  archiveOffset := .ofNat (runner.bytes.length + padding runner.bytes.length)
  archiveLen := .ofNat archive.bytes.length
  flags := packedFlags nativeLock flags
  archiveVersion := archiveVersion

/-- `none` when the file is longer than a vector can be. -/
def appendPackagePayloadWithNatives (runner archive : ByteSlice) (nativeLock : Option ByteSlice)
    (flags archiveVersion : UInt32) : Option ByteSlice :=
  let out := runner.bytes ++ List.replicate (padding runner.bytes.length) 0 ++ archive.bytes ++
    lockBytes nativeLock ++ (packedTrailer runner archive nativeLock flags archiveVersion).encode
  if h : out.length < 2 ^ 63 then some ⟨out, h⟩ else none

def appendPackagePayload (runner archive : ByteSlice) (flags archiveVersion : UInt32) : Option ByteSlice :=
  appendPackagePayloadWithNatives runner archive none flags archiveVersion

/-! ### Reading -/

/-- `data[a..b]`. -/
def indexRange (data : ByteSlice) (a b : ℕ) : Except Panic (List UInt8) :=
  if a ≤ b ∧ b ≤ data.bytes.length then .ok ((data.bytes.drop a).take (b - a)) else .error .range

/-- `data.get(a..b)`. -/
def getRange (data : ByteSlice) (a b : ℕ) : Option (List UInt8) :=
  if a ≤ b ∧ b ≤ data.bytes.length then some ((data.bytes.drop a).take (b - a)) else none

/-- An addition on `usize`. -/
def addUsize (a b : ℕ) : Except Panic ℕ := if a + b < 2 ^ 64 then .ok (a + b) else .error .overflow

def checkedAdd (a b : ℕ) : Option ℕ := if a + b < 2 ^ 64 then some (a + b) else none

def readPackageTrailer (data : ByteSlice) : Except Panic (Option PackageTrailer) :=
  if data.bytes.length < packageTrailerSize then .ok none
  else
    (indexRange data (data.bytes.length - packageTrailerSize) data.bytes.length).map PackageTrailer.decode

def embeddedArchiveSlice (data : ByteSlice) (t : PackageTrailer) : Except Panic (Option (List UInt8)) :=
  match checkedAdd t.archiveOffset.toNat t.archiveLen.toNat with
  | none => .ok none
  | some stop =>
    if data.bytes.length - packageTrailerSize < stop then .ok none
    else
      (addUsize stop packageTrailerSize).map fun size ↦
        if (!t.hasNativeLock && size ≠ data.bytes.length) || (t.hasNativeLock && data.bytes.length < size) then
          none
        else getRange data t.archiveOffset.toNat stop

def embeddedNativeLockSlice (data : ByteSlice) (t : PackageTrailer) : Option (List UInt8) :=
  if !t.hasNativeLock then none
  else
    match checkedAdd t.archiveOffset.toNat t.archiveLen.toNat with
    | none => none
    | some lockStart =>
      if data.bytes.length < packageTrailerSize then none
      else if data.bytes.length - packageTrailerSize < lockStart then none
      else getRange data lockStart (data.bytes.length - packageTrailerSize)

/-! ### The reader on any file -/

section Reader

variable (data : ByteSlice) (t : PackageTrailer)

/-- The end of the archive by the trailer. -/
def PackageTrailer.archiveEnd : ℕ := t.archiveOffset.toNat + t.archiveLen.toNat

/-- The archive ends before the trailer of the file, and right before it when there is no lock. -/
def Consistent : Prop :=
  t.archiveEnd + packageTrailerSize ≤ data.bytes.length ∧
    (t.hasNativeLock = false → t.archiveEnd + packageTrailerSize = data.bytes.length)

instance : Decidable (Consistent data t) := inferInstanceAs (Decidable (_ ∧ _))

theorem readPackageTrailer_eq : readPackageTrailer data =
    .ok (if packageTrailerSize ≤ data.bytes.length then
      PackageTrailer.decode (data.bytes.drop (data.bytes.length - packageTrailerSize)) else none) := by
  rw [readPackageTrailer]
  split
  · rename_i hlt
    rw [if_neg (by omega)]
  · rename_i hge
    rw [if_pos (by omega), indexRange, if_pos ⟨Nat.sub_le _ _, Nat.le_refl _⟩, List.take_of_length_le]
    · rfl
    · rw [List.length_drop]

theorem embeddedArchiveSlice_eq : embeddedArchiveSlice data t =
    .ok (if Consistent data t then
      some ((data.bytes.drop t.archiveOffset.toNat).take t.archiveLen.toNat) else none) := by
  have hshort := data.short
  have hend : t.archiveEnd = t.archiveOffset.toNat + t.archiveLen.toNat := rfl
  have hsize : packageTrailerSize = 32 := rfl
  rw [embeddedArchiveSlice, checkedAdd]
  by_cases hfit : t.archiveOffset.toNat + t.archiveLen.toNat < 2 ^ 64
  · rw [if_pos hfit]
    dsimp only
    rw [← hend]
    by_cases hlt : data.bytes.length - packageTrailerSize < t.archiveEnd
    · rw [if_pos hlt, if_neg fun hc ↦ by
        have := hc.1
        omega]
    · have hadd : addUsize t.archiveEnd packageTrailerSize = .ok (t.archiveEnd + packageTrailerSize) :=
        if_pos (by omega)
      rw [if_neg hlt, hadd, Except.map]
      have hget : t.archiveEnd + packageTrailerSize ≤ data.bytes.length →
          getRange data t.archiveOffset.toNat t.archiveEnd =
            some ((data.bytes.drop t.archiveOffset.toNat).take t.archiveLen.toNat) := by
        intro hle
        rw [getRange, if_pos ⟨by omega, by omega⟩, hend, Nat.add_sub_cancel_left]
      cases hlock : t.hasNativeLock with
      | false =>
        by_cases heq : t.archiveEnd + packageTrailerSize = data.bytes.length
        · rw [if_neg (by simp [heq]), hget heq.le, if_pos ⟨heq.le, fun _ ↦ heq⟩]
        · rw [if_pos (by simp [heq]), if_neg fun hc ↦ heq (hc.2 hlock)]
      | true =>
        by_cases hle : t.archiveEnd + packageTrailerSize ≤ data.bytes.length
        · rw [if_neg (by simpa using hle), hget hle, if_pos ⟨hle, fun h ↦ by rw [hlock] at h; cases h⟩]
        · rw [if_pos (by simpa using hle), if_neg fun hc ↦ hle hc.1]
  · rw [if_neg hfit, if_neg fun hc ↦ by
      have := hc.1
      omega]

theorem embeddedNativeLockSlice_eq : embeddedNativeLockSlice data t =
    if t.hasNativeLock = true ∧ t.archiveEnd + packageTrailerSize ≤ data.bytes.length then
      some ((data.bytes.drop t.archiveEnd).take (data.bytes.length - packageTrailerSize - t.archiveEnd))
    else none := by
  have hshort := data.short
  have hend : t.archiveEnd = t.archiveOffset.toNat + t.archiveLen.toNat := rfl
  have hsize : packageTrailerSize = 32 := rfl
  rw [embeddedNativeLockSlice]
  cases hlock : t.hasNativeLock with
  | false => simp
  | true =>
    rw [if_neg (by simp), checkedAdd]
    by_cases hfit : t.archiveOffset.toNat + t.archiveLen.toNat < 2 ^ 64
    · rw [if_pos hfit]
      dsimp only
      rw [← hend]
      by_cases hle : t.archiveEnd + packageTrailerSize ≤ data.bytes.length
      · rw [if_neg (by omega), if_neg (by omega), if_pos ⟨rfl, hle⟩, getRange, if_pos ⟨by omega, Nat.sub_le _ _⟩]
      · rw [if_neg (fun hc : _ ∧ _ ↦ hle hc.2)]
        split
        · rfl
        · rw [if_pos (by omega)]
    · rw [if_neg hfit, if_neg fun hc : _ ∧ _ ↦ by
        have := hc.2
        omega]

end Reader

/-! ### Round trip -/

section RoundTrip

variable {runner archive out : ByteSlice} {nativeLock : Option ByteSlice} {flags archiveVersion : UInt32}

theorem padding_aligns (n : ℕ) : (n + padding n) % packageArchiveAlign = 0 := by
  rw [padding, packageArchiveAlign]
  omega

/-- What the packer has written. -/
structure Packed (runner archive : ByteSlice) (nativeLock : Option ByteSlice) (t : PackageTrailer)
    (out : ByteSlice) : Prop where
  bytes : out.bytes = runner.bytes ++ List.replicate (padding runner.bytes.length) 0 ++ archive.bytes ++
    lockBytes nativeLock ++ t.encode
  offset : t.archiveOffset.toNat = runner.bytes.length + padding runner.bytes.length
  len : t.archiveLen.toNat = archive.bytes.length

theorem packed_of_append
    (h : appendPackagePayloadWithNatives runner archive nativeLock flags archiveVersion = some out) :
    Packed runner archive nativeLock (packedTrailer runner archive nativeLock flags archiveVersion) out := by
  rw [appendPackagePayloadWithNatives] at h
  split at h
  · rename_i hshort
    cases h
    have hpad : padding runner.bytes.length < 16 := Nat.mod_lt _ (by decide)
    have hrunner := runner.short
    have harchive := archive.short
    refine ⟨rfl, ?_, ?_⟩
    · exact UInt64.toNat_ofNat'.trans (Nat.mod_eq_of_lt (by omega))
    · exact UInt64.toNat_ofNat'.trans (Nat.mod_eq_of_lt (by omega))
  · cases h

theorem Packed.length {t : PackageTrailer} (h : Packed runner archive nativeLock t out) :
    out.bytes.length = t.archiveEnd + (lockBytes nativeLock).length + packageTrailerSize := by
  rw [h.bytes, PackageTrailer.archiveEnd, h.offset, h.len]
  simp only [List.length_append, List.length_replicate, t.length_encode]

theorem Packed.trailer {t : PackageTrailer} (h : Packed runner archive nativeLock t out) :
    readPackageTrailer out = .ok (some t) := by
  have hlen := h.length
  rw [readPackageTrailer_eq, if_pos (by omega)]
  have hbody : out.bytes.drop (out.bytes.length - packageTrailerSize) = t.encode := by
    have hlen' : out.bytes.length - packageTrailerSize =
        (runner.bytes ++ List.replicate (padding runner.bytes.length) 0 ++ archive.bytes ++
          lockBytes nativeLock).length := by
      rw [h.bytes, List.length_append, t.length_encode, Nat.add_sub_cancel]
    rw [hlen', h.bytes, List.drop_left]
  rw [hbody, t.decode_encodeTrailer]

theorem Packed.archive_eq {t : PackageTrailer} (h : Packed runner archive nativeLock t out) :
    (out.bytes.drop t.archiveOffset.toNat).take t.archiveLen.toNat = archive.bytes := by
  rw [h.offset, h.len, h.bytes, List.append_assoc, List.append_assoc,
    List.drop_left' (by rw [List.length_append, List.length_replicate]), List.take_left]

theorem Packed.lock_eq {t : PackageTrailer} (h : Packed runner archive nativeLock t out) :
    (out.bytes.drop t.archiveEnd).take (out.bytes.length - packageTrailerSize - t.archiveEnd) =
      lockBytes nativeLock := by
  have hlen := h.length
  have hend : t.archiveEnd =
      (runner.bytes ++ List.replicate (padding runner.bytes.length) 0 ++ archive.bytes).length := by
    rw [PackageTrailer.archiveEnd, h.offset, h.len]
    simp only [List.length_append, List.length_replicate]
  rw [show out.bytes.length - packageTrailerSize - t.archiveEnd = (lockBytes nativeLock).length by omega, hend,
    h.bytes, List.append_assoc _ (lockBytes nativeLock), List.drop_left, List.take_left]

/-- The bit for the lock is set when there is a lock, or when it was given. -/
theorem hasNativeLock_packed (t : PackageTrailer) (ht : t.flags = packedFlags nativeLock flags) :
    t.hasNativeLock = true ↔ lockBytes nativeLock ≠ [] ∨ flags &&& packageFlagHasNativeLock ≠ 0 := by
  rw [PackageTrailer.hasNativeLock, ht, packedFlags]
  split
  · rename_i hnil
    simp [hnil]
  · rename_i hne
    have hbit : (flags ||| packageFlagHasNativeLock) &&& packageFlagHasNativeLock = packageFlagHasNativeLock := by
      refine UInt32.toBitVec_inj.mp ?_
      ext i
      simp
      tauto
    rw [hbit]
    simpa [hne] using (by decide : packageFlagHasNativeLock ≠ 0)

/-- **What is packed is read back**: the archive at an aligned offset, the lock, and the flags with the bit for
the lock. **On any file the reader stays inside it**: it answers with the bytes that a consistent trailer names,
and with nothing otherwise. -/
theorem package_round_trip :
    (∀ (runner archive out : ByteSlice) (nativeLock : Option ByteSlice) (flags archiveVersion : UInt32),
      appendPackagePayloadWithNatives runner archive nativeLock flags archiveVersion = some out →
      ∃ t, readPackageTrailer out = .ok (some t) ∧ t.archiveVersion = archiveVersion ∧
        t.flags = (if lockBytes nativeLock = [] then flags else flags ||| packageFlagHasNativeLock) ∧
        t.archiveOffset.toNat % 16 = 0 ∧ embeddedArchiveSlice out t = .ok (some archive.bytes) ∧
        embeddedNativeLockSlice out t =
          if lockBytes nativeLock ≠ [] ∨ flags &&& packageFlagHasNativeLock ≠ 0 then
            some (lockBytes nativeLock) else none) ∧
    ∀ data : ByteSlice,
      (readPackageTrailer data = .ok (if 32 ≤ data.bytes.length then
        PackageTrailer.decode (data.bytes.drop (data.bytes.length - 32)) else none)) ∧
      ∀ t, embeddedArchiveSlice data t = .ok (if Consistent data t then
          some ((data.bytes.drop t.archiveOffset.toNat).take t.archiveLen.toNat) else none) ∧
        embeddedNativeLockSlice data t =
          if t.hasNativeLock = true ∧ t.archiveEnd + 32 ≤ data.bytes.length then
            some ((data.bytes.drop t.archiveEnd).take (data.bytes.length - 32 - t.archiveEnd)) else none := by
  refine ⟨fun runner archive out nativeLock flags archiveVersion h ↦ ?_, fun data ↦
    ⟨readPackageTrailer_eq data, fun t ↦ ⟨embeddedArchiveSlice_eq data t, embeddedNativeLockSlice_eq data t⟩⟩⟩
  have hp := packed_of_append h
  have hlen := hp.length
  generalize ht : packedTrailer runner archive nativeLock flags archiveVersion = t at hp hlen
  have hflags : t.flags = packedFlags nativeLock flags := by rw [← ht]; rfl
  have hlock := hasNativeLock_packed t hflags
  refine ⟨t, hp.trailer, by rw [← ht]; rfl, hflags, ?_, ?_, ?_⟩
  · rw [hp.offset]
    exact padding_aligns _
  · rw [embeddedArchiveSlice_eq, hp.archive_eq, if_pos]
    refine ⟨by omega, fun hno ↦ ?_⟩
    have hnil : lockBytes nativeLock = [] := by
      by_contra hne
      rw [hlock.mpr (.inl hne)] at hno
      cases hno
    rw [hlen, hnil, List.length_nil, Nat.add_zero]
  · rw [embeddedNativeLockSlice_eq, hp.lock_eq]
    exact if_congr ⟨fun hc ↦ hlock.mp hc.1, fun hc ↦ ⟨hlock.mpr hc, by omega⟩⟩ rfl rfl

/-- With a lock and no flags given, the reader answers with the flag of the lock. -/
theorem flags_gain_lock_bit : ¬ ∀ (runner archive out : ByteSlice) (nativeLock : Option ByteSlice)
    (flags archiveVersion : UInt32),
    appendPackagePayloadWithNatives runner archive nativeLock flags archiveVersion = some out →
    ∃ t, readPackageTrailer out = .ok (some t) ∧ t.flags = flags := by
  intro h
  let lock : ByteSlice := ⟨[0x7b, 0x7d], by decide⟩
  let empty : ByteSlice := ⟨[], by decide⟩
  have hpack : (appendPackagePayloadWithNatives empty empty (some lock) 0 0).isSome := by decide
  obtain ⟨out, hout⟩ := Option.isSome_iff_exists.mp hpack
  obtain ⟨t, ht, hflags⟩ := h empty empty out (some lock) 0 0 hout
  rw [(packed_of_append hout).trailer] at ht
  cases ht
  exact absurd hflags (by decide)

end RoundTrip

end CoilLang.Package
