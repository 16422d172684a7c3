import CoilLang.Lib.RecordLayout

/-!
# C struct layouts

The layout of an `extern struct` is computed once, over `u32`, and fields at its offsets are then
read from native memory. Here the additions and the products of the source are those of `UInt32`,
**which wrap**, as an optimized build does; a nested struct takes its size and alignment from the
layouts before it.

So a layout is the C layout exactly when the C size of every struct of the sequence is below
`2 ^ 32` (`isCLayouts_iff`). Sizes double from definition to definition as easily as not, and a
layout that wraps is not refused: nine definitions are enough (`wrappingStructs`).
-/

namespace CoilLang.StructLayout

/-! ### FFI tags -/

namespace Tag

def INT : UInt32 := 0
def FLOAT : UInt32 := 1
def STRING : UInt32 := 2
def VOID : UInt32 := 3
def BOOL : UInt32 := 4
def INT8 : UInt32 := 5
def INT16 : UInt32 := 6
def INT32 : UInt32 := 7
def UINT8 : UInt32 := 8
def UINT16 : UInt32 := 9
def UINT32 : UInt32 := 10
def UINT64 : UInt32 := 11
def PTR : UInt32 := 12
def CALLBACK : UInt32 := 13
/-- Struct by value; the operand carries the layout id in its upper bits. -/
def STRUCT : UInt32 := 14
def BYTES : UInt32 := 15
def CONST_BYTES : UInt32 := 16
/-- Highest tag; operands above it carry an aux id. -/
def LAST : UInt32 := CONST_BYTES

end Tag

/-- Encode a tag and an aux id into an operand. -/
def encodeTagOperand (tag aux : UInt32) : UInt32 :=
  if aux = 0 then tag else (aux <<< 16) ||| (tag &&& 0xFFFF)

def decodeTagOperand (enc : UInt32) : UInt32 × UInt32 :=
  if enc ≤ Tag.LAST then (enc, 0) else (enc &&& 0xFFFF, enc >>> 16)

/-! ### Layouts -/

/-- C struct layout, with alignment and trailing padding. -/
structure CStructLayout where
  name : String
  /-- Field names and encoded FFI tag operands. -/
  fields : List (String × UInt32)
  /-- Byte offset of each field. -/
  offsets : List UInt32
  size : UInt32
  align : UInt32
  deriving DecidableEq, Repr

/-- `n / d` rounded up. -/
def divCeil (n d : UInt32) : UInt32 := if n % d = 0 then n / d else n / d + 1

def alignUp (n align : UInt32) : UInt32 := if align ≤ 1 then n else divCeil n align * align

/-- The size of a pointer of the host. -/
def POINTER_SIZE : UInt32 := 8

def cScalarSizeAlign (tag : UInt32) : Option (UInt32 × UInt32) :=
  if tag = Tag.BOOL ∨ tag = Tag.INT8 ∨ tag = Tag.UINT8 then some (1, 1)
  else if tag = Tag.INT16 ∨ tag = Tag.UINT16 then some (2, 2)
  else if tag = Tag.INT32 ∨ tag = Tag.UINT32 then some (4, 4)
  else if tag = Tag.INT ∨ tag = Tag.UINT64 ∨ tag = Tag.FLOAT ∨ tag = Tag.PTR ∨ tag = Tag.STRING ∨
      tag = Tag.CALLBACK then
    some (POINTER_SIZE, POINTER_SIZE)
  else none

def fieldSizeAlign (enc : UInt32) (prior : List CStructLayout) : Except String (UInt32 × UInt32) :=
  let (tag, aux) := decodeTagOperand enc
  if tag = Tag.STRUCT then
    match prior[aux.toNat]? with
    | some nested => .ok (nested.size, nested.align)
    | none => .error s!"unknown nested struct layout id {aux}"
  else
    match cScalarSizeAlign tag with
    | some sa => .ok sa
    | none => .error s!"FFI tag {tag} cannot be a C struct field"

/-- The loop over the fields: the offsets so far, the end of the last field and the largest
alignment. -/
def placeFields (prior : List CStructLayout) :
    List (String × UInt32) → List UInt32 → UInt32 → UInt32 →
      Except String (List UInt32 × UInt32 × UInt32)
  | [], offsets, off, maxAlign => .ok (offsets, off, maxAlign)
  | (_, enc) :: fields, offsets, off, maxAlign => do
    let (sz, al) ← fieldSizeAlign enc prior
    let off := alignUp off al
    placeFields prior fields (offsets ++ [off]) (off + sz) (max maxAlign al)

/-- Compute alignment and padding for `fields` against the layouts before it. -/
def computeCStructLayout (name : String) (fields : List (String × UInt32))
    (prior : List CStructLayout) : Except String CStructLayout := do
  let (offsets, off, maxAlign) ← placeFields prior fields [] 0 1
  return { name, fields, offsets, size := alignUp off maxAlign, align := maxAlign }

def layoutsFrom (out : List CStructLayout) :
    List (String × List (String × UInt32)) → Except String (List CStructLayout)
  | [] => .ok out
  | (name, fields) :: defs => do
    let layout ← computeCStructLayout name fields out
    layoutsFrom (out ++ [layout]) defs

/-- Layouts of a sequence of `extern struct` definitions, in declaration order. -/
def computeCStructLayouts (defs : List (String × List (String × UInt32))) :
    Except String (List CStructLayout) := layoutsFrom [] defs

/-! ### What a layout is to be -/

/-- Sizes and alignments as numbers. -/
def natural (fs : List (UInt32 × UInt32)) : List (ℕ × ℕ) := fs.map fun p ↦ (p.1.toNat, p.2.toNat)

/-- The sizes and alignments of fields after the layouts before them. -/
def SizeAligns (prior : List CStructLayout) (fields : List (String × UInt32))
    (fs : List (UInt32 × UInt32)) : Prop :=
  List.Forall₂ (fun f sa ↦ fieldSizeAlign f.2 prior = .ok sa) fields fs

/-- **The C layout** after the layouts before it: every offset is the least multiple of the field's
alignment at or after the end of the field before it, the size the least multiple of the largest
alignment that contains the fields; fields do not overlap, lie inside, and end below `2 ^ 32`. -/
def IsCLayout (prior : List CStructLayout) (l : CStructLayout) : Prop :=
  ∃ fs, SizeAligns prior l.fields fs ∧
    IsRecord (natural fs) (l.offsets.map UInt32.toNat) l.size.toNat l.align.toNat ∧
    ((l.offsets.map UInt32.toNat).zip (natural fs)).Pairwise (fun p q ↦ p.1 + p.2.1 ≤ q.1) ∧
    ∀ p ∈ (l.offsets.map UInt32.toNat).zip (natural fs),
      p.1 + p.2.1 ≤ l.size.toNat ∧ p.1 + p.2.1 < 2 ^ 32

/-- The layouts of a sequence of definitions, each after those before it. -/
def IsCLayouts (defs : List (String × List (String × UInt32))) (out : List CStructLayout) : Prop :=
  out.map (fun l ↦ (l.name, l.fields)) = defs ∧
    ∀ k l, out[k]? = some l → IsCLayout (out.take k) l

/-- The C size and alignment of a field, from those of the structs before it. -/
def exactField (prior : List (ℕ × ℕ)) (enc : UInt32) : ℕ × ℕ :=
  let (tag, aux) := decodeTagOperand enc
  if tag = Tag.STRUCT then prior.getD aux.toNat (0, 1)
  else
    match cScalarSizeAlign tag with
    | some sa => (sa.1.toNat, sa.2.toNat)
    | none => (0, 1)

def exactStruct (prior : List (ℕ × ℕ)) (fields : List (String × UInt32)) : ℕ × ℕ :=
  let fs := fields.map fun f ↦ exactField prior f.2
  (recordSize fs, maxAlign fs)

def exactFrom (prior : List (ℕ × ℕ)) : List (String × List (String × UInt32)) → List (ℕ × ℕ)
  | [] => []
  | d :: defs => exactStruct prior d.2 :: exactFrom (prior ++ [exactStruct prior d.2]) defs

/-- The C sizes and alignments of a sequence of structs, over the natural numbers. -/
def exactSizes (defs : List (String × List (String × UInt32))) : List (ℕ × ℕ) := exactFrom [] defs

/-! ### One struct -/

theorem toNat_divCeil (n : UInt32) {d : UInt32} (hd : 0 < d.toNat) :
    (divCeil n d).toNat = if n.toNat % d.toNat = 0 then n.toNat / d.toNat
      else n.toNat / d.toNat + 1 := by
  have hmod : n % d = 0 ↔ n.toNat % d.toNat = 0 := by
    rw [← UInt32.toNat_inj]
    simp
  unfold divCeil
  by_cases h : n.toNat % d.toNat = 0
  · rw [if_pos (hmod.2 h), if_pos h, UInt32.toNat_div]
  · rw [if_neg (mt hmod.1 h), if_neg h, UInt32.toNat_add, UInt32.toNat_div]
    have hlt := n.toNat_lt
    have hd2 : 2 ≤ d.toNat := by
      by_contra h2
      have h1 : d.toNat = 1 := by omega
      exact h (by rw [h1, Nat.mod_one])
    have hhalf : n.toNat / d.toNat ≤ n.toNat / 2 := Nat.div_le_div_left hd2 (by decide)
    exact Nat.mod_eq_of_lt (by simp; omega)

/-- Rounding up is exact when the result fits. -/
theorem toNat_alignUp {n al : UInt32} (hal : 0 < al.toNat)
    (h : roundUp n.toNat al.toNat < 2 ^ 32) : (alignUp n al).toNat = roundUp n.toNat al.toNat := by
  unfold alignUp
  split
  · rename_i h1
    have h1' : al.toNat = 1 := by
      have := UInt32.le_iff_toNat_le.1 h1
      simp at this
      omega
    simp [roundUp, h1', Nat.mod_one]
  · rw [UInt32.toNat_mul, toNat_divCeil n hal]
    unfold roundUp at h ⊢
    split
    · rename_i hz
      rw [Nat.div_mul_cancel (Nat.dvd_of_mod_eq_zero hz)]
      exact Nat.mod_eq_of_lt n.toNat_lt
    · rename_i hz
      rw [if_neg hz] at h
      exact Nat.mod_eq_of_lt h

theorem toNat_max (a b : UInt32) : (max a b).toNat = max a.toNat b.toNat := by
  rw [show max a b = if a ≤ b then b else a from rfl, max_def]
  simp only [UInt32.le_iff_toNat_le]
  split <;> rfl

/-- Alignments are positive. -/
def AlignPos (prior : List CStructLayout) : Prop := ∀ l ∈ prior, 0 < l.align.toNat

theorem AlignPos.append {prior : List CStructLayout} {l : CStructLayout} (hp : AlignPos prior)
    (hl : 0 < l.align.toNat) : AlignPos (prior ++ [l]) := by
  intro x hx
  rcases List.mem_append.1 hx with hx | hx
  · exact hp x hx
  · rw [List.mem_singleton.1 hx]
    exact hl

theorem pos_of_fieldSizeAlign {enc : UInt32} {prior : List CStructLayout} {sa : UInt32 × UInt32}
    (hp : AlignPos prior) (h : fieldSizeAlign enc prior = .ok sa) : 0 < sa.2.toNat := by
  unfold fieldSizeAlign at h
  dsimp only at h
  split at h
  · split at h
    · rename_i nested hget
      cases h
      exact hp nested (List.mem_of_getElem? hget)
    · cases h
  · split at h
    · rename_i sa' hsa
      cases h
      unfold cScalarSizeAlign at hsa
      split at hsa
      · cases hsa; decide
      · split at hsa
        · cases hsa; decide
        · split at hsa
          · cases hsa; decide
          · split at hsa
            · cases hsa; decide
            · cases hsa
    · cases h

theorem aligned_natural {prior : List CStructLayout} {fields : List (String × UInt32)}
    {fs : List (UInt32 × UInt32)} (hp : AlignPos prior) (h : SizeAligns prior fields fs) :
    Aligned (natural fs) := by
  induction h with
  | nil => simp [natural, Aligned]
  | cons hf _ ih =>
    intro p hpm
    rcases List.mem_cons.1 hpm with rfl | hpm
    · exact pos_of_fieldSizeAlign hp hf
    · exact ih p hpm

/-- **The loop over the fields is exact while the fields end below `2 ^ 32`.** -/
theorem placeFields_eq {prior : List CStructLayout} (hp : AlignPos prior)
    {fields : List (String × UInt32)} {offsets os : List UInt32} {off ma e m : UInt32}
    (h : placeFields prior fields offsets off ma = .ok (os, e, m)) :
    ∃ fs tail, SizeAligns prior fields fs ∧ os = offsets ++ tail ∧
      m.toNat = (natural fs).foldl (fun a f ↦ max a f.2) ma.toNat ∧
      (endFrom off.toNat (natural fs) < 2 ^ 32 →
        tail.map UInt32.toNat = offsetsFrom off.toNat (natural fs) ∧
          e.toNat = endFrom off.toNat (natural fs)) := by
  induction fields generalizing offsets off ma with
  | nil =>
    cases h
    exact ⟨[], [], .nil, by simp, rfl, fun _ ↦ ⟨rfl, rfl⟩⟩
  | cons f fields ih =>
    obtain ⟨name, enc⟩ := f
    rw [placeFields] at h
    cases hsa : fieldSizeAlign enc prior with
    | error msg =>
      rw [hsa] at h
      cases h
    | ok sa =>
      rw [hsa] at h
      obtain ⟨fs, tail, hfs, hos, hm, hex⟩ := ih h
      have hal := pos_of_fieldSizeAlign hp hsa
      refine ⟨sa :: fs, alignUp off sa.2 :: tail, .cons hsa hfs, by simp [hos], ?_, fun hend ↦ ?_⟩
      · rw [hm, toNat_max]
        rfl
      · have hpos := aligned_natural hp hfs
        change endFrom (roundUp off.toNat sa.2.toNat + sa.1.toNat) (natural fs) < 2 ^ 32 at hend
        have hle := le_endFrom (e := roundUp off.toNat sa.2.toNat + sa.1.toNat) hpos
        have hup := toNat_alignUp (n := off) hal (by omega)
        have hadd : (alignUp off sa.2 + sa.1).toNat = roundUp off.toNat sa.2.toNat + sa.1.toNat := by
          rw [UInt32.toNat_add, hup]
          exact Nat.mod_eq_of_lt (by omega)
        rw [hadd] at hex
        obtain ⟨h1, h2⟩ := hex hend
        refine ⟨?_, h2⟩
        rw [List.map_cons, h1, hup]
        rfl

theorem computeCStructLayout_eq {name : String} {fields : List (String × UInt32)}
    {prior : List CStructLayout} {l : CStructLayout} (hp : AlignPos prior)
    (h : computeCStructLayout name fields prior = .ok l) :
    (l.name, l.fields) = (name, fields) ∧ 0 < l.align.toNat ∧ ∃ fs, SizeAligns prior fields fs ∧
      (recordSize (natural fs) < 2 ^ 32 →
        l.offsets.map UInt32.toNat = offsetsFrom 0 (natural fs) ∧
          l.size.toNat = recordSize (natural fs) ∧ l.align.toNat = maxAlign (natural fs)) := by
  unfold computeCStructLayout at h
  cases hplace : placeFields prior fields [] 0 1 with
  | error msg =>
    rw [hplace] at h
    cases h
  | ok r =>
    obtain ⟨os, e, m⟩ := r
    rw [hplace] at h
    cases h
    obtain ⟨fs, tail, hfs, hos, hm, hex⟩ := placeFields_eq hp hplace
    have hmax : m.toNat = maxAlign (natural fs) := hm
    have hpos := maxAlign_pos (natural fs)
    refine ⟨rfl, by dsimp only; omega, fs, hfs, fun hsize ↦ ?_⟩
    have hend := le_roundUp (endFrom 0 (natural fs)) hpos
    unfold recordSize at hsize ⊢
    obtain ⟨h1, h2⟩ := hex (by
      change endFrom 0 (natural fs) < 2 ^ 32
      omega)
    have h2' : e.toNat = endFrom 0 (natural fs) := h2
    refine ⟨?_, ?_, hmax⟩
    · rw [hos, List.nil_append, h1]
      rfl
    · rw [← hmax, ← h2'] at hsize ⊢
      exact toNat_alignUp (by omega) hsize

theorem SizeAligns.unique {prior : List CStructLayout} {fields : List (String × UInt32)}
    {fs gs : List (UInt32 × UInt32)} (hf : SizeAligns prior fields fs)
    (hg : SizeAligns prior fields gs) : fs = gs := by
  induction hf generalizing gs with
  | nil =>
    cases hg
    rfl
  | cons h1 _ ih =>
    cases hg with
    | cons h2 hg =>
      rw [ih hg]
      cases h1.symm.trans h2
      rfl

/-- **A struct has its C layout exactly when its C size is below `2 ^ 32`**, given the layouts before
it. -/
theorem isCLayout_iff {name : String} {fields : List (String × UInt32)}
    {prior : List CStructLayout} {l : CStructLayout} (hp : AlignPos prior)
    (h : computeCStructLayout name fields prior = .ok l) {fs : List (UInt32 × UInt32)}
    (hfs : SizeAligns prior fields fs) : IsCLayout prior l ↔ recordSize (natural fs) < 2 ^ 32 := by
  obtain ⟨hname, -, gs, hgs, hex⟩ := computeCStructLayout_eq hp h
  obtain rfl := hgs.unique hfs
  have hfields : l.fields = fields := congrArg Prod.snd hname
  have hal := aligned_natural hp hfs
  refine ⟨fun ⟨gs, hgs, hrec, _, _⟩ ↦ ?_, fun hsize ↦ ?_⟩
  · rw [hfields] at hgs
    obtain rfl := hgs.unique hfs
    exact hrec.size_eq hal ▸ l.size.toNat_lt
  · obtain ⟨ho, hs, ha⟩ := hex hsize
    have hrec : IsRecord (natural gs) (l.offsets.map UInt32.toNat) l.size.toNat l.align.toNat := by
      rw [ho, hs, ha]
      exact isRecord_record hal
    exact ⟨gs, hfields ▸ hfs, hrec, hrec.disjoint, fun p hpm ↦
      ⟨hrec.inside p hpm, (hrec.inside p hpm).trans_lt l.size.toNat_lt⟩⟩

/-! ### A sequence of structs -/

/-- The sizes and alignments of layouts as numbers. -/
def sizes (out : List CStructLayout) : List (ℕ × ℕ) :=
  out.map fun l ↦ (l.size.toNat, l.align.toNat)

theorem exactField_eq {enc : UInt32} {prior : List CStructLayout} {sa : UInt32 × UInt32}
    (h : fieldSizeAlign enc prior = .ok sa) :
    exactField (sizes prior) enc = (sa.1.toNat, sa.2.toNat) := by
  unfold fieldSizeAlign at h
  unfold exactField
  dsimp only at h ⊢
  split at h
  · rename_i htag
    rw [if_pos htag]
    split at h
    · rename_i nested hget
      cases h
      simp [sizes, List.getD_eq_getElem?_getD, hget]
    · cases h
  · rename_i htag
    rw [if_neg htag]
    split at h
    · rename_i sa' hsa
      cases h
      rfl
    · cases h

theorem exactStruct_eq {prior : List CStructLayout} {fields : List (String × UInt32)}
    {fs : List (UInt32 × UInt32)} (h : SizeAligns prior fields fs) :
    exactStruct (sizes prior) fields = (recordSize (natural fs), maxAlign (natural fs)) := by
  have hmap : (fields.map fun f ↦ exactField (sizes prior) f.2) = natural fs := by
    induction h with
    | nil => rfl
    | cons hf _ ih =>
      rw [List.map_cons, ih, exactField_eq hf]
      rfl
  rw [exactStruct, hmap]

/-- The layouts there are stay in front. -/
theorem exists_of_layoutsFrom {out res : List CStructLayout}
    {defs : List (String × List (String × UInt32))} (h : layoutsFrom out defs = .ok res) :
    ∃ tail, res = out ++ tail := by
  induction defs generalizing out with
  | nil =>
    cases h
    exact ⟨[], by simp⟩
  | cons d defs ih =>
    rw [layoutsFrom] at h
    cases hl : computeCStructLayout d.1 d.2 out with
    | error msg =>
      rw [hl] at h
      cases h
    | ok l =>
      rw [hl] at h
      obtain ⟨tail, ht⟩ := ih h
      exact ⟨l :: tail, by simp [ht]⟩

theorem isCLayouts_from_iff {out res : List CStructLayout}
    {defs : List (String × List (String × UInt32))} (h : layoutsFrom out defs = .ok res)
    (hp : AlignPos out) :
    (∀ k l, out.length ≤ k → res[k]? = some l → IsCLayout (res.take k) l) ↔
      ∀ s ∈ exactFrom (sizes out) defs, s.1 < 2 ^ 32 := by
  induction defs generalizing out with
  | nil =>
    cases h
    simp only [exactFrom, List.not_mem_nil, false_imp_iff, implies_true, iff_true]
    intro k l hk hl
    rw [List.getElem?_eq_none hk] at hl
    cases hl
  | cons d defs ih =>
    rw [layoutsFrom] at h
    cases hl : computeCStructLayout d.1 d.2 out with
    | error msg =>
      rw [hl] at h
      cases h
    | ok l =>
      rw [hl] at h
      obtain ⟨tail, ht⟩ := exists_of_layoutsFrom h
      obtain ⟨-, hal, fs, hfs, hex⟩ := computeCStructLayout_eq hp hl
      have hget : res[out.length]? = some l := by simp [ht]
      have htake : res.take out.length = out := by simp [ht]
      have hp' := hp.append hal
      have hhead := isCLayout_iff hp hl hfs
      have ih := ih h hp'
      rw [exactFrom, exactStruct_eq hfs, List.forall_mem_cons]
      -- once this struct fits, the next ones start from its C size
      have hsizes (hsize : recordSize (natural fs) < 2 ^ 32) :
          sizes (out ++ [l]) = sizes out ++ [(recordSize (natural fs), maxAlign (natural fs))] := by
        obtain ⟨-, h1, h2⟩ := hex hsize
        simp [sizes, h1, h2]
      refine ⟨fun hall ↦ ?_, fun ⟨hsize, hrest⟩ k x hk hx ↦ ?_⟩
      · have hsize := hhead.1 (htake ▸ hall out.length l le_rfl hget)
        refine ⟨hsize, ?_⟩
        rw [← hsizes hsize]
        refine ih.1 fun k x hk hx ↦ hall k x ?_ hx
        rw [List.length_append] at hk
        omega
      · rcases Nat.eq_or_lt_of_le hk with rfl | hlt
        · cases hget.symm.trans hx
          rw [htake]
          exact hhead.2 hsize
        · rw [← hsizes hsize] at hrest
          exact ih.2 hrest k x (by rwa [List.length_append]) hx

theorem names_of_layoutsFrom {out res : List CStructLayout}
    {defs : List (String × List (String × UInt32))} (h : layoutsFrom out defs = .ok res)
    (hp : AlignPos out) : res.map (fun l ↦ (l.name, l.fields)) =
      out.map (fun l ↦ (l.name, l.fields)) ++ defs := by
  induction defs generalizing out with
  | nil =>
    cases h
    simp
  | cons d defs ih =>
    rw [layoutsFrom] at h
    cases hl : computeCStructLayout d.1 d.2 out with
    | error msg =>
      rw [hl] at h
      cases h
    | ok l =>
      rw [hl] at h
      obtain ⟨hname, hal, -⟩ := computeCStructLayout_eq hp hl
      rw [ih h (hp.append hal), List.map_append, List.map_singleton, hname, List.append_assoc]
      rfl

/-- **The layouts of a sequence of structs are the C layouts exactly when the C size of every struct is
below `2 ^ 32`.** -/
theorem isCLayouts_iff {defs : List (String × List (String × UInt32))} {out : List CStructLayout}
    (h : computeCStructLayouts defs = .ok out) :
    IsCLayouts defs out ↔ ∀ s ∈ exactSizes defs, s.1 < 2 ^ 32 := by
  have hp : AlignPos [] := by simp [AlignPos]
  have hiff := isCLayouts_from_iff h hp
  have hnames := names_of_layoutsFrom h hp
  exact ⟨fun hc ↦ hiff.1 fun k l _ hl ↦ hc.2 k l hl,
    fun hs ↦ ⟨by simpa using hnames, fun k l hl ↦ hiff.2 hs k l (Nat.zero_le _) hl⟩⟩

/-- A byte, a word and a byte, padded to twelve. -/
theorem isCLayouts_padded :
    let fields := [("a", Tag.UINT8), ("b", Tag.INT32), ("c", Tag.UINT8)]
    IsCLayouts [("Padded", fields)] [⟨"Padded", fields, [0, 4, 8], 12, 4⟩] :=
  (isCLayouts_iff (by decide +kernel)).2 (by decide +kernel)

/-- Eight bytes, then seven times sixteen of the struct before, then twice that: `2 ^ 32` bytes. -/
def wrappingStructs : List (String × List (String × UInt32)) :=
  let nested (n : ℕ) (id : UInt32) := List.replicate n ("f", encodeTagOperand Tag.STRUCT id)
  [("S0", [("x", Tag.INT)]), ("S1", nested 16 0), ("S2", nested 16 1), ("S3", nested 16 2),
    ("S4", nested 16 3), ("S5", nested 16 4), ("S6", nested 16 5), ("S7", nested 16 6),
    ("S8", nested 2 7)]

/-- The last of these structs is laid out, and not as in C. -/
theorem not_isCLayouts_wrappingStructs :
    ∃ out, computeCStructLayouts wrappingStructs = .ok out ∧ ¬ IsCLayouts wrappingStructs out := by
  have hok : (computeCStructLayouts wrappingStructs).isOk = true := by decide +kernel
  cases h : computeCStructLayouts wrappingStructs with
  | error msg =>
    rw [h] at hok
    cases hok
  | ok out =>
    refine ⟨out, rfl, fun hc ↦ ?_⟩
    have hp : AlignPos [] := by simp [AlignPos]
    have hsizes := (isCLayouts_from_iff h hp).1 fun k l _ hl ↦ hc.2 k l hl
    exact absurd hsizes (by decide +kernel)

end CoilLang.StructLayout
