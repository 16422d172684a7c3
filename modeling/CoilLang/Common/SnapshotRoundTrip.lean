import CoilLang.Common.SnapshotDecode

/-!
# Round trip of heap snapshots

`decode` gives back what `encode` wrote, whatever words follow it (`decode_encode`). A reader **reads**
an encoding (`Reads`) when, standing in front of it, it returns the encoded value and stands behind
it, with everything after untouched; the lemmas for the parts chain to one for the whole. Lengths are
written as words, so a value whose length does not fit a word cannot be read back; but no such value
is ever in a slice (`Reads.of_length_lt`).
-/

namespace CoilLang.SnapshotCodec

variable {α β : Type}

/-! ### Reading an encoding -/

/-- The reader stands in the slice, with `l` in front of it. -/
def Sees (s : Slice) (l : List UInt64) (r : Reader) : Prop :=
  ∃ front, s.words = front ++ l ∧ r = ⟨s, front.length⟩

/-- In front of `enc`, the read returns `a` and stands behind it. -/
def Reads (x : Reader → Except Stop (α × Reader)) (enc : List UInt64) (a : α) : Prop :=
  ∀ s tail r, Sees s (enc ++ tail) r → ∃ r', x r = .ok (a, r') ∧ Sees s tail r'

theorem ok_bind (a : α) (f : α → Except Stop β) : (Except.ok a >>= f) = f a := rfl

/-- What stands in a slice is not longer than slices are. -/
theorem Reads.of_length_lt {x : Reader → Except Stop (α × Reader)} {enc : List UInt64} {a : α}
    (h : enc.length < 2 ^ 60 → Reads x enc a) : Reads x enc a := by
  intro s tail r hr
  have hlen : enc.length < 2 ^ 60 := by
    obtain ⟨front, hs, -⟩ := hr
    have hlt := s.length_lt
    rw [hs, List.length_append, List.length_append] at hlt
    omega
  exact h hlen s tail r hr

theorem reads_next (w : UInt64) : Reads Reader.next [w] w := by
  rintro s tail _ ⟨front, hs, rfl⟩
  have hget : s.words[front.length]? = some w := by simp [hs]
  have hadd : usizeAdd front.length 1 = .ok (front.length + 1) := by
    have hlt := s.length_lt
    rw [hs, List.length_append] at hlt
    exact if_pos (by omega)
  refine ⟨⟨s, front.length + 1⟩, ?_, front ++ [w], ?_, ?_⟩
  · rw [Reader.next]
    dsimp only
    rw [hget]
    show usizeAdd front.length 1 >>= _ = _
    rw [hadd]
    rfl
  · rw [hs, List.append_assoc]
  · simp

theorem Sees.take {s : Slice} {l tail : List UInt64} {r : Reader} {n : ℕ} (hr : Sees s (l ++ tail) r)
    (hn : l.length = n) : ∃ r', r.take n = .ok (l, r') ∧ Sees s tail r' := by
  obtain ⟨front, hs, rfl⟩ := hr
  subst hn
  have hlen : s.words.length = front.length + (l.length + tail.length) := by
    rw [hs, List.length_append, List.length_append]
  have hfit : front.length + l.length < 2 ^ 64 ∧ front.length + l.length ≤ s.words.length := by
    have := s.length_lt
    omega
  refine ⟨⟨s, front.length + l.length⟩, ?_, front ++ l, ?_, ?_⟩
  · show (if _ then _ else _) = _
    rw [if_pos hfit, hs, List.drop_left, List.take_left]
  · rw [hs, List.append_assoc]
  · simp

theorem reads_len {n : ℕ} (hn : n < 2 ^ 64) : Reads Reader.len [UInt64.ofNat n] n := by
  intro s tail r hr
  obtain ⟨r₁, hnext, hr₁⟩ := reads_next _ s tail r hr
  refine ⟨r₁, ?_, hr₁⟩
  rw [Reader.len, hnext, ok_bind]
  show Except.ok ((UInt64.ofNat n).toNat, r₁) = _
  rw [UInt64.toNat_ofNat', Nat.mod_eq_of_lt hn]

/-! ### Byte strings -/

theorem toLeBytes_pack {chunk : List UInt8} (hchunk : chunk.length ≤ 8) :
    (toLeBytes (pack 8 (chunk.map UInt8.toUInt64))).take chunk.length = chunk := by
  have hdigit := (digit_pack (show ∀ d ∈ chunk.map UInt8.toUInt64, d.toNat < 2 ^ 8 by
    intro d hd
    obtain ⟨b, -, rfl⟩ := List.mem_map.1 hd
    exact b.toNat_lt) (by simp; omega)).2
  refine List.ext_getElem? fun i ↦ ?_
  rcases Nat.lt_or_ge i chunk.length with hi | hi
  · have hb := hdigit i chunk[i].toUInt64 (by simp [hi])
    rw [List.getElem?_take_of_lt hi, List.getElem?_eq_getElem hi, toLeBytes, List.getElem?_map,
      List.getElem?_range (by omega), Option.map_some, hb, UInt8.toNat_toUInt64, UInt8.ofNat_toNat]
  · rw [List.getElem?_eq_none hi, List.getElem?_eq_none]
    rw [List.length_take]
    omega

@[simp] theorem length_toLeBytes (w : UInt64) : (toLeBytes w).length = 8 := by
  simp [toLeBytes]

theorem flatMap_toLeBytes_chunks (bytes : List UInt8) :
    ((((chunks 8 bytes).map fun chunk ↦ pack 8 (chunk.map UInt8.toUInt64)).flatMap
      toLeBytes).take bytes.length) = bytes := by
  induction h : bytes.length using Nat.strongRecOn generalizing bytes with
  | _ n ih =>
    rcases eq_or_ne bytes [] with rfl | hne
    · subst h
      rfl
    · have hpos : 0 < bytes.length := List.length_pos_iff.2 hne
      rw [chunks_cons (by decide) hne, List.map_cons, List.flatMap_cons]
      rcases Nat.lt_or_ge bytes.length 8 with hlt | hge
      · -- the last chunk, padded with zeros
        have htake : bytes.take 8 = bytes := List.take_of_length_le (Nat.le_of_lt hlt)
        rw [htake, List.take_append_of_le_length (by rw [length_toLeBytes]; omega), ← h]
        exact toLeBytes_pack (Nat.le_of_lt hlt)
      · have hlen : (bytes.take 8).length = 8 := by rw [List.length_take]; omega
        have hfull := toLeBytes_pack (Nat.le_of_eq hlen)
        rw [hlen, List.take_of_length_le (by simp)] at hfull
        rw [hfull, List.take_append, hlen, List.take_of_length_le (by omega),
          ih (n - 8) (by omega) (bytes.drop 8) (by rw [List.length_drop]; omega), List.take_append_drop]

theorem reads_bytes (bytes : List UInt8) : Reads Reader.bytes (encodeBytes bytes) bytes := by
  refine Reads.of_length_lt fun hlen ↦ ?_
  have hlt : bytes.length < 2 ^ 64 := by
    rw [encodeBytes, List.length_cons, List.length_map, length_chunks] at hlen
    omega
  intro s tail r hr
  rw [encodeBytes] at hr
  obtain ⟨r₁, hread, hr₁⟩ := reads_len hlt s _ r hr
  obtain ⟨r₂, htake, hr₂⟩ := hr₁.take (show _ = divCeil bytes.length 8 by simp [divCeil])
  refine ⟨r₂, ?_, hr₂⟩
  rw [Reader.bytes, hread, ok_bind]
  show (r₁.take (divCeil bytes.length 8) >>= _) = _
  rw [htake, ok_bind]
  show Except.ok (List.take _ _, r₂) = _
  rw [flatMap_toLeBytes_chunks]

/-! ### Word lists -/

theorem toNat_flagged (n : UInt32) (b : Bool) :
    (n.toUInt64 <<< 1 ||| b.toUInt64).toNat = b.toNat + n.toNat * 2 := by
  have hn := n.toNat_lt
  have hb : b.toUInt64.toNat = b.toNat := by cases b <;> rfl
  rw [UInt64.or_comm]
  have hlow : b.toUInt64.toNat < 2 ^ 1 := by
    rw [hb]
    exact b.toNat_lt
  have hhigh : n.toUInt64.toNat < 2 ^ 32 := by
    rw [UInt32.toNat_toUInt64]
    exact hn
  have h := toNat_or_shiftLeft hlow hhigh (by decide) (by decide)
  rw [hb, UInt32.toNat_toUInt64] at h
  exact h

/-- A word with a flag in its lowest bit gives both back. -/
theorem flagged (n : UInt32) (b : Bool) :
    ((n.toUInt64 <<< 1 ||| b.toUInt64) >>> 1).toNat = n.toNat ∧
      ((n.toUInt64 <<< 1 ||| b.toUInt64) &&& 1 ≠ 0 ↔ b = true) := by
  have h := toNat_flagged n b
  have hb := b.toNat_lt
  constructor
  · rw [UInt64.toNat_shiftRight, h, show (1 : UInt64).toNat % 64 = 1 from rfl, Nat.shiftRight_eq_div_pow]
    omega
  · have hand : ((n.toUInt64 <<< 1 ||| b.toUInt64) &&& 1).toNat = b.toNat := by
      rw [UInt64.toNat_and, h, show (1 : UInt64).toNat = 1 from rfl, Nat.and_one_is_mod]
      omega
    rw [ne_eq, ← UInt64.toNat_inj, hand]
    cases b <;> decide

theorem snapWord_payload (w : SnapWord) : snapWord w.tag.toNat w.payload = .ok w := by
  cases w with
  | raw v => rfl
  | ref index errBit =>
    obtain ⟨hshift, hbit⟩ := flagged index errBit
    show (if (_ : UInt64).toNat < 2 ^ 32 then _ else _) = _
    rw [if_pos (by rw [SnapWord.payload, hshift]; exact index.toNat_lt)]
    simp only [SnapWord.payload, hbit, Except.ok.injEq, SnapWord.ref.injEq]
    refine ⟨?_, by simp⟩
    rw [← UInt32.toNat_inj, UInt64.toNat_toUInt32, hshift]
    exact Nat.mod_eq_of_lt index.toNat_lt
  | unitEnum tag errBit =>
    obtain ⟨hshift, hbit⟩ := flagged tag errBit
    show Except.ok _ = _
    simp only [SnapWord.payload, hbit, Except.ok.injEq, SnapWord.unitEnum.injEq]
    refine ⟨?_, by simp⟩
    rw [← UInt32.toNat_inj, UInt64.toNat_toUInt32, hshift]
    exact Nat.mod_eq_of_lt tag.toNat_lt
  | emptyTuple errBit => cases errBit <;> rfl

theorem snapWords_payload {tags : List UInt64} (ws : List SnapWord) (i : ℕ)
    (htags : ∀ j w, ws[j]? = some w →
      ∃ t, tags[(i + j) / 32]? = some t ∧ digit 2 t ((i + j) % 32) = w.tag.toNat) :
    snapWords tags i (ws.map SnapWord.payload) = .ok ws := by
  induction ws generalizing i with
  | nil => rfl
  | cons w ws ih =>
    obtain ⟨t, ht, hdigit⟩ := htags 0 w rfl
    have hindex : index tags (i / 32) = .ok t := by
      rw [index, show i / 32 = (i + 0) / 32 from rfl, ht]
    have hrest := ih (i + 1) fun j v hv ↦ by
      rw [Nat.add_assoc, Nat.add_comm 1]
      exact htags (j + 1) v hv
    rw [List.map_cons, snapWords, hindex, ok_bind]
    show (snapWord (digit 2 t ((i + 0) % 32)) w.payload >>= _) = _
    rw [hdigit, snapWord_payload, ok_bind, hrest]
    rfl

theorem tag_lt (w : SnapWord) : w.tag.toNat < 2 ^ 2 := by
  cases w with
  | raw v => exact (by decide : (0 : UInt64).toNat < 2 ^ 2)
  | ref index errBit => exact (by decide : (1 : UInt64).toNat < 2 ^ 2)
  | unitEnum tag errBit => exact (by decide : (2 : UInt64).toNat < 2 ^ 2)
  | emptyTuple errBit => exact (by decide : (3 : UInt64).toNat < 2 ^ 2)

/-- Entry `j` finds its tag in the tag words. -/
theorem digit_tags {ws : List SnapWord} {j : ℕ} {w : SnapWord} (hj : ws[j]? = some w) :
    ∃ t, ((chunks 32 ws).map fun chunk ↦ pack 2 (chunk.map SnapWord.tag))[j / 32]? = some t ∧
      digit 2 t (j % 32) = w.tag.toNat := by
  obtain ⟨c, hc, hcj, hlen⟩ :=
    getElem?_chunks (show 0 < 32 by decide) (List.getElem?_eq_some_iff.1 hj).1
  refine ⟨_, by rw [List.getElem?_map, hc]; rfl, ?_⟩
  refine (digit_pack ?_ ?_).2 (j % 32) w.tag ?_
  · intro d hd
    obtain ⟨v, -, rfl⟩ := List.mem_map.1 hd
    exact tag_lt v
  · rw [List.length_map]
    omega
  · rw [List.getElem?_map, hcj, hj]
    rfl

theorem reads_words (ws : List SnapWord) : Reads Reader.words (encodeWords ws) ws := by
  refine Reads.of_length_lt fun hlen ↦ ?_
  have hlt : ws.length < 2 ^ 64 := by
    rw [encodeWords, List.length_append, List.length_map] at hlen
    omega
  intro s tail r hr
  rw [encodeWords, List.cons_append, List.cons_append, List.append_assoc] at hr
  obtain ⟨r₁, hread, hr₁⟩ := reads_len hlt s _ r hr
  obtain ⟨r₂, htags, hr₂⟩ := hr₁.take (show _ = divCeil ws.length 32 by simp [divCeil])
  obtain ⟨r₃, hpayload, hr₃⟩ := hr₂.take (List.length_map SnapWord.payload)
  refine ⟨r₃, ?_, hr₃⟩
  rw [Reader.words, hread, ok_bind]
  show (r₁.take (divCeil ws.length 32) >>= _) = _
  rw [htags, ok_bind]
  show (r₂.take ws.length >>= _) = _
  rw [hpayload, ok_bind]
  show (snapWords _ 0 _ >>= _) = _
  rw [snapWords_payload ws 0 fun j w hj ↦ by rw [Nat.zero_add]; exact digit_tags hj]
  rfl

/-! ### Objects -/

theorem toNat_header (kind aux extra : UInt64) (hkind : kind.toNat < 2 ^ 8) (haux : aux.toNat < 2 ^ 8)
    (hextra : extra.toNat < 2 ^ 32) :
    (header kind aux extra).toNat = kind.toNat + aux.toNat * 2 ^ 8 + extra.toNat * 2 ^ 32 := by
  have hlow : (kind ||| aux <<< 8).toNat = kind.toNat + aux.toNat * 2 ^ 8 :=
    toNat_or_shiftLeft hkind haux (by decide) (by decide)
  have hlt : (kind ||| aux <<< 8).toNat < 2 ^ 32 := by
    rw [hlow]
    omega
  have hall := toNat_or_shiftLeft hlt hextra (by decide) (by decide)
  rw [hlow] at hall
  exact hall

/-- The header gives back its kind, its auxiliary byte and its extra word. -/
theorem header_fields (kind aux extra : UInt64) (hkind : kind.toNat < 2 ^ 8)
    (haux : aux.toNat < 2 ^ 8) (hextra : extra.toNat < 2 ^ 32) :
    (header kind aux extra &&& 0xff).toNat = kind.toNat ∧
      (header kind aux extra >>> 8).toUInt8 = aux.toUInt8 ∧
      (header kind aux extra >>> 32).toUInt32 = extra.toUInt32 := by
  have h := toNat_header kind aux extra hkind haux hextra
  refine ⟨?_, ?_, ?_⟩
  · rw [UInt64.toNat_and, h, show (0xff : UInt64).toNat = 2 ^ 8 - 1 from rfl,
      Nat.and_two_pow_sub_one_eq_mod]
    omega
  · rw [← UInt8.toNat_inj, UInt64.toNat_toUInt8, UInt64.toNat_toUInt8, UInt64.toNat_shiftRight, h,
      show (8 : UInt64).toNat % 64 = 8 from rfl, Nat.shiftRight_eq_div_pow]
    omega
  · rw [← UInt32.toNat_inj, UInt64.toNat_toUInt32, UInt64.toNat_toUInt32, UInt64.toNat_shiftRight, h,
      show (32 : UInt64).toNat % 64 = 32 from rfl, Nat.shiftRight_eq_div_pow]
    omega

theorem fromUTF8?_toByteArray (s : String) :
    String.fromUTF8? ⟨s.toByteArray.data.toList.toArray⟩ = some s := by
  rw [Array.toArray_toList, String.fromUTF8?, dif_pos s.isValidUTF8]
  rfl

theorem reads_object (o : SnapObject) : Reads Reader.object (encodeObject o) o := by
  intro s tail r hr
  cases o with
  | string str =>
    rw [encodeObject, List.cons_append] at hr
    obtain ⟨r₁, hnext, hr₁⟩ := reads_next _ s _ r hr
    obtain ⟨r₂, hbytes, hr₂⟩ := reads_bytes _ s tail r₁ hr₁
    refine ⟨r₂, ?_, hr₂⟩
    have hkind : (header 0 0 0 &&& 0xff).toNat = 0 := rfl
    rw [Reader.object, hnext, ok_bind]
    simp only [hkind]
    rw [hbytes, ok_bind]
    simp only [fromUTF8?_toByteArray]
  | bytes b =>
    rw [encodeObject, List.cons_append] at hr
    obtain ⟨r₁, hnext, hr₁⟩ := reads_next _ s _ r hr
    obtain ⟨r₂, hbytes, hr₂⟩ := reads_bytes _ s tail r₁ hr₁
    refine ⟨r₂, ?_, hr₂⟩
    have hkind : (header 1 0 0 &&& 0xff).toNat = 1 := rfl
    rw [Reader.object, hnext, ok_bind]
    simp only [hkind]
    rw [hbytes, ok_bind]
  | array elemKind ws =>
    rw [encodeObject, List.cons_append] at hr
    obtain ⟨r₁, hnext, hr₁⟩ := reads_next _ s _ r hr
    obtain ⟨r₂, hwords, hr₂⟩ := reads_words _ s tail r₁ hr₁
    refine ⟨r₂, ?_, hr₂⟩
    obtain ⟨hkind, haux, -⟩ := header_fields 2 elemKind.toUInt64 0
      (by decide) elemKind.toNat_lt (by decide)
    rw [Reader.object, hnext, ok_bind]
    simp only [hkind, haux]
    show (r₁.words >>= _) = _
    rw [hwords, ok_bind]
    simp only [UInt8.toUInt8_toUInt64]
  | tuple kinds ws =>
    rw [encodeObject, List.cons_append] at hr
    obtain ⟨r₁, hnext, hr₁⟩ := reads_next _ s _ r hr
    obtain ⟨r₂, hwords, hr₂⟩ := reads_words _ s tail r₁ hr₁
    refine ⟨r₂, ?_, hr₂⟩
    obtain ⟨hkind, haux, -⟩ := header_fields 3 kinds.toUInt64 0
      (by decide) kinds.toNat_lt (by decide)
    rw [Reader.object, hnext, ok_bind]
    simp only [hkind, haux]
    show (r₁.words >>= _) = _
    rw [hwords, ok_bind]
    simp only [UInt8.toUInt8_toUInt64]
  | enum tag typeId kinds ws =>
    rw [encodeObject, List.cons_append, List.cons_append] at hr
    obtain ⟨r₁, hnext, hr₁⟩ := reads_next _ s _ r hr
    obtain ⟨r₂, hnext₂, hr₂⟩ := reads_next _ s _ r₁ hr₁
    obtain ⟨r₃, hwords, hr₃⟩ := reads_words _ s tail r₂ hr₂
    refine ⟨r₃, ?_, hr₃⟩
    obtain ⟨hkind, haux, hextra⟩ := header_fields 4 kinds.toUInt64 tag.toUInt64
      (by decide) kinds.toNat_lt tag.toNat_lt
    rw [Reader.object, hnext, ok_bind]
    simp only [hkind, haux, hextra]
    show (r₁.next >>= _) = _
    rw [hnext₂, ok_bind]
    show (r₂.words >>= _) = _
    rw [hwords, ok_bind]
    simp only [UInt8.toUInt8_toUInt64, UInt32.toUInt32_toUInt64]
  | «instance» typeId ws =>
    rw [encodeObject, List.cons_append] at hr
    obtain ⟨r₁, hnext, hr₁⟩ := reads_next _ s _ r hr
    obtain ⟨r₂, hwords, hr₂⟩ := reads_words _ s tail r₁ hr₁
    refine ⟨r₂, ?_, hr₂⟩
    obtain ⟨hkind, -, hextra⟩ := header_fields 5 0 typeId.toUInt64
      (by decide) (by decide) typeId.toNat_lt
    rw [Reader.object, hnext, ok_bind]
    simp only [hkind, hextra]
    show (r₁.words >>= _) = _
    rw [hwords, ok_bind]
    simp only [UInt32.toUInt32_toUInt64]
  | boxed tag w =>
    rw [encodeObject, List.cons_append] at hr
    obtain ⟨r₁, hnext, hr₁⟩ := reads_next _ s _ r hr
    obtain ⟨r₂, hwords, hr₂⟩ := reads_words _ s tail r₁ hr₁
    refine ⟨r₂, ?_, hr₂⟩
    obtain ⟨hkind, -, hextra⟩ := header_fields 6 0 tag.toUInt64
      (by decide) (by decide) (Nat.lt_trans tag.toNat_lt (by decide))
    have htag : tag.toUInt64.toUInt32.toUInt16 = tag := by
      rw [← UInt16.toNat_inj, UInt32.toNat_toUInt16, UInt64.toNat_toUInt32, UInt16.toNat_toUInt64]
      have := tag.toNat_lt
      omega
    rw [Reader.object, hnext, ok_bind]
    simp only [hkind, hextra]
    show (r₁.words >>= _) = _
    rw [hwords, ok_bind]
    simp only [htag]

theorem reads_objects (os : List SnapObject) :
    Reads (Reader.objects os.length) (os.flatMap encodeObject) os := by
  induction os with
  | nil => exact fun _ _ r hr ↦ ⟨r, rfl, hr⟩
  | cons o os ih =>
    intro s tail r hr
    rw [List.flatMap_cons, List.append_assoc] at hr
    obtain ⟨r₁, hobject, hr₁⟩ := reads_object o s _ r hr
    obtain ⟨r₂, hobjects, hr₂⟩ := ih s tail r₁ hr₁
    refine ⟨r₂, ?_, hr₂⟩
    rw [List.length_cons, Reader.objects, hobject, ok_bind]
    show (Reader.objects os.length r₁ >>= _) = _
    rw [hobjects]
    rfl

/-! ### Snapshots -/

theorem pairStatics_encode (statics : List (UInt32 × SnapWord)) :
    pairStatics (statics.map fun e ↦ e.1.toUInt64) (statics.map Prod.snd) = .ok statics := by
  induction statics with
  | nil => rfl
  | cons e statics ih =>
    have hslot : e.1.toUInt64.toNat < 2 ^ 32 := e.1.toNat_lt
    rw [List.map_cons, List.map_cons, pairStatics, if_pos hslot, ih, ok_bind, UInt32.toUInt32_toUInt64]

/-- Each object takes at least one word. -/
theorem length_le_flatMap_encodeObject (os : List SnapObject) :
    os.length ≤ (os.flatMap encodeObject).length := by
  induction os with
  | nil => exact Nat.le_refl _
  | cons o os ih =>
    have hone : 1 ≤ (encodeObject o).length := by
      cases o <;> exact Nat.succ_le_succ (Nat.zero_le _)
    rw [List.flatMap_cons, List.length_append, List.length_cons]
    omega

theorem length_le_encodeBody (s : HeapSnapshot) :
    s.statics.length ≤ s.encodeBody.length ∧ s.objects.length ≤ s.encodeBody.length := by
  have hobjects := length_le_flatMap_encodeObject s.objects
  rw [HeapSnapshot.encodeBody, List.length_append, List.length_append, List.length_map]
  omega

/-- Behind the header of the cut slice, the decoder reads the snapshot. -/
theorem decodeBody_encode {cut : Slice} {s : HeapSnapshot} (hcut : cut.words = s.encode)
    (hs : s.InRange) : decodeBody cut cut.words.length = .ok s := by
  have hlen : cut.words.length = headerWords + s.encodeBody.length := by
    rw [hcut, HeapSnapshot.encode, List.length_append]
    rfl
  have hbound := cut.length_lt
  obtain ⟨hstatics, hobjects⟩ := length_le_encodeBody s
  rw [headerWords] at hlen
  have hnObjects : (UInt64.ofNat s.objects.length).toNat = s.objects.length := by
    rw [UInt64.toNat_ofNat', Nat.mod_eq_of_lt (by omega)]
  have hnStatics : (UInt64.ofNat s.statics.length).toNat = s.statics.length := by
    rw [UInt64.toNat_ofNat', Nat.mod_eq_of_lt (by omega)]
  have htwo : index cut.words 2 = .ok (UInt64.ofNat s.objects.length) := by rw [hcut]; rfl
  have hthree : index cut.words 3 = .ok (UInt64.ofNat s.statics.length) := by rw [hcut]; rfl
  have hr : Sees cut (s.statics.map (fun e ↦ e.1.toUInt64) ++ (encodeWords (s.statics.map Prod.snd) ++
      (s.objects.flatMap encodeObject ++ []))) ⟨cut, headerWords⟩ := by
    refine ⟨[snapshotMagic, UInt64.ofNat (headerWords + s.encodeBody.length),
      UInt64.ofNat s.objects.length, UInt64.ofNat s.statics.length], ?_, rfl⟩
    rw [hcut, HeapSnapshot.encode, HeapSnapshot.encodeBody, List.append_nil, List.append_assoc]
  obtain ⟨r₁, hslots, hr₁⟩ := hr.take (List.length_map _)
  obtain ⟨r₂, hroots, hr₂⟩ := reads_words _ cut _ r₁ hr₁
  obtain ⟨r₃, hread, hr₃⟩ := reads_objects _ cut _ r₂ hr₂
  have hpos : r₃.pos = cut.words.length := by
    obtain ⟨front, hfront, rfl⟩ := hr₃
    rw [hfront, List.append_nil]
  rw [decodeBody, htwo, ok_bind, hthree, ok_bind, hnObjects, hnStatics]
  dsimp only
  rw [hslots, ok_bind]
  dsimp only
  rw [hroots, ok_bind]
  dsimp only
  rw [if_neg (not_not.2 (List.length_map _)), pairStatics_encode, ok_bind, if_neg (by omega), hread,
    ok_bind]
  dsimp only
  rw [if_neg (not_not.2 hpos), HeapSnapshot.checkRefs_eq_ok_iff.2 hs]
  rfl

/-- **Decoding what was encoded gives it back**, whatever words follow it. -/
theorem decode_encode (s : HeapSnapshot) (rest : List UInt64) (hs : s.InRange)
    (hbound : (s.encode ++ rest).length < 2 ^ 60) : decode ⟨s.encode ++ rest, hbound⟩ = .ok s := by
  have hlen : s.encode.length = headerWords + s.encodeBody.length := by
    rw [HeapSnapshot.encode, List.length_append]
    rfl
  have hle : s.encode.length ≤ (s.encode ++ rest).length := by
    rw [List.length_append]
    exact Nat.le_add_right _ _
  have htotal : (UInt64.ofNat (headerWords + s.encodeBody.length)).toNat = s.encode.length := by
    rw [UInt64.toNat_ofNat', Nat.mod_eq_of_lt (by omega), hlen]
  have hmin : headerWords ≤ (s.encode ++ rest).length := by omega
  have hdecode := decode_eq ⟨s.encode ++ rest, hbound⟩ rfl hmin rfl
  rw [hdecode, htotal]
  cases hcut : Slice.prefix? ⟨s.encode ++ rest, hbound⟩ s.encode.length with
  | none =>
    rw [Slice.prefix?, if_pos hle] at hcut
    cases hcut
  | some cut =>
    obtain ⟨htake, hcutLen⟩ := Slice.length_of_prefix? hcut
    have hbody := decodeBody_encode (htake.trans (List.take_left' rfl)) hs
    rw [hcutLen] at hbody
    exact hbody

/-- Two objects, one holding the other, a static slot that refers to them, and a word behind. -/
theorem decode_encode_sample :
    decode ⟨(⟨[.bytes [1, 2, 3], .array 0 [.ref 0 true]], [(7, .ref 1 false)]⟩ :
        HeapSnapshot).encode ++ [9], by decide⟩ =
      .ok ⟨[.bytes [1, 2, 3], .array 0 [.ref 0 true]], [(7, .ref 1 false)]⟩ :=
  decode_encode _ _ ⟨by simp [SnapWord.InRange], by simp [SnapWord.InRange, SnapObject.words]⟩ _

end CoilLang.SnapshotCodec
