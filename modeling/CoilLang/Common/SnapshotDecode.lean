import CoilLang.Common.SnapshotCodec

/-!
# Decoding untrusted words

The decoder of a heap snapshot runs on files, so it must answer for any words. Each read is shown to be
**free of panics** (`NoPanic`) from the one fact that it checks before it indexes: `Reader.next` and
`Reader.take` look before they move, and a word list has one tag word for every 32 entries.

The exception is the header. `decode` checks that four words are there, cuts the slice at the total
length the header claims, and then reads the words at 2 and 3 of what is left. **A claimed total below
four makes these reads run off the slice**, and that is the only panic (`decode_total_iff`).
-/

namespace CoilLang.SnapshotCodec

/-! ### Computations that do not panic -/

section NoPanic

variable {α β : Type}

/-- The computation returns, with a result or with an error. -/
def NoPanic (x : Except Stop α) : Prop := x ≠ .error .panic

theorem noPanic_ok (a : α) : NoPanic (.ok a) := by
  intro h
  cases h

theorem noPanic_error (e : SnapshotDecodeError) : NoPanic (.error (.error e) : Except Stop α) := by
  intro h
  cases h

theorem NoPanic.bind {x : Except Stop α} {f : α → Except Stop β} (hx : NoPanic x)
    (hf : ∀ a, x = .ok a → NoPanic (f a)) : NoPanic (x >>= f) := by
  cases x with
  | ok a => exact hf a rfl
  | error s =>
    intro h
    have hs : s = .panic := by cases h; rfl
    exact hx (congrArg _ hs)

theorem bind_eq_ok {x : Except Stop α} {f : α → Except Stop β} {b : β} (h : x >>= f = .ok b) :
    ∃ a, x = .ok a ∧ f a = .ok b := by
  cases x with
  | ok a => exact ⟨a, rfl, h⟩
  | error s => cases h

end NoPanic

theorem index_noPanic {words : List UInt64} {i : ℕ} (hi : i < words.length) :
    NoPanic (index words i) := by
  rw [index, List.getElem?_eq_getElem hi]
  exact noPanic_ok _

theorem index_panic {words : List UInt64} {i : ℕ} (hi : words.length ≤ i) :
    index words i = .error .panic := by
  rw [index, List.getElem?_eq_none hi]

/-! ### The reader -/

namespace Reader

/-- The position stays within the address space, because a word was read there. -/
theorem next_noPanic (r : Reader) : NoPanic r.next := by
  rw [next]
  split
  next w hw =>
    have hlt : r.pos < r.slice.words.length := (List.getElem?_eq_some_iff.1 hw).1
    have hslice := r.slice.length_lt
    have hadd : usizeAdd r.pos 1 = .ok (r.pos + 1) := if_pos (by omega)
    rw [hadd]
    exact noPanic_ok _
  next => exact noPanic_error _

theorem take_noPanic (r : Reader) (n : ℕ) : NoPanic (r.take n) := by
  rw [take]
  split
  · exact noPanic_ok _
  · exact noPanic_error _

theorem take_length {r r' : Reader} {n : ℕ} {l : List UInt64} (h : r.take n = .ok (l, r')) :
    l.length = n := by
  rw [take] at h
  split at h
  next hn =>
    cases h
    rw [List.length_take, List.length_drop]
    omega
  next => cases h

theorem len_noPanic (r : Reader) : NoPanic r.len :=
  r.next_noPanic.bind fun _ _ ↦ noPanic_ok _

theorem bytes_noPanic (r : Reader) : NoPanic r.bytes :=
  r.len_noPanic.bind fun p _ ↦ (p.2.take_noPanic _).bind fun _ _ ↦ noPanic_ok _

end Reader

theorem snapWord_noPanic (tag : ℕ) (raw : UInt64) : NoPanic (snapWord tag raw) := by
  unfold snapWord
  split
  · exact noPanic_ok _
  · split
    · exact noPanic_ok _
    · exact noPanic_error _
  · exact noPanic_ok _
  · exact noPanic_ok _

/-- Entry `i` finds its tag word as long as there is one for every 32 entries. -/
theorem snapWords_noPanic {tags : List UInt64} {i : ℕ} {payload : List UInt64}
    (h : divCeil (i + payload.length) 32 ≤ tags.length) : NoPanic (snapWords tags i payload) := by
  induction payload generalizing i with
  | nil => exact noPanic_ok _
  | cons raw payload ih =>
    rw [List.length_cons] at h
    have hi : i / 32 < tags.length := by
      rw [divCeil] at h
      omega
    have hrest : divCeil (i + 1 + payload.length) 32 ≤ tags.length := by
      rw [Nat.add_assoc, Nat.add_comm 1]
      exact h
    exact (index_noPanic hi).bind fun _ _ ↦ (snapWord_noPanic _ _).bind fun _ _ ↦
      (ih hrest).bind fun _ _ ↦ noPanic_ok _

namespace Reader

theorem words_noPanic (r : Reader) : NoPanic r.words := by
  refine r.len_noPanic.bind fun ⟨len, r₁⟩ _ ↦ ?_
  refine (r₁.take_noPanic _).bind fun ⟨tags, r₂⟩ htags ↦ ?_
  refine (r₂.take_noPanic _).bind fun ⟨payload, r₃⟩ hpayload ↦ ?_
  have hlen : divCeil (0 + payload.length) 32 = tags.length := by
    rw [Nat.zero_add, take_length hpayload, take_length htags]
  exact (snapWords_noPanic (Nat.le_of_eq hlen)).bind fun _ _ ↦ noPanic_ok _

theorem object_noPanic (r : Reader) : NoPanic r.object := by
  refine r.next_noPanic.bind fun ⟨header, r₁⟩ _ ↦ ?_
  dsimp only
  split
  · refine r₁.bytes_noPanic.bind fun ⟨b, r₂⟩ _ ↦ ?_
    dsimp only
    split
    · exact noPanic_ok _
    · exact noPanic_error _
  · exact r₁.bytes_noPanic.bind fun _ _ ↦ noPanic_ok _
  · exact r₁.words_noPanic.bind fun _ _ ↦ noPanic_ok _
  · exact r₁.words_noPanic.bind fun _ _ ↦ noPanic_ok _
  · exact r₁.next_noPanic.bind fun p _ ↦ p.2.words_noPanic.bind fun _ _ ↦ noPanic_ok _
  · exact r₁.words_noPanic.bind fun _ _ ↦ noPanic_ok _
  · refine r₁.words_noPanic.bind fun ⟨ws, r₂⟩ _ ↦ ?_
    dsimp only
    split
    · exact noPanic_ok _
    · exact noPanic_error _
  · exact noPanic_error _

theorem objects_noPanic (n : ℕ) (r : Reader) : NoPanic (objects n r) := by
  induction n generalizing r with
  | zero => exact noPanic_ok _
  | succ n ih =>
    exact r.object_noPanic.bind fun p _ ↦ (ih p.2).bind fun _ _ ↦ noPanic_ok _

end Reader

theorem pairStatics_noPanic (slots : List UInt64) (ws : List SnapWord) :
    NoPanic (pairStatics slots ws) := by
  induction slots generalizing ws with
  | nil => exact noPanic_ok _
  | cons slot slots ih =>
    cases ws with
    | nil => exact noPanic_ok _
    | cons w ws =>
      rw [pairStatics]
      split
      · exact (ih ws).bind fun _ _ ↦ noPanic_ok _
      · exact noPanic_error _

/-! ### References -/

/-- The word refers to one of `n` objects, if it is a reference. -/
def SnapWord.InRange (n : ℕ) : SnapWord → Prop
  | .ref index _ => index.toNat < n
  | _ => True

/-- **Every reference names an object**: those of the roots and those of the objects. -/
structure HeapSnapshot.InRange (s : HeapSnapshot) : Prop where
  statics : ∀ e ∈ s.statics, e.2.InRange s.objects.length
  objects : ∀ o ∈ s.objects, ∀ w ∈ o.words, w.InRange s.objects.length

theorem checkWord_noPanic (n : ℕ) (w : SnapWord) : NoPanic (checkWord n w) := by
  unfold checkWord
  split
  · split
    · exact noPanic_ok _
    · exact noPanic_error _
  · exact noPanic_ok _

theorem checkWord_eq_ok_iff {n : ℕ} {w : SnapWord} : checkWord n w = .ok () ↔ w.InRange n := by
  cases w with
  | ref index errBit =>
    show (if index.toNat < n then _ else _) = _ ↔ index.toNat < n
    by_cases h : index.toNat < n
    · simp [h]
    · simp [h]
  | raw v => exact ⟨fun _ ↦ trivial, fun _ ↦ rfl⟩
  | unitEnum tag errBit => exact ⟨fun _ ↦ trivial, fun _ ↦ rfl⟩
  | emptyTuple errBit => exact ⟨fun _ ↦ trivial, fun _ ↦ rfl⟩

theorem checkWords_noPanic (n : ℕ) (ws : List SnapWord) : NoPanic (checkWords n ws) := by
  induction ws with
  | nil => exact noPanic_ok _
  | cons w ws ih => exact (checkWord_noPanic n w).bind fun _ _ ↦ ih

theorem checkWords_eq_ok_iff {n : ℕ} {ws : List SnapWord} :
    checkWords n ws = .ok () ↔ ∀ w ∈ ws, w.InRange n := by
  induction ws with
  | nil => exact ⟨fun _ w hw ↦ absurd hw List.not_mem_nil, fun _ ↦ rfl⟩
  | cons w ws ih =>
    rw [List.forall_mem_cons, ← ih, ← checkWord_eq_ok_iff]
    constructor
    · intro h
      obtain ⟨⟨⟩, hw, hws⟩ := bind_eq_ok h
      exact ⟨hw, hws⟩
    · rintro ⟨hw, hws⟩
      rw [checkWords, hw]
      exact hws

theorem HeapSnapshot.checkRefs_noPanic (s : HeapSnapshot) : NoPanic s.checkRefs :=
  (checkWords_noPanic _ _).bind fun _ _ ↦ checkWords_noPanic _ _

theorem HeapSnapshot.checkRefs_eq_ok_iff {s : HeapSnapshot} :
    s.checkRefs = .ok () ↔ s.InRange := by
  have hstatics : checkWords s.objects.length (s.statics.map Prod.snd) = .ok () ↔
      ∀ e ∈ s.statics, e.2.InRange s.objects.length := by
    rw [checkWords_eq_ok_iff, List.forall_mem_map]
  have hobjects : checkWords s.objects.length (s.objects.flatMap SnapObject.words) = .ok () ↔
      ∀ o ∈ s.objects, ∀ w ∈ o.words, w.InRange s.objects.length := by
    simp only [checkWords_eq_ok_iff, List.mem_flatMap]
    exact ⟨fun h o ho w hw ↦ h w ⟨o, ho, hw⟩, fun h w ⟨o, ho, hw⟩ ↦ h o ho w hw⟩
  constructor
  · intro h
    obtain ⟨⟨⟩, h₁, h₂⟩ := bind_eq_ok h
    exact ⟨hstatics.1 h₁, hobjects.1 h₂⟩
  · intro h
    rw [checkRefs, hstatics.2 h.statics]
    exact hobjects.2 h.objects

/-! ### The decoder -/

theorem decodeBody_noPanic {words : Slice} (total : ℕ) (h : headerWords ≤ words.words.length) :
    NoPanic (decodeBody words total) := by
  rw [headerWords] at h
  refine (index_noPanic (by omega)).bind fun nObjects _ ↦ ?_
  refine (index_noPanic (by omega)).bind fun nStatics _ ↦ ?_
  refine (Reader.take_noPanic _ _).bind fun ⟨slots, r₁⟩ _ ↦ ?_
  refine r₁.words_noPanic.bind fun ⟨roots, r₂⟩ _ ↦ ?_
  dsimp only
  split
  · exact noPanic_error _
  · refine (pairStatics_noPanic _ _).bind fun statics _ ↦ ?_
    split
    · exact noPanic_error _
    · refine (Reader.objects_noPanic _ _).bind fun ⟨objects, r₃⟩ _ ↦ ?_
      dsimp only
      split
      · exact noPanic_error _
      · exact (HeapSnapshot.checkRefs_noPanic _).bind fun _ _ ↦ noPanic_ok _

theorem decodeBody_inRange {words : Slice} {total : ℕ} {s : HeapSnapshot}
    (h : decodeBody words total = .ok s) : s.InRange := by
  obtain ⟨nObjects, -, h⟩ := bind_eq_ok h
  obtain ⟨nStatics, -, h⟩ := bind_eq_ok h
  obtain ⟨⟨slots, r₁⟩, -, h⟩ := bind_eq_ok h
  obtain ⟨⟨roots, r₂⟩, -, h⟩ := bind_eq_ok h
  dsimp only at h
  split at h
  · cases h
  · obtain ⟨statics, -, h⟩ := bind_eq_ok h
    split at h
    · cases h
    · obtain ⟨⟨objects, r₃⟩, -, h⟩ := bind_eq_ok h
      dsimp only at h
      split at h
      · cases h
      · obtain ⟨⟨⟩, hrefs, h⟩ := bind_eq_ok h
        cases h
        exact HeapSnapshot.checkRefs_eq_ok_iff.1 hrefs

/-- The claimed total leaves out the counts of the header. -/
def ShortTotal (words : List UInt64) : Prop :=
  words.head? = some snapshotMagic ∧ headerWords ≤ words.length ∧
    ∃ total, words[1]? = some total ∧ total.toNat < headerWords

theorem index_one {words : Slice} (h : headerWords ≤ words.words.length) :
    ∃ total, words.words[1]? = some total ∧ index words.words 1 = .ok total := by
  have hone : 1 < words.words.length := Nat.lt_of_lt_of_le (by decide) h
  have hget := List.getElem?_eq_getElem hone
  refine ⟨_, hget, ?_⟩
  rw [index, hget]

theorem Slice.length_of_prefix? {words cut : Slice} {n : ℕ} (h : words.prefix? n = some cut) :
    cut.words = words.words.take n ∧ cut.words.length = n := by
  rw [Slice.prefix?] at h
  split at h
  next hle =>
    cases h
    exact ⟨rfl, List.length_take_of_le hle⟩
  next => cases h

/-- Past the checks of the header, the decoder reads the slice up to the claimed total. -/
theorem decode_eq (words : Slice) {total : UInt64} (hmagic : words.words.head? = some snapshotMagic)
    (hlen : headerWords ≤ words.words.length) (htotal : words.words[1]? = some total) :
    decode words = match words.prefix? total.toNat with
      | none => .error (.error .truncated)
      | some cut => decodeBody cut total.toNat := by
  have hindex : index words.words 1 = .ok total := by rw [index, htotal]
  rw [decode, if_neg (not_not.2 hmagic), if_neg (Nat.not_lt.2 hlen), hindex]
  rfl

theorem decode_cases (words : Slice) :
    (∃ e, decode words = .error (.error e)) ∨
      words.words.head? = some snapshotMagic ∧ headerWords ≤ words.words.length ∧
        ∃ total cut, words.words[1]? = some total ∧ cut.words.length = total.toNat ∧
          decode words = decodeBody cut total.toNat := by
  by_cases hmagic : words.words.head? = some snapshotMagic
  · rcases Nat.lt_or_ge words.words.length headerWords with hshort | hlen
    · refine .inl ⟨.truncated, ?_⟩
      rw [decode, if_neg (not_not.2 hmagic), if_pos hshort]
    · obtain ⟨total, htotal, -⟩ := index_one hlen
      have hdecode := decode_eq words hmagic hlen htotal
      cases hcut : words.prefix? total.toNat with
      | none =>
        rw [hcut] at hdecode
        exact .inl ⟨_, hdecode⟩
      | some cut =>
        rw [hcut] at hdecode
        exact .inr ⟨hmagic, hlen, total, cut, htotal, (Slice.length_of_prefix? hcut).2, hdecode⟩
  · refine .inl ⟨.badMagic, ?_⟩
    rw [decode, if_pos hmagic]

/-- A slice that ends before word 3 makes the reads of the counts run off it. -/
theorem decodeBody_panic {words : Slice} (total : ℕ) (h : words.words.length < headerWords) :
    decodeBody words total = .error .panic := by
  rw [headerWords] at h
  rw [decodeBody]
  rcases Nat.lt_or_ge 2 words.words.length with htwo | htwo
  · have h₂ : index words.words 2 = .ok words.words[2] := by
      rw [index, List.getElem?_eq_getElem htwo]
    rw [h₂, index_panic (by omega)]
    rfl
  · rw [index_panic htwo]
    rfl

theorem decode_panic_of_shortTotal {words : Slice} (h : ShortTotal words.words) :
    decode words = .error .panic := by
  obtain ⟨hmagic, hlen, total, htotal, hshort⟩ := h
  rw [decode_eq words hmagic hlen htotal]
  have hle : total.toNat ≤ words.words.length := by omega
  cases hcut : words.prefix? total.toNat with
  | none =>
    rw [Slice.prefix?, if_pos hle] at hcut
    cases hcut
  | some cut =>
    refine decodeBody_panic _ ?_
    rw [(Slice.length_of_prefix? hcut).2]
    exact hshort

theorem decode_noPanic_of_not_shortTotal {words : Slice} (h : ¬ShortTotal words.words) :
    NoPanic (decode words) := by
  rcases decode_cases words with ⟨e, he⟩ | ⟨hmagic, hlen, total, cut, htotal, hcut, hdecode⟩
  · rw [he]
    exact noPanic_error e
  · rw [hdecode]
    refine decodeBody_noPanic _ ?_
    rw [hcut]
    exact Nat.le_of_not_lt fun hshort ↦ h ⟨hmagic, hlen, total, htotal, hshort⟩

theorem decode_inRange {words : Slice} {s : HeapSnapshot} (h : decode words = .ok s) :
    s.InRange := by
  rcases decode_cases words with ⟨e, he⟩ | ⟨-, -, total, cut, -, -, hdecode⟩
  · rw [he] at h
    cases h
  · rw [hdecode] at h
    exact decodeBody_inRange h

/-- **Decoding answers for every words, and what it accepts refers to its own objects, except that a
claimed total below the header's four words makes it panic.** -/
theorem decode_total_iff (words : Slice) :
    (decode words ≠ .error .panic ∧ ∀ s, decode words = .ok s → s.InRange) ↔
      ¬(words.words.head? = some snapshotMagic ∧ 4 ≤ words.words.length ∧
        ∃ total, words.words[1]? = some total ∧ total.toNat < 4) := by
  constructor
  · rintro ⟨hpanic, -⟩ hshort
    exact hpanic (decode_panic_of_shortTotal hshort)
  · intro h
    exact ⟨decode_noPanic_of_not_shortTotal h, fun _ hs ↦ decode_inRange hs⟩

/-- Four words that claim to be two. -/
theorem decode_panics_on_short_total :
    ¬∀ words : Slice, decode words ≠ .error .panic ∧
      ∀ s, decode words = .ok s → s.InRange := by
  intro h
  exact (h ⟨[snapshotMagic, 2, 0, 0], by decide⟩).1 rfl

end CoilLang.SnapshotCodec
