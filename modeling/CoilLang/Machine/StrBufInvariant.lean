import CoilLang.Machine.StrBuf

/-!
# What keeps shared strings apart

The relation between the buffers and the immutable strings they stand for (`Inv`). Its core is about the
calls of `concat` that have claimed bytes and not yet copied them: **the claim is the tail of its buffer, no
string reaches into it, none of its bytes has been written, and no other call has one there**. A
string that ends where the claimed bytes end can then extend its buffer without any other string
noticing.

There is one lemma for each thing a step does: a string is added, a buffer is added, a handle is added,
bytes are claimed, bytes are written, a call ends, a string goes away.
-/

namespace CoilLang.StrBuf

namespace State

variable {s : State} {b b' i : ℕ} {buf : SharedBuf} {v : StrData}

/-! ### Lookups after updates -/

theorem lt_of_buf? (h : s.buf? b = some buf) : b < s.bufs.length := by
  rw [buf?, Option.join_eq_some_iff] at h
  exact (List.getElem?_eq_some_iff.1 h).1

theorem lt_of_val? (h : s.val? i = some v) : i < s.vals.length := by
  rw [val?, Option.join_eq_some_iff] at h
  exact (List.getElem?_eq_some_iff.1 h).1

theorem lt_of_call? {k : ℕ} {p : Pending} (h : s.call? k = some p) : k < s.calls.length := by
  rw [call?, Option.join_eq_some_iff] at h
  exact (List.getElem?_eq_some_iff.1 h).1

theorem buf?_setBuf (s : State) (b b' : ℕ) (x : Option SharedBuf) (h : b < s.bufs.length) :
    (s.setBuf b x).buf? b' = if b' = b then x else s.buf? b' := by
  rw [buf?, setBuf, List.getElem?_set]
  by_cases hb : b = b'
  · rw [if_pos hb, if_pos h, if_pos hb.symm]
    rfl
  · rw [if_neg hb, if_neg (fun he ↦ hb he.symm)]
    rfl

theorem val?_push (j : ℕ) : (s.push v).val? j = if j = s.vals.length then some v else s.val? j := by
  rw [val?, push]
  rcases Nat.lt_trichotomy j s.vals.length with hlt | rfl | hgt
  · rw [List.getElem?_append_left hlt, if_neg (Nat.ne_of_lt hlt)]
    rfl
  · rw [List.getElem?_concat_length, if_pos rfl]
    rfl
  · rw [List.getElem?_eq_none (by simp; omega), if_neg (Nat.ne_of_gt hgt), val?,
      List.getElem?_eq_none (Nat.le_of_lt hgt)]

theorem val?_push_of_some (h : s.val? i = some v) (w : StrData) : (s.push w).val? i = some v := by
  rw [val?_push, if_neg (Nat.ne_of_lt (lt_of_val? h))]
  exact h

@[simp] theorem buf?_push : (s.push v).buf? b = s.buf? b := rfl

@[simp] theorem call?_push {k : ℕ} : (s.push v).call? k = s.call? k := rfl

@[simp] theorem asStr_push (w : StrData) : (s.push v).asStr w = s.asStr w := by
  cases w <;> rfl

@[simp] theorem val?_setBuf (x : Option SharedBuf) : (s.setBuf b x).val? i = s.val? i := rfl

@[simp] theorem call?_setBuf (x : Option SharedBuf) {k : ℕ} : (s.setBuf b x).call? k = s.call? k := rfl

/-- The contents of a string depend on the bytes it covers. -/
theorem asStr_congr {s' : State} (v : StrData)
    (h : ∀ b start len acc, v = .shared b start len acc → ∃ buf buf', s.buf? b = some buf ∧
      s'.buf? b = some buf' ∧ ∀ n < start + len, buf'.bytes[n]? = buf.bytes[n]?) :
    s'.asStr v = s.asStr v := by
  cases v with
  | inline len bytes => rfl
  | owned t => rfl
  | shared b start len acc =>
    obtain ⟨buf, buf', hbuf, hbuf', hsame⟩ := h b start len acc rfl
    have hcells : (buf'.bytes.drop start).take len = (buf.bytes.drop start).take len := by
      refine List.ext_getElem? fun n ↦ ?_
      rcases Nat.lt_or_ge n len with hlt | hge
      · rw [List.getElem?_take_of_lt hlt, List.getElem?_take_of_lt hlt, List.getElem?_drop,
          List.getElem?_drop, hsame _ (by omega)]
      · rw [List.getElem?_eq_none (by simp; omega), List.getElem?_eq_none (by simp; omega)]
    show (s'.buf? b >>= _) = (s.buf? b >>= _)
    rw [hbuf, hbuf']
    show (if ((buf'.bytes.drop start).take len).length = len then _ else _) = _
    rw [hcells]
    rfl

theorem mapM_id_eq_some_iff {cells : List (Option UInt8)} {t : List UInt8} :
    cells.mapM id = some t ↔ cells = t.map some := by
  induction cells generalizing t with
  | nil =>
    cases t with
    | nil => exact ⟨fun _ ↦ rfl, fun _ ↦ rfl⟩
    | cons x t => exact ⟨fun h ↦ (by cases h), fun h ↦ (by cases h)⟩
  | cons c cells ih =>
    rw [List.mapM_cons]
    cases c with
    | none =>
      refine ⟨fun h ↦ (by cases h), fun h ↦ ?_⟩
      cases t <;> cases h
    | some x =>
      show (cells.mapM id >>= fun r ↦ some (x :: r)) = some t ↔ _
      cases t with
      | nil =>
        refine ⟨fun h ↦ ?_, fun h ↦ (by cases h)⟩
        cases hm : cells.mapM id with
        | none => rw [hm] at h; cases h
        | some r => rw [hm] at h; cases h
      | cons y t =>
        rw [List.map_cons, List.cons.injEq, Option.some.injEq, ← ih]
        cases hm : cells.mapM id with
        | none => exact ⟨fun h ↦ (by cases h), fun h ↦ (by cases h.2)⟩
        | some r =>
          show some (x :: r) = some (y :: t) ↔ _
          rw [Option.some.injEq, List.cons.injEq, Option.some.injEq]

/-- A shared string with contents covers written bytes. -/
theorem asStr_shared_iff {start len acc : ℕ} {t : List UInt8} :
    s.asStr (.shared b start len acc) = some t ↔
      ∃ buf, s.buf? b = some buf ∧ (buf.bytes.drop start).take len = t.map some ∧ t.length = len := by
  show (s.buf? b >>= fun buf ↦ if ((buf.bytes.drop start).take len).length = len then
    ((buf.bytes.drop start).take len).mapM id else none) = some t ↔ _
  cases hbuf : s.buf? b with
  | none => exact ⟨fun h ↦ (by cases h), fun ⟨buf, h, _⟩ ↦ (by cases h)⟩
  | some buf =>
    show (if ((buf.bytes.drop start).take len).length = len then _ else _) = some t ↔ _
    constructor
    · intro h
      split at h
      next hlen =>
        have hcells := mapM_id_eq_some_iff.1 h
        rw [hcells, List.length_map] at hlen
        exact ⟨buf, rfl, hcells, hlen⟩
      next => cases h
    · rintro ⟨_, hbuf', hcells, hlen⟩
      cases hbuf'
      rw [hcells, List.length_map, if_pos hlen]
      exact mapM_id_eq_some_iff.2 rfl

/-- The strings that hold a handle of buffer `b`. -/
def holds (b : ℕ) : Option StrData → Bool
  | some (.shared b' _ _ _) => b' = b
  | _ => false

/-- How many handles of buffer `b` there are. -/
def handles (s : State) (b : ℕ) : ℕ := s.vals.countP (holds b)

theorem handles_push : (s.push v).handles b = s.handles b + if holds b (some v) then 1 else 0 := by
  rw [handles, push, List.countP_append, List.countP_singleton]
  rfl

theorem handles_pos {start len acc : ℕ} (h : s.val? i = some (.shared b start len acc)) :
    0 < s.handles b := by
  have hmem : some (.shared b start len acc) ∈ s.vals :=
    List.mem_of_getElem? (Option.join_eq_some_iff.1 h)
  exact List.countP_pos_iff.2 ⟨_, hmem, by simp [holds]⟩

/-- A call has claimed a non-empty range of bytes. -/
def Claims (s : State) (k : ℕ) (c : Claim) : Prop :=
  ∃ p, s.call? k = some p ∧ p.claim = some c ∧ 0 < c.n

end State

/-! ### The relation -/

/-- The buffers hold the immutable strings. -/
structure Inv (s : State) (a : ImmStrings) : Prop where
  vals_length : a.vals.length = s.vals.length
  calls_length : a.calls.length = s.calls.length
  /-- a string has its contents -/
  contents : ∀ i v, s.val? i = some v → ∃ t, a.vals[i]? = some t ∧ s.asStr v = some t
  /-- a shared string lies below `used` -/
  bound : ∀ i b start len acc, s.val? i = some (.shared b start len acc) →
    ∃ buf, s.buf? b = some buf ∧ start + len ≤ buf.used
  room : ∀ b buf, s.buf? b = some buf → buf.used ≤ buf.cap ∧ buf.bytes.length = buf.cap
  refs : ∀ b buf, s.buf? b = some buf → buf.refs = s.handles b
  /-- bytes from `used` on have not been written -/
  unwritten : ∀ b buf n x, s.buf? b = some buf → buf.bytes[n]? = some (some x) → n < buf.used
  /-- a call has its operands, and its claim starts where the first one ends -/
  call : ∀ k p, s.call? k = some p → ∃ v w h t, s.val? p.head = some v ∧ s.tail? p.tail = some w ∧
    s.asStr v = some h ∧ s.asStr w = some t ∧ a.calls[k]? = some (h ++ t) ∧
    ∀ c, p.claim = some c → inlineMax < h.length + t.length ∧ h.length + t.length < 2 ^ 32 ∧
      c.n = t.length ∧ ∃ start len acc, v = .shared c.buf start len acc ∧ c.start = start + len
  /-- a claim is the tail of its buffer, nothing reaches into it, and nothing is written there -/
  claim : ∀ k c, s.Claims k c → ∃ buf, s.buf? c.buf = some buf ∧ buf.used = c.start + c.n ∧
    (∀ i start len acc, s.val? i = some (.shared c.buf start len acc) → start + len ≤ c.start) ∧
    ∀ n x, buf.bytes[n]? = some (some x) → n < c.start
  /-- no two calls claim bytes of one buffer -/
  unique : ∀ k k' c c', s.Claims k c → s.Claims k' c' → c.buf = c'.buf → k = k'

theorem inv_init : Inv State.init ImmStrings.init where
  vals_length := rfl
  calls_length := rfl
  contents := fun i _ h ↦ absurd (State.lt_of_val? h) (Nat.not_lt_zero i)
  bound := fun i _ _ _ _ h ↦ absurd (State.lt_of_val? h) (Nat.not_lt_zero i)
  room := fun b _ h ↦ absurd (State.lt_of_buf? h) (Nat.not_lt_zero b)
  refs := fun b _ h ↦ absurd (State.lt_of_buf? h) (Nat.not_lt_zero b)
  unwritten := fun b _ _ _ h ↦ absurd (State.lt_of_buf? h) (Nat.not_lt_zero b)
  call := fun k _ h ↦ absurd (State.lt_of_call? h) (Nat.not_lt_zero k)
  claim := fun k _ ⟨_, h, _⟩ ↦ absurd (State.lt_of_call? h) (Nat.not_lt_zero k)
  unique := fun k _ _ _ ⟨_, h, _⟩ ↦ absurd (State.lt_of_call? h) (Nat.not_lt_zero k)

section Steps

variable {s s₁ : State} {a : ImmStrings}

/-- Every string is still there, with the same contents. -/
def Same (s s₁ : State) : Prop := ∀ i v, s.val? i = some v → s₁.val? i = some v ∧ s₁.asStr v = s.asStr v

theorem Same.tail (h : Same s s₁) {tail : Tail} {w : StrData} (hw : s.tail? tail = some w) :
    s₁.tail? tail = some w ∧ s₁.asStr w = s.asStr w := by
  cases tail with
  | text t =>
    obtain rfl : .owned t = w := Option.some.inj hw
    exact ⟨rfl, rfl⟩
  | value i => exact h i w hw

/-- A call keeps its operands where every string keeps its contents. -/
theorem Inv.call_of_same (hinv : Inv s a) (h : Same s s₁) {k : ℕ} {p : Pending}
    (hp : s.call? k = some p) :
    ∃ v w h t, s₁.val? p.head = some v ∧ s₁.tail? p.tail = some w ∧ s₁.asStr v = some h ∧
      s₁.asStr w = some t ∧ a.calls[k]? = some (h ++ t) ∧
      ∀ c, p.claim = some c → inlineMax < h.length + t.length ∧ h.length + t.length < 2 ^ 32 ∧
        c.n = t.length ∧ ∃ start len acc, v = .shared c.buf start len acc ∧ c.start = start + len := by
  obtain ⟨v, w, hd, t, hv, hw, hhd, ht, hcall, hclaim⟩ := hinv.call k p hp
  obtain ⟨hv', hsv⟩ := h _ v hv
  obtain ⟨hw', hsw⟩ := h.tail hw
  exact ⟨v, w, hd, t, hv', hw', hsv.trans hhd, hsw.trans ht, hcall, hclaim⟩

/-- Strings keep their contents where buffers keep the bytes below the ends of their strings. -/
theorem Inv.same_of_bytes (hinv : Inv s a) (hvals : s₁.vals = s.vals)
    (hbytes : ∀ i b start len acc buf, s.val? i = some (.shared b start len acc) →
      s.buf? b = some buf → ∃ buf₁, s₁.buf? b = some buf₁ ∧
        ∀ n < start + len, buf₁.bytes[n]? = buf.bytes[n]?) : Same s s₁ := by
  intro i v hv
  refine ⟨by rw [State.val?, hvals]; exact hv, State.asStr_congr v ?_⟩
  rintro b start len acc rfl
  obtain ⟨buf, hbuf, -⟩ := hinv.bound i b start len acc hv
  obtain ⟨buf₁, hbuf₁, hsame⟩ := hbytes i b start len acc buf hv hbuf
  exact ⟨buf, buf₁, hbuf, hbuf₁, hsame⟩

theorem same_push (v : StrData) : Same s (s.push v) := fun _ w hw ↦
  ⟨State.val?_push_of_some hw v, State.asStr_push w⟩

theorem Same.trans {s₂ : State} (h₁ : Same s s₁) (h₂ : Same s₁ s₂) : Same s s₂ := by
  intro i v hv
  obtain ⟨hv₁, hs₁⟩ := h₁ i v hv
  obtain ⟨hv₂, hs₂⟩ := h₂ i v hv₁
  exact ⟨hv₂, hs₂.trans hs₁⟩

/-! ### Adding a string -/

/-- A string is added to a state whose buffers are those of `s`, up to handles and new ones. -/
theorem Inv.add (hinv : Inv s a) {v : StrData} {t : List UInt8} (hvals : s₁.vals = s.vals)
    (hcalls : s₁.calls = s.calls)
    (hold : ∀ b buf, s.buf? b = some buf →
      ∃ buf₁, s₁.buf? b = some buf₁ ∧ buf₁.used = buf.used ∧ buf₁.bytes = buf.bytes)
    (hnew : ∀ b buf₁, s₁.buf? b = some buf₁ → buf₁.used ≤ buf₁.cap ∧ buf₁.bytes.length = buf₁.cap ∧
      buf₁.refs = s.handles b + (if State.holds b (some v) then 1 else 0) ∧
      ∀ n x, buf₁.bytes[n]? = some (some x) → n < buf₁.used)
    (hv : s₁.asStr v = some t)
    (hshared : ∀ b start len acc, v = .shared b start len acc →
      (∃ buf₁, s₁.buf? b = some buf₁ ∧ start + len ≤ buf₁.used) ∧
        ∀ k c, s.Claims k c → c.buf = b → start + len ≤ c.start) :
    Inv (s₁.push v) (a.push t).1 := by
  have hval : ∀ i, s₁.val? i = s.val? i := fun i ↦ by rw [State.val?, State.val?, hvals]
  have hcall : ∀ k, (s₁.push v).call? k = s.call? k := fun k ↦ by
    rw [State.call?_push, State.call?, State.call?, hcalls]
  have hsame : Same s (s₁.push v) := by
    refine (hinv.same_of_bytes hvals ?_).trans (same_push v)
    intro i b start len acc buf _ hbuf
    obtain ⟨buf₁, hbuf₁, -, hbytes⟩ := hold b buf hbuf
    exact ⟨buf₁, hbuf₁, fun n _ ↦ by rw [hbytes]⟩
  have hclaims : ∀ k c, (s₁.push v).Claims k c → s.Claims k c := by
    rintro k c ⟨p, hp, hrest⟩
    exact ⟨p, (hcall k).symm.trans hp, hrest⟩
  have hlen : s₁.vals.length = s.vals.length := by rw [hvals]
  -- a string of the new state is the new one or an old one
  have hcases : ∀ i w, (s₁.push v).val? i = some w → i = s.vals.length ∧ w = v ∨ s.val? i = some w := by
    intro i w hw
    rw [State.val?_push, hlen] at hw
    split at hw
    next hi => exact .inl ⟨hi, (Option.some.inj hw).symm⟩
    next => exact .inr ((hval i).symm.trans hw)
  refine ⟨?_, ?_, ?_, ?_, ?_, ?_, ?_, ?_, ?_, ?_⟩
  · show (a.vals ++ [t]).length = (s₁.vals ++ [some v]).length
    rw [List.length_append, List.length_append, hinv.vals_length, hlen]
    rfl
  · show a.calls.length = s₁.calls.length
    rw [hinv.calls_length, hcalls]
  · intro i w hw
    rcases hcases i w hw with ⟨rfl, rfl⟩ | hw'
    · refine ⟨t, ?_, by rw [State.asStr_push]; exact hv⟩
      show (a.vals ++ [t])[s.vals.length]? = some t
      rw [← hinv.vals_length, List.getElem?_concat_length]
    · obtain ⟨t', ht', hs⟩ := hinv.contents i w hw'
      refine ⟨t', ?_, (hsame i w hw').2.trans hs⟩
      show (a.vals ++ [t])[i]? = some t'
      rw [List.getElem?_append_left (List.getElem?_eq_some_iff.1 ht').1]
      exact ht'
  · intro i b start len acc hw
    rcases hcases i _ hw with ⟨-, hv'⟩ | hw'
    · exact (hshared b start len acc hv'.symm).1
    · obtain ⟨buf, hbuf, hle⟩ := hinv.bound i b start len acc hw'
      obtain ⟨buf₁, hbuf₁, hused, -⟩ := hold b buf hbuf
      exact ⟨buf₁, hbuf₁, by rw [hused]; exact hle⟩
  · exact fun b buf hbuf ↦ ⟨(hnew b buf hbuf).1, (hnew b buf hbuf).2.1⟩
  · intro b buf hbuf
    rw [State.handles_push, (hnew b buf hbuf).2.2.1, State.handles, State.handles, hvals]
  · exact fun b buf n x hbuf ↦ (hnew b buf hbuf).2.2.2 n x
  · exact fun k p hp ↦ hinv.call_of_same hsame ((hcall k).symm.trans hp)
  · intro k c hc
    obtain ⟨buf, hbuf, hused, hends, hfree⟩ := hinv.claim k c (hclaims k c hc)
    obtain ⟨buf₁, hbuf₁, hused₁, hbytes₁⟩ := hold c.buf buf hbuf
    refine ⟨buf₁, hbuf₁, hused₁.trans hused, ?_, by rw [hbytes₁]; exact hfree⟩
    intro i start len acc hw
    rcases hcases i _ hw with ⟨-, hv'⟩ | hw'
    · exact (hshared c.buf start len acc hv'.symm).2 k c (hclaims k c hc) rfl
    · exact hends i start len acc hw'
  · exact fun k k' c c' hc hc' ↦ hinv.unique k k' c c' (hclaims k c hc) (hclaims k' c' hc')

theorem Inv.buf_facts (hinv : Inv s a) {b : ℕ} {buf : SharedBuf} (hbuf : s.buf? b = some buf) :
    buf.used ≤ buf.cap ∧ buf.bytes.length = buf.cap ∧ buf.refs = s.handles b ∧
      ∀ n x, buf.bytes[n]? = some (some x) → n < buf.used :=
  ⟨(hinv.room b buf hbuf).1, (hinv.room b buf hbuf).2, hinv.refs b buf hbuf,
    fun n x ↦ hinv.unwritten b buf n x hbuf⟩

/-- A string without a buffer. -/
theorem Inv.push (hinv : Inv s a) {v : StrData} {t : List UInt8} (hv : s.asStr v = some t)
    (hnot : ∀ b, State.holds b (some v) = false) : Inv (s.push v) (a.push t).1 := by
  refine hinv.add rfl rfl (fun b buf hbuf ↦ ⟨buf, hbuf, rfl, rfl⟩) ?_ hv ?_
  · intro b buf hbuf
    rw [hnot b]
    exact hinv.buf_facts hbuf
  · rintro b start len acc rfl
    exact absurd (hnot b) (by simp [State.holds])

theorem clone_eq {b : ℕ} {buf : SharedBuf} (hbuf : s.buf? b = some buf) :
    s.clone b = s.setBuf b (some { buf with refs := buf.refs + 1 }) := by
  rw [State.clone, hbuf]

/-- Another string of a buffer, below the claims of that buffer. -/
theorem Inv.pushShared (hinv : Inv s a) {b start len : ℕ} (acc : ℕ) {t : List UInt8} {buf : SharedBuf}
    (hbuf : s.buf? b = some buf) (hle : start + len ≤ buf.used)
    (hv : s.asStr (.shared b start len acc) = some t)
    (hclaims : ∀ k c, s.Claims k c → c.buf = b → start + len ≤ c.start) :
    Inv ((s.clone b).push (.shared b start len acc)) (a.push t).1 := by
  have hlt := State.lt_of_buf? hbuf
  rw [clone_eq hbuf]
  have hnewbuf := fun b' ↦ State.buf?_setBuf s b b'
    (some { buf with refs := buf.refs + 1 }) hlt
  have hold : ∀ b' buf', s.buf? b' = some buf' → ∃ buf₁,
      (s.setBuf b (some { buf with refs := buf.refs + 1 })).buf? b' = some buf₁ ∧
        buf₁.used = buf'.used ∧ buf₁.bytes = buf'.bytes := by
    intro b' buf' hbuf'
    rw [hnewbuf]
    by_cases hb : b' = b
    · subst hb
      obtain rfl : buf = buf' := Option.some.inj (hbuf.symm.trans hbuf')
      exact ⟨_, if_pos rfl, rfl, rfl⟩
    · exact ⟨buf', by rw [if_neg hb]; exact hbuf', rfl, rfl⟩
  refine hinv.add rfl rfl hold ?_ ?_ ?_
  · intro b' buf₁ hbuf₁
    rw [hnewbuf] at hbuf₁
    by_cases hb : b' = b
    · subst hb
      rw [if_pos rfl] at hbuf₁
      cases hbuf₁
      obtain ⟨hcap, hlen, hrefs, hfree⟩ := hinv.buf_facts hbuf
      refine ⟨hcap, hlen, ?_, hfree⟩
      rw [if_pos (by simp [State.holds])]
      exact congrArg (· + 1) hrefs
    · rw [if_neg hb] at hbuf₁
      rw [if_neg (by simpa [State.holds] using fun h ↦ hb h.symm)]
      exact hinv.buf_facts hbuf₁
  · rw [← hv]
    refine State.asStr_congr _ ?_
    rintro _ _ _ _ ⟨⟩
    obtain ⟨buf₁, hbuf₁, -, hbytes⟩ := hold b buf hbuf
    exact ⟨buf, buf₁, hbuf, hbuf₁, fun n _ ↦ by rw [hbytes]⟩
  · rintro _ _ _ _ ⟨⟩
    obtain ⟨buf₁, hbuf₁, hused, -⟩ := hold b buf hbuf
    exact ⟨⟨buf₁, hbuf₁, by rw [hused]; exact hle⟩, hclaims⟩

/-- No string holds a buffer that is not there. -/
theorem Inv.handles_eq_zero (hinv : Inv s a) {b : ℕ} (hb : s.buf? b = none) : s.handles b = 0 := by
  refine List.countP_eq_zero.2 fun v hv hholds ↦ ?_
  obtain ⟨i, hi⟩ := List.getElem?_of_mem hv
  cases v with
  | none => cases hholds
  | some v =>
    cases v with
    | inline len bytes => cases hholds
    | owned t => cases hholds
    | shared b' start len acc =>
      obtain rfl : b' = b := of_decide_eq_true hholds
      have hval : s.val? i = some (.shared b' start len acc) := by rw [State.val?, hi]; rfl
      obtain ⟨buf, hbuf, -⟩ := hinv.bound i _ _ _ _ hval
      rw [hb] at hbuf
      cases hbuf

/-- A string with a buffer of its own. -/
theorem Inv.pushBuf (hinv : Inv s a) (cap accounted : ℕ) {t : List UInt8} (hcap : t.length ≤ cap) :
    Inv (s.pushBuf cap accounted t) (a.push t).1 := by
  rw [State.pushBuf]
  split
  next v hv =>
    obtain rfl : .shared s.bufs.length 0 t.length accounted = v := by
      rw [StrData.shared?] at hv
      split at hv
      · exact Option.some.inj hv
      · cases hv
    have hnone : s.buf? s.bufs.length = none := by
      rw [State.buf?, List.getElem?_eq_none (Nat.le_refl _)]
      rfl
    have hnewbuf : ∀ b, State.buf? { s with bufs := s.bufs ++ [some (SharedBuf.withParts cap t)] } b =
        if b = s.bufs.length then some (SharedBuf.withParts cap t) else s.buf? b := by
      intro b
      rw [State.buf?]
      dsimp only
      rcases Nat.lt_trichotomy b s.bufs.length with hlt | rfl | hgt
      · rw [List.getElem?_append_left hlt, if_neg (Nat.ne_of_lt hlt)]
        rfl
      · rw [List.getElem?_concat_length, if_pos rfl]
        rfl
      · rw [List.getElem?_eq_none (by simp; omega), if_neg (Nat.ne_of_gt hgt), State.buf?,
          List.getElem?_eq_none (Nat.le_of_lt hgt)]
    refine hinv.add rfl rfl ?_ ?_ ?_ ?_
    · intro b buf hbuf
      refine ⟨buf, ?_, rfl, rfl⟩
      rw [hnewbuf, if_neg (Nat.ne_of_lt (State.lt_of_buf? hbuf))]
      exact hbuf
    · intro b buf₁ hbuf₁
      rw [hnewbuf] at hbuf₁
      by_cases hb : b = s.bufs.length
      · subst hb
        rw [if_pos rfl] at hbuf₁
        cases hbuf₁
        refine ⟨hcap, ?_, ?_, ?_⟩
        · simp [SharedBuf.withParts]
          omega
        · rw [hinv.handles_eq_zero hnone, if_pos (by simp [State.holds])]
          rfl
        · intro n x hn
          rw [SharedBuf.withParts] at hn ⊢
          dsimp only at hn ⊢
          by_contra hge
          rw [List.getElem?_append_right (by simp; omega), List.getElem?_replicate] at hn
          split at hn
          · cases hn
          · cases hn
      · rw [if_neg hb] at hbuf₁
        rw [if_neg (by simpa [State.holds] using fun h ↦ hb h.symm)]
        exact hinv.buf_facts hbuf₁
    · refine State.asStr_shared_iff.2 ⟨_, by rw [hnewbuf, if_pos rfl], ?_, rfl⟩
      rw [List.drop_zero, SharedBuf.withParts]
      exact List.take_left' (List.length_map _)
    · rintro _ _ _ _ ⟨⟩
      refine ⟨⟨_, by rw [hnewbuf, if_pos rfl], by rw [Nat.zero_add]; exact Nat.le_refl _⟩, ?_⟩
      -- no call has claimed bytes of a buffer that is not there yet
      intro k c hc hbuf
      obtain ⟨buf, hbuf', -⟩ := hinv.claim k c hc
      rw [hbuf, hnone] at hbuf'
      cases hbuf'
  next => exact hinv.push rfl fun _ ↦ rfl

/-! ### Calls -/

theorem call?_endCall {k k' : ℕ} {p : Pending}
    (h : State.call? { s with calls := s.calls.set k none } k' = some p) :
    k' ≠ k ∧ s.call? k' = some p := by
  rw [State.call?] at h
  dsimp only at h
  rw [List.getElem?_set] at h
  by_cases hk : k = k'
  · rw [if_pos hk] at h
    split at h
    · cases h
    · cases h
  · rw [if_neg hk] at h
    exact ⟨fun he ↦ hk he.symm, h⟩

/-- A call ends. -/
theorem Inv.endCall (hinv : Inv s a) (k : ℕ) : Inv { s with calls := s.calls.set k none } a where
  vals_length := hinv.vals_length
  calls_length := hinv.calls_length.trans (List.length_set ..).symm
  contents := hinv.contents
  bound := hinv.bound
  room := hinv.room
  refs := hinv.refs
  unwritten := hinv.unwritten
  call := fun k' p hp ↦ hinv.call k' p (call?_endCall hp).2
  claim := fun k' c ⟨p, hp, hrest⟩ ↦ hinv.claim k' c ⟨p, (call?_endCall hp).2, hrest⟩
  unique := fun k' k'' c c' ⟨p, hp, hrest⟩ ⟨p', hp', hrest'⟩ ↦
    hinv.unique k' k'' c c' ⟨p, (call?_endCall hp).2, hrest⟩ ⟨p', (call?_endCall hp').2, hrest'⟩

/-- A call starts; what it has claimed is the tail of its buffer and free. -/
theorem Inv.pushCall (hinv : Inv s a) {i : ℕ} {tail : Tail} {v w : StrData} {h t : List UInt8}
    {claim : Option Claim} (hv : s.val? i = some v) (hw : s.tail? tail = some w)
    (hh : s.asStr v = some h) (ht : s.asStr w = some t)
    (hclaim : ∀ c, claim = some c → inlineMax < h.length + t.length ∧ h.length + t.length < 2 ^ 32 ∧
      c.n = t.length ∧ ∃ start len acc, v = .shared c.buf start len acc ∧ c.start = start + len)
    (htail : ∀ c, claim = some c → ∃ buf, s.buf? c.buf = some buf ∧ buf.used = c.start + c.n ∧
      (∀ i start len acc, s.val? i = some (.shared c.buf start len acc) → start + len ≤ c.start) ∧
      (∀ n x, buf.bytes[n]? = some (some x) → n < c.start) ∧ ∀ k c', s.Claims k c' → c'.buf ≠ c.buf) :
    Inv { s with calls := s.calls ++ [some ⟨i, tail, claim⟩] }
      { a with calls := a.calls ++ [h ++ t] } := by
  have hcall : ∀ k p, State.call? { s with calls := s.calls ++ [some ⟨i, tail, claim⟩] } k = some p →
      k = s.calls.length ∧ p = ⟨i, tail, claim⟩ ∨ s.call? k = some p := by
    intro k p hp
    rw [State.call?] at hp
    dsimp only at hp
    rcases Nat.lt_trichotomy k s.calls.length with hlt | rfl | hgt
    · rw [List.getElem?_append_left hlt] at hp
      exact .inr hp
    · rw [List.getElem?_concat_length] at hp
      exact .inl ⟨rfl, (Option.some.inj hp).symm⟩
    · rw [List.getElem?_eq_none (by simp; omega)] at hp
      cases hp
  have hclaims : ∀ k c, State.Claims { s with calls := s.calls ++ [some ⟨i, tail, claim⟩] } k c →
      k = s.calls.length ∧ claim = some c ∨ s.Claims k c := by
    rintro k c ⟨p, hp, hc, hpos⟩
    rcases hcall k p hp with ⟨hk, rfl⟩ | hp'
    · exact .inl ⟨hk, hc⟩
    · exact .inr ⟨p, hp', hc, hpos⟩
  refine ⟨hinv.vals_length, ?_, hinv.contents, hinv.bound, hinv.room, hinv.refs, hinv.unwritten, ?_,
    ?_, ?_⟩
  · show (a.calls ++ [h ++ t]).length = (s.calls ++ [_]).length
    rw [List.length_append, List.length_append, hinv.calls_length]
    rfl
  · intro k p hp
    rcases hcall k p hp with ⟨rfl, rfl⟩ | hp'
    · refine ⟨v, w, h, t, hv, hw, hh, ht, ?_, hclaim⟩
      show (a.calls ++ [h ++ t])[s.calls.length]? = _
      rw [← hinv.calls_length, List.getElem?_concat_length]
    · obtain ⟨v', w', h', t', hv', hw', hh', ht', hres, hrest⟩ := hinv.call k p hp'
      refine ⟨v', w', h', t', hv', hw', hh', ht', ?_, hrest⟩
      show (a.calls ++ [h ++ t])[k]? = _
      rw [List.getElem?_append_left (List.getElem?_eq_some_iff.1 hres).1]
      exact hres
  · intro k c hc
    rcases hclaims k c hc with ⟨-, hnew⟩ | hold
    · obtain ⟨buf, hbuf, hused, hends, hfree, -⟩ := htail c hnew
      exact ⟨buf, hbuf, hused, hends, hfree⟩
    · exact hinv.claim k c hold
  · intro k k' c c' hc hc' hbuf
    rcases hclaims k c hc with ⟨hk, hnew⟩ | hold
    · rcases hclaims k' c' hc' with ⟨hk', -⟩ | hold'
      · exact hk.trans hk'.symm
      · obtain ⟨-, -, -, -, -, hother⟩ := htail c hnew
        exact absurd hbuf.symm (hother k' c' hold')
    · rcases hclaims k' c' hc' with ⟨-, hnew'⟩ | hold'
      · obtain ⟨-, -, -, -, -, hother⟩ := htail c' hnew'
        exact absurd hbuf (hother k c hold)
      · exact hinv.unique k k' c c' hold hold' hbuf

/-! ### Claiming and writing bytes -/

theorem tryClaim_eq_some {c : Claim} (h : s.tryClaim c = some s₁) :
    ∃ buf, s.buf? c.buf = some buf ∧ c.start + c.n ≤ buf.cap ∧ buf.used = c.start ∧
      s₁ = s.setBuf c.buf (some { buf with used := c.start + c.n }) := by
  rw [State.tryClaim] at h
  cases hbuf : s.buf? c.buf with
  | none =>
    rw [hbuf] at h
    cases h
  | some buf =>
    rw [hbuf] at h
    have h' : (if c.start + c.n ≤ buf.cap ∧ buf.used = c.start then
      some (s.setBuf c.buf (some { buf with used := c.start + c.n })) else none) = some s₁ := h
    split at h'
    next hc => exact ⟨buf, rfl, hc.1, hc.2, (Option.some.inj h').symm⟩
    next => cases h'

/-- **Where a string ends at the end of the claimed bytes, no call has a claim.** -/
theorem Inv.no_claims (hinv : Inv s a) {i b start len acc : ℕ} {buf : SharedBuf}
    (hv : s.val? i = some (.shared b start len acc)) (hbuf : s.buf? b = some buf)
    (hused : buf.used = start + len) (k : ℕ) (c : Claim) (hc : s.Claims k c) : c.buf ≠ b := by
  rintro rfl
  obtain ⟨buf', hbuf', hused', hends, -⟩ := hinv.claim k c hc
  obtain rfl : buf = buf' := Option.some.inj (hbuf.symm.trans hbuf')
  obtain ⟨-, -, -, hpos⟩ := hc
  have := hends i start len acc hv
  omega

/-- The end of the claimed bytes of a buffer without claims moves up. -/
theorem Inv.claimBytes (hinv : Inv s a) (used : ℕ) {b : ℕ} {buf : SharedBuf} (hbuf : s.buf? b = some buf)
    (hle : buf.used ≤ used) (hcap : used ≤ buf.cap) (hno : ∀ k c, s.Claims k c → c.buf ≠ b) :
    Inv (s.setBuf b (some { buf with used })) a ∧ Same s (s.setBuf b (some { buf with used })) := by
  have hlt := State.lt_of_buf? hbuf
  have hnewbuf := fun b' ↦ State.buf?_setBuf s b b' (some { buf with used }) hlt
  have hold : ∀ b' buf', s.buf? b' = some buf' → ∃ buf₁,
      (s.setBuf b (some { buf with used })).buf? b' = some buf₁ ∧ buf'.used ≤ buf₁.used ∧
        buf₁.bytes = buf'.bytes := by
    intro b' buf' hbuf'
    rw [hnewbuf]
    by_cases hb : b' = b
    · subst hb
      obtain rfl : buf = buf' := Option.some.inj (hbuf.symm.trans hbuf')
      exact ⟨_, if_pos rfl, hle, rfl⟩
    · exact ⟨buf', by rw [if_neg hb]; exact hbuf', Nat.le_refl _, rfl⟩
  have hsame : Same s (s.setBuf b (some { buf with used })) := by
    refine hinv.same_of_bytes rfl ?_
    intro i b' start len acc buf' _ hbuf'
    obtain ⟨buf₁, hbuf₁, -, hbytes⟩ := hold b' buf' hbuf'
    exact ⟨buf₁, hbuf₁, fun n _ ↦ by rw [hbytes]⟩
  refine ⟨⟨hinv.vals_length, hinv.calls_length, ?_, ?_, ?_, ?_, ?_, ?_, ?_, hinv.unique⟩, hsame⟩
  · intro i v hv
    obtain ⟨t, ht, hs⟩ := hinv.contents i v hv
    exact ⟨t, ht, (hsame i v hv).2.trans hs⟩
  · intro i b' start len acc hv
    obtain ⟨buf', hbuf', hend⟩ := hinv.bound i b' start len acc hv
    obtain ⟨buf₁, hbuf₁, hused, -⟩ := hold b' buf' hbuf'
    exact ⟨buf₁, hbuf₁, Nat.le_trans hend hused⟩
  · intro b' buf₁ hbuf₁
    rw [hnewbuf] at hbuf₁
    split at hbuf₁
    next =>
      cases hbuf₁
      exact ⟨hcap, (hinv.room b buf hbuf).2⟩
    next => exact hinv.room b' buf₁ hbuf₁
  · intro b' buf₁ hbuf₁
    rw [hnewbuf] at hbuf₁
    split at hbuf₁
    next hb =>
      cases hbuf₁
      subst hb
      exact hinv.refs b' buf hbuf
    next => exact hinv.refs b' buf₁ hbuf₁
  · intro b' buf₁ n x hbuf₁ hn
    rw [hnewbuf] at hbuf₁
    split at hbuf₁
    next =>
      cases hbuf₁
      exact Nat.lt_of_lt_of_le (hinv.unwritten b buf n x hbuf hn) hle
    next => exact hinv.unwritten b' buf₁ n x hbuf₁ hn
  · exact fun k p hp ↦ hinv.call_of_same hsame hp
  · intro k c hc
    obtain ⟨buf', hbuf', hused, hends, hfree⟩ := hinv.claim k c hc
    refine ⟨buf', ?_, hused, hends, hfree⟩
    rw [hnewbuf, if_neg (hno k c hc)]
    exact hbuf'

/-- The bytes after a write. -/
def written (bytes : List (Option UInt8)) (start : ℕ) (t : List UInt8) : List (Option UInt8) :=
  bytes.take start ++ t.map some ++ bytes.drop (start + t.length)

theorem write_eq {b : ℕ} (start : ℕ) (t : List UInt8) {buf : SharedBuf} (hbuf : s.buf? b = some buf) :
    s.write b start t = s.setBuf b (some { buf with bytes := written buf.bytes start t }) := by
  rw [State.write, hbuf]
  rfl

theorem length_written {bytes : List (Option UInt8)} {start : ℕ} {t : List UInt8}
    (h : start + t.length ≤ bytes.length) : (written bytes start t).length = bytes.length := by
  rw [written, List.length_append, List.length_append, List.length_take, List.length_map,
    List.length_drop]
  omega

theorem written_below {bytes : List (Option UInt8)} {start : ℕ} {t : List UInt8} {n : ℕ}
    (hstart : start ≤ bytes.length) (hn : n < start) : (written bytes start t)[n]? = bytes[n]? := by
  have hlen : (bytes.take start).length = start := by rw [List.length_take]; omega
  rw [written, List.append_assoc, List.getElem?_append_left (by omega), List.getElem?_take_of_lt hn]

theorem written_above {bytes : List (Option UInt8)} {start : ℕ} {t : List UInt8} {n : ℕ}
    (hstart : start ≤ bytes.length) (hn : start + t.length ≤ n) :
    (written bytes start t)[n]? = bytes[n]? := by
  have hlen : (bytes.take start ++ t.map some).length = start + t.length := by
    rw [List.length_append, List.length_take, List.length_map]
    omega
  rw [written, List.getElem?_append_right (by omega), hlen, List.getElem?_drop]
  congr 1
  omega

/-- Claimed bytes of a buffer without other claims are written. -/
theorem Inv.write (hinv : Inv s a) {b start : ℕ} {t : List UInt8} {buf : SharedBuf}
    (hbuf : s.buf? b = some buf) (hfit : start + t.length ≤ buf.used)
    (hends : ∀ i first len acc, s.val? i = some (.shared b first len acc) →
      t = [] ∨ first + len ≤ start)
    (hfree : t = [] ∨ ∀ n x, buf.bytes[n]? = some (some x) → n < start)
    (hno : ∀ k c, s.Claims k c → t = [] ∨ c.buf ≠ b) :
    Inv (s.write b start t) a ∧ Same s (s.write b start t) := by
  obtain ⟨hcap, hlen, hrefs, hunwritten⟩ := hinv.buf_facts hbuf
  have hstart : start ≤ buf.bytes.length := by omega
  rw [write_eq start t hbuf]
  rcases eq_or_ne t [] with rfl | ht
  · -- nothing is written
    have hsame : written buf.bytes start [] = buf.bytes := by simp [written]
    have hset : s.setBuf b (some { buf with bytes := written buf.bytes start [] }) = s := by
      rw [hsame, State.setBuf]
      have hget : s.bufs[b]? = some (some buf) := Option.join_eq_some_iff.1 hbuf
      have hself : s.bufs.set b (some buf) = s.bufs := by
        refine List.ext_getElem? fun n ↦ ?_
        rw [List.getElem?_set]
        by_cases hn : b = n
        · rw [if_pos hn, if_pos (State.lt_of_buf? hbuf), ← hn, hget]
        · rw [if_neg hn]
      rw [show ({ buf with bytes := buf.bytes } : SharedBuf) = buf from rfl, hself]
    rw [hset]
    exact ⟨hinv, fun i v hv ↦ ⟨hv, rfl⟩⟩
  replace hends := fun i first len acc hv ↦ (hends i first len acc hv).resolve_left ht
  replace hfree := hfree.resolve_left ht
  replace hno := fun k c hc ↦ (hno k c hc).resolve_left ht
  have hlt := State.lt_of_buf? hbuf
  have hnewbuf := fun b' ↦ State.buf?_setBuf s b b'
    (some { buf with bytes := written buf.bytes start t }) hlt
  have hsame : Same s (s.setBuf b (some { buf with bytes := written buf.bytes start t })) := by
    refine hinv.same_of_bytes rfl ?_
    intro i b' first len acc buf' hv hbuf'
    rw [hnewbuf]
    by_cases hb : b' = b
    · subst hb
      obtain rfl : buf = buf' := Option.some.inj (hbuf.symm.trans hbuf')
      refine ⟨_, if_pos rfl, fun n hn ↦ written_below hstart ?_⟩
      exact Nat.lt_of_lt_of_le hn (hends i first len acc hv)
    · exact ⟨buf', by rw [if_neg hb]; exact hbuf', fun _ _ ↦ rfl⟩
  refine ⟨⟨hinv.vals_length, hinv.calls_length, ?_, ?_, ?_, ?_, ?_, ?_, ?_, hinv.unique⟩, hsame⟩
  · intro i v hv
    obtain ⟨u, hu, hs⟩ := hinv.contents i v hv
    exact ⟨u, hu, (hsame i v hv).2.trans hs⟩
  · intro i b' first len acc hv
    obtain ⟨buf', hbuf', hend⟩ := hinv.bound i b' first len acc hv
    rw [hnewbuf]
    by_cases hb : b' = b
    · subst hb
      obtain rfl : buf = buf' := Option.some.inj (hbuf.symm.trans hbuf')
      exact ⟨_, if_pos rfl, hend⟩
    · exact ⟨buf', by rw [if_neg hb]; exact hbuf', hend⟩
  · intro b' buf₁ hbuf₁
    rw [hnewbuf] at hbuf₁
    split at hbuf₁
    next =>
      cases hbuf₁
      exact ⟨hcap, (length_written (by omega)).trans hlen⟩
    next => exact hinv.room b' buf₁ hbuf₁
  · intro b' buf₁ hbuf₁
    rw [hnewbuf] at hbuf₁
    split at hbuf₁
    next hb =>
      cases hbuf₁
      subst hb
      exact hrefs
    next => exact hinv.refs b' buf₁ hbuf₁
  · intro b' buf₁ n x hbuf₁ hn
    rw [hnewbuf] at hbuf₁
    split at hbuf₁
    next =>
      cases hbuf₁
      rcases Nat.lt_or_ge n (start + t.length) with hlt' | hge
      · exact Nat.lt_of_lt_of_le hlt' hfit
      · rw [written_above hstart hge] at hn
        exact hunwritten n x hn
    next => exact hinv.unwritten b' buf₁ n x hbuf₁ hn
  · exact fun k p hp ↦ hinv.call_of_same hsame hp
  · intro k c hc
    obtain ⟨buf', hbuf', hused, hends', hfree'⟩ := hinv.claim k c hc
    refine ⟨buf', ?_, hused, hends', hfree'⟩
    rw [hnewbuf, if_neg (hno k c hc)]
    exact hbuf'

/-! ### Dropping a string -/

/-- The state without string `i`, its buffers still untouched. -/
def gone (s : State) (i : ℕ) : State := { s with vals := s.vals.set i none }

theorem val?_gone {i j : ℕ} {v : StrData} (h : (gone s i).val? j = some v) :
    j ≠ i ∧ s.val? j = some v := by
  rw [State.val?, gone] at h
  dsimp only at h
  rw [List.getElem?_set] at h
  by_cases hj : i = j
  · rw [if_pos hj] at h
    split at h
    · cases h
    · cases h
  · rw [if_neg hj] at h
    exact ⟨fun he ↦ hj he.symm, h⟩

theorem val?_gone_of_ne {i j : ℕ} (h : j ≠ i) : (gone s i).val? j = s.val? j := by
  rw [State.val?, gone]
  dsimp only
  rw [List.getElem?_set_ne (fun he ↦ h he.symm)]
  rfl

theorem handles_gone {i b : ℕ} {v : StrData} (hv : s.val? i = some v) :
    (gone s i).handles b = s.handles b - if State.holds b (some v) then 1 else 0 := by
  have hlt := State.lt_of_val? hv
  have hget : s.vals[i] = some v := by
    have h := Option.join_eq_some_iff.1 hv
    rwa [List.getElem?_eq_getElem hlt, Option.some.injEq] at h
  rw [State.handles, gone]
  dsimp only
  rw [List.countP_set hlt, hget]
  rfl

theorem not_borrows {i k : ℕ} {p : Pending} (hidle : s.calls.any (·.any (·.borrows i)) = false)
    (hp : s.call? k = some p) : p.head ≠ i ∧ p.tail ≠ .value i := by
  have hmem : some p ∈ s.calls := List.mem_of_getElem? (Option.join_eq_some_iff.1 hp)
  have h : p.borrows i = false := by
    have hall := List.any_eq_false.1 hidle (some p) hmem
    exact Bool.not_eq_true _ ▸ hall
  exact not_or.1 (of_decide_eq_false h)

/-- A string that no call reads goes away; a buffer may go with it if no other string is left. -/
theorem Inv.dropWith (hinv : Inv s a) {i : ℕ} {v : StrData} (hv : s.val? i = some v)
    (hidle : s.calls.any (·.any (·.borrows i)) = false) (hvals : s₁.vals = s.vals.set i none)
    (hcalls : s₁.calls = s.calls)
    (hold : ∀ j b start len acc buf, j ≠ i → s.val? j = some (.shared b start len acc) →
      s.buf? b = some buf → ∃ buf₁, s₁.buf? b = some buf₁ ∧ buf₁.used = buf.used ∧
        buf₁.bytes = buf.bytes)
    (hnew : ∀ b buf₁, s₁.buf? b = some buf₁ → ∃ buf, s.buf? b = some buf ∧ buf₁.used = buf.used ∧
      buf₁.cap = buf.cap ∧ buf₁.bytes = buf.bytes ∧
      buf₁.refs = buf.refs - if State.holds b (some v) then 1 else 0) :
    Inv s₁ a ∧ ∀ j w, j ≠ i → s.val? j = some w → s₁.val? j = some w ∧ s₁.asStr w = s.asStr w := by
  have hval : ∀ j, s₁.val? j = (gone s i).val? j := fun j ↦ by rw [State.val?, hvals]; rfl
  have hcall : ∀ k, s₁.call? k = s.call? k := fun k ↦ by rw [State.call?, hcalls]; rfl
  have hclaims : ∀ k c, s₁.Claims k c → s.Claims k c := by
    rintro k c ⟨p, hp, hrest⟩
    exact ⟨p, (hcall k).symm.trans hp, hrest⟩
  have hkeep : ∀ j w, j ≠ i → s.val? j = some w →
      s₁.val? j = some w ∧ s₁.asStr w = s.asStr w := by
    intro j w hj hw
    refine ⟨(hval j).trans ((val?_gone_of_ne hj).trans hw), State.asStr_congr w ?_⟩
    rintro b start len acc rfl
    obtain ⟨buf, hbuf, -⟩ := hinv.bound j b start len acc hw
    obtain ⟨buf₁, hbuf₁, -, hbytes⟩ := hold j b start len acc buf hj hw hbuf
    exact ⟨buf, buf₁, hbuf, hbuf₁, fun n _ ↦ by rw [hbytes]⟩
  refine ⟨⟨?_, ?_, ?_, ?_, ?_, ?_, ?_, ?_, ?_, ?_⟩, hkeep⟩
  · rw [hinv.vals_length, hvals, List.length_set]
  · rw [hinv.calls_length, hcalls]
  · intro j w hw
    obtain ⟨hj, hw'⟩ := val?_gone ((hval j).symm.trans hw)
    obtain ⟨t, ht, hs⟩ := hinv.contents j w hw'
    exact ⟨t, ht, (hkeep j w hj hw').2.trans hs⟩
  · intro j b start len acc hw
    obtain ⟨hj, hw'⟩ := val?_gone ((hval j).symm.trans hw)
    obtain ⟨buf, hbuf, hle⟩ := hinv.bound j b start len acc hw'
    obtain ⟨buf₁, hbuf₁, hused, -⟩ := hold j b start len acc buf hj hw' hbuf
    exact ⟨buf₁, hbuf₁, by rw [hused]; exact hle⟩
  · intro b buf₁ hbuf₁
    obtain ⟨buf, hbuf, hused, hcap, hbytes, -⟩ := hnew b buf₁ hbuf₁
    rw [hused, hcap, hbytes]
    exact hinv.room b buf hbuf
  · intro b buf₁ hbuf₁
    obtain ⟨buf, hbuf, -, -, -, hrefs⟩ := hnew b buf₁ hbuf₁
    have hhandles : s₁.handles b = (gone s i).handles b := by rw [State.handles, hvals]; rfl
    rw [hrefs, hinv.refs b buf hbuf, hhandles, handles_gone hv]
  · intro b buf₁ n x hbuf₁ hn
    obtain ⟨buf, hbuf, hused, -, hbytes, -⟩ := hnew b buf₁ hbuf₁
    rw [hbytes] at hn
    rw [hused]
    exact hinv.unwritten b buf n x hbuf hn
  · intro k p hp
    rw [hcall] at hp
    obtain ⟨hhead, htail⟩ := not_borrows hidle hp
    obtain ⟨v', w, h, t, hv', hw, hh, ht, hres, hrest⟩ := hinv.call k p hp
    obtain ⟨hv₁, hsv⟩ := hkeep p.head v' hhead hv'
    refine ⟨v', w, h, t, hv₁, ?_, hsv.trans hh, ?_, hres, hrest⟩
    · cases hpt : p.tail with
      | text u =>
        rw [hpt] at hw
        exact hw
      | value j =>
        rw [hpt] at hw htail
        exact (hkeep j w (fun hj ↦ htail (congrArg _ hj)) hw).1
    · cases hpt : p.tail with
      | text u =>
        rw [hpt] at hw
        obtain rfl : .owned u = w := Option.some.inj hw
        exact ht
      | value j =>
        rw [hpt] at hw htail
        exact (hkeep j w (fun hj ↦ htail (congrArg _ hj)) hw).2.trans ht
  · intro k c hc
    have hc' := hclaims k c hc
    obtain ⟨buf, hbuf, hused, hends, hfree⟩ := hinv.claim k c hc'
    -- the first operand of the call keeps the buffer
    obtain ⟨p, hp, hpc, -⟩ := hc'
    obtain ⟨v', w, h, t, hv', -, -, -, -, hrest⟩ := hinv.call k p hp
    obtain ⟨-, -, -, start, len, acc, rfl, -⟩ := hrest c hpc
    obtain ⟨buf₁, hbuf₁, hused₁, hbytes₁⟩ :=
      hold p.head c.buf start len acc buf (not_borrows hidle hp).1 hv' hbuf
    refine ⟨buf₁, hbuf₁, hused₁.trans hused, ?_, by rw [hbytes₁]; exact hfree⟩
    intro j first l ac hw
    exact hends j first l ac (val?_gone ((hval j).symm.trans hw)).2
  · exact fun k k' c c' hc hc' ↦ hinv.unique k k' c c' (hclaims k c hc) (hclaims k' c' hc')

end Steps

end CoilLang.StrBuf
