import CoilLang.Machine.StrBufInvariant

/-!
# Shared strings are immutable strings

Every step of the buffers is the step of the immutable strings with the same output (`step_refines`), so
that **whatever the threads do and in whatever order, no reader can tell the buffers from copies**
(`run_refines`). On the way strings keep their contents for as long as they exist (`Lasts`) and bytes
that have been written stay as they are (`Keeps`).
-/

namespace CoilLang.StrBuf

variable {s s' s₁ s₂ : State} {a : ImmStrings}

/-! ### What lasts -/

/-- A string that is still there is the string it was, with the contents it had. -/
def Lasts (s s' : State) : Prop :=
  s.vals.length ≤ s'.vals.length ∧ ∀ i < s.vals.length, ∀ v, s'.val? i = some v →
    s.val? i = some v ∧ s'.asStr v = s.asStr v

/-- A buffer that is still there has at least the claimed bytes it had, and no written byte has been
written again. -/
def Keeps (s s' : State) : Prop :=
  s.bufs.length ≤ s'.bufs.length ∧ ∀ b < s.bufs.length, ∀ buf', s'.buf? b = some buf' →
    ∃ buf, s.buf? b = some buf ∧ buf.used ≤ buf'.used ∧
      ∀ (n : ℕ) (x : UInt8), buf.bytes[n]? = some (some x) → buf'.bytes[n]? = some (some x)

theorem Lasts.refl (s : State) : Lasts s s := ⟨Nat.le_refl _, fun _ _ _ hv ↦ ⟨hv, rfl⟩⟩

theorem Keeps.refl (s : State) : Keeps s s :=
  ⟨Nat.le_refl _, fun _ _ buf hbuf ↦ ⟨buf, hbuf, Nat.le_refl _, fun _ _ h ↦ h⟩⟩

theorem Lasts.trans (h₁ : Lasts s s₁) (h₂ : Lasts s₁ s₂) : Lasts s s₂ := by
  refine ⟨Nat.le_trans h₁.1 h₂.1, fun i hi v hv ↦ ?_⟩
  obtain ⟨hv₁, hs₁⟩ := h₂.2 i (Nat.lt_of_lt_of_le hi h₁.1) v hv
  obtain ⟨hv₀, hs₀⟩ := h₁.2 i hi v hv₁
  exact ⟨hv₀, hs₁.trans hs₀⟩

theorem Keeps.trans (h₁ : Keeps s s₁) (h₂ : Keeps s₁ s₂) : Keeps s s₂ := by
  refine ⟨Nat.le_trans h₁.1 h₂.1, fun b hb buf hbuf ↦ ?_⟩
  obtain ⟨buf₁, hbuf₁, hused₁, hbytes₁⟩ := h₂.2 b (Nat.lt_of_lt_of_le hb h₁.1) buf hbuf
  obtain ⟨buf₀, hbuf₀, hused₀, hbytes₀⟩ := h₁.2 b hb buf₁ hbuf₁
  exact ⟨buf₀, hbuf₀, Nat.le_trans hused₀ hused₁, fun n x hx ↦ hbytes₁ n x (hbytes₀ n x hx)⟩

/-- Where no string goes, what is there now was there before. -/
theorem Same.lasts (h : Same s s') (hlen : s.vals.length ≤ s'.vals.length)
    (hback : ∀ i < s.vals.length, ∀ v, s'.val? i = some v → s.val? i = some v) : Lasts s s' :=
  ⟨hlen, fun i hi v hv ↦ ⟨hback i hi v hv, (h i v (hback i hi v hv)).2⟩⟩

theorem lasts_push (v : StrData) : Lasts s (s.push v) := by
  refine (same_push v).lasts ?_ ?_
  · rw [State.push, List.length_append]
    exact Nat.le_add_right _ _
  · intro i hi w hw
    rw [State.val?_push, if_neg (Nat.ne_of_lt hi)] at hw
    exact hw

theorem keeps_push (v : StrData) : Keeps s (s.push v) := Keeps.refl s

/-- One buffer changes: its claimed bytes grow, and what is written stays. -/
theorem keeps_setBuf {b : ℕ} {buf : SharedBuf} {x : Option SharedBuf} (hbuf : s.buf? b = some buf)
    (hx : ∀ buf', x = some buf' → buf.used ≤ buf'.used ∧
      ∀ (n : ℕ) (y : UInt8), buf.bytes[n]? = some (some y) → buf'.bytes[n]? = some (some y)) :
    Keeps s (s.setBuf b x) := by
  refine ⟨Nat.le_of_eq (List.length_set ..).symm, fun b' _ buf' hbuf' ↦ ?_⟩
  rw [State.buf?_setBuf _ _ _ x (State.lt_of_buf? hbuf)] at hbuf'
  split at hbuf'
  next hb =>
    obtain ⟨hused, hbytes⟩ := hx buf' hbuf'
    exact ⟨buf, hb ▸ hbuf, hused, hbytes⟩
  next => exact ⟨buf', hbuf', Nat.le_refl _, fun _ _ h ↦ h⟩

theorem keeps_clone (b : ℕ) : Keeps s (s.clone b) := by
  rw [State.clone]
  split
  next buf hbuf =>
    refine keeps_setBuf hbuf ?_
    rintro buf' ⟨⟩
    exact ⟨Nat.le_refl _, fun _ _ h ↦ h⟩
  next => exact Keeps.refl s

theorem keeps_release (b : ℕ) : Keeps s (s.release b) := by
  rw [State.release]
  split
  next buf hbuf =>
    split
    · refine keeps_setBuf hbuf ?_
      rintro buf' ⟨⟩
      exact ⟨Nat.le_refl _, fun _ _ h ↦ h⟩
    · exact keeps_setBuf hbuf fun buf' h ↦ (by cases h)
  next => exact Keeps.refl s

theorem keeps_pushBuf (cap accounted : ℕ) (t : List UInt8) : Keeps s (s.pushBuf cap accounted t) := by
  rw [State.pushBuf]
  split
  · refine Keeps.trans ?_ (keeps_push _)
    refine ⟨?_, ?_⟩
    · rw [List.length_append]
      exact Nat.le_add_right _ _
    · intro b hb buf hbuf
      rw [State.buf?] at hbuf
      dsimp only at hbuf
      rw [List.getElem?_append_left hb] at hbuf
      exact ⟨buf, hbuf, Nat.le_refl _, fun _ _ h ↦ h⟩
  · exact keeps_push _

theorem vals_pushBuf (cap accounted : ℕ) (t : List UInt8) :
    ∃ v, (s.pushBuf cap accounted t).vals = s.vals ++ [some v] := by
  rw [State.pushBuf]
  split
  · exact ⟨_, rfl⟩
  · exact ⟨_, rfl⟩

/-- Strings last where one is added and the others keep their contents. -/
theorem lasts_of_inv {a' : ImmStrings} {v : StrData} (hinv : Inv s a) (hinv' : Inv s' a')
    (hvals : s'.vals = s.vals ++ [some v]) (hpre : a.vals <+: a'.vals) : Lasts s s' := by
  refine ⟨by rw [hvals, List.length_append]; exact Nat.le_add_right _ _, fun i hi w hw ↦ ?_⟩
  have hw' : s.val? i = some w := by
    rw [State.val?, hvals, List.getElem?_append_left hi] at hw
    exact hw
  refine ⟨hw', ?_⟩
  obtain ⟨t, ht, hs⟩ := hinv.contents i w hw'
  obtain ⟨t', ht', hs'⟩ := hinv'.contents i w hw
  obtain ⟨rest, hrest⟩ := hpre
  rw [← hrest, List.getElem?_append_left (List.getElem?_eq_some_iff.1 ht).1, ht] at ht'
  rw [hs, hs', ← Option.some.inj ht']

/-! ### Steps -/

theorem asStr_copyOf (t : List UInt8) : s.asStr (StrData.copyOf t) = some t := by
  rw [StrData.copyOf, StrData.inline?]
  split
  · rfl
  · exact congrArg some (List.take_left' rfl)

theorem holds_copyOf (t : List UInt8) (b : ℕ) : State.holds b (some (StrData.copyOf t)) = false := by
  rw [StrData.copyOf, StrData.inline?]
  split
  · rfl
  · rfl

/-- A step adds string `t` and returns its number. -/
def Adds (s : State) (a : ImmStrings) (r : State × Output) (t : List UInt8) : Prop :=
  r.2 = .created a.vals.length ∧ Inv r.1 (a.push t).1 ∧ Lasts s r.1 ∧ Keeps s r.1

theorem Inv.adds_push (hinv : Inv s a) {v : StrData} {t : List UInt8} (hv : s.asStr v = some t)
    (hnot : ∀ b, State.holds b (some v) = false) :
    Adds s a (s.push v, .created s.vals.length) t :=
  ⟨by rw [hinv.vals_length], hinv.push hv hnot, lasts_push v, keeps_push v⟩

theorem Inv.adds_pushBuf (hinv : Inv s a) {cap accounted : ℕ} {t : List UInt8}
    (hcap : t.length ≤ cap) :
    Adds s a (s.pushBuf cap accounted t, .created s.vals.length) t := by
  obtain ⟨v, hvals⟩ := vals_pushBuf (s := s) cap accounted t
  have hinv' := hinv.pushBuf cap accounted hcap
  exact ⟨by rw [hinv.vals_length], hinv', lasts_of_inv hinv hinv' hvals (List.prefix_append ..),
    keeps_pushBuf cap accounted t⟩

/-- The end of a call does not matter to strings and buffers. -/
theorem Adds.of_endCall {k : ℕ} {r : State × Output} {t : List UInt8}
    (h : Adds { s with calls := s.calls.set k none } a r t) : Adds s a r t := by
  obtain ⟨hout, hinv, hlasts, hkeeps⟩ := h
  refine ⟨hout, hinv, ⟨hlasts.1, fun i hi v hv ↦ ?_⟩, hkeeps⟩
  obtain ⟨hv', hs⟩ := hlasts.2 i hi v hv
  refine ⟨hv', hs.trans ?_⟩
  cases v <;> rfl

theorem Inv.tail_contents (hinv : Inv s a) {tail : Tail} {w : StrData} (hw : s.tail? tail = some w) :
    ∃ t, a.tailBytes tail = some t ∧ s.asStr w = some t := by
  cases tail with
  | text t =>
    obtain rfl : .owned t = w := Option.some.inj hw
    exact ⟨t, rfl, rfl⟩
  | value i => exact hinv.contents i w hw

theorem startClaim_cases (v : StrData) (h t : List UInt8) :
    s.startClaim v h t = (s, none) ∨ ∃ c s₁, State.claimFor v h t = some c ∧
      s.tryClaim c = some s₁ ∧ s.startClaim v h t = (s₁, some c) := by
  rw [State.startClaim]
  cases hc : State.claimFor v h t with
  | none => exact .inl rfl
  | some c =>
    dsimp only
    cases ht : s.tryClaim c with
    | none => exact .inl rfl
    | some s₁ => exact .inr ⟨c, s₁, rfl, ht, rfl⟩

theorem claimFor_eq_some {v : StrData} {h t : List UInt8} {c : Claim}
    (hc : State.claimFor v h t = some c) :
    inlineMax < h.length + t.length ∧ h.length + t.length < 2 ^ 32 ∧ c.n = t.length ∧
      ∃ start len acc, v = .shared c.buf start len acc ∧ c.start = start + len := by
  cases v with
  | inline len bytes => cases hc
  | owned u => cases hc
  | shared b start len acc =>
    have hc' : (if inlineMax < h.length + t.length ∧ h.length + t.length < 2 ^ 32 then
      some (⟨b, start + len, t.length⟩ : Claim) else none) = some c := hc
    split at hc'
    next hcond =>
      cases hc'
      exact ⟨hcond.1, hcond.2, rfl, start, len, acc, rfl, rfl⟩
    next => cases hc'

/-- `concat` starts: the result is settled, and the bytes it needs are claimed if they can be. -/
theorem concat_refines (hinv : Inv s a) {i : ℕ} {tail : Tail} {o : Output}
    (hstep : s.concat i tail = some (s', o)) :
    ∃ a', a.step (.concat i tail) = some (a', o) ∧ Inv s' a' ∧ Lasts s s' ∧ Keeps s s' := by
  rw [State.concat] at hstep
  cases hv : s.val? i with
  | none => rw [hv] at hstep; cases hstep
  | some v =>
  cases hw : s.tail? tail with
  | none => rw [hv, hw] at hstep; cases hstep
  | some w =>
  obtain ⟨h, hah, hsh⟩ := hinv.contents i v hv
  obtain ⟨t, hat, hst⟩ := hinv.tail_contents hw
  simp only [hv, hw, hsh, hst, Option.bind_eq_bind, Option.bind_some] at hstep
  have hspec : a.step (.concat i tail) =
      some ({ a with calls := a.calls ++ [h ++ t] }, .started s.calls.length) := by
    rw [← hinv.calls_length]
    show (a.vals[i]? >>= fun h ↦ a.tailBytes tail >>= fun t ↦ _) = _
    rw [hah, hat]
    rfl
  rcases startClaim_cases (s := s) v h t with hnone | ⟨c, s₁, hfor, htry, hsome⟩
  · rw [hnone] at hstep
    cases hstep
    refine ⟨_, hspec, hinv.pushCall hv hw hsh hst (fun c hc ↦ (by cases hc))
      (fun c hc ↦ (by cases hc)), ⟨Nat.le_refl _, fun j _ u hu ↦ ⟨hu, ?_⟩⟩, Keeps.refl s⟩
    cases u <;> rfl
  · rw [hsome] at hstep
    cases hstep
    obtain ⟨hin, hlt, hn, start, len, acc, rfl, hstart⟩ := claimFor_eq_some hfor
    obtain ⟨buf, hbuf, hcap, hused, rfl⟩ := tryClaim_eq_some htry
    have hno := hinv.no_claims hv hbuf (hused.trans hstart)
    obtain ⟨hinv₁, hsame⟩ := hinv.claimBytes (c.start + c.n) hbuf (by omega) hcap hno
    have hbuf₁ : (s.setBuf c.buf (some { buf with used := c.start + c.n })).buf? c.buf =
        some { buf with used := c.start + c.n } := by
      rw [State.buf?_setBuf _ _ _ _ (State.lt_of_buf? hbuf), if_pos rfl]
    refine ⟨_, hspec, ?_, ?_, ?_⟩
    · refine hinv₁.pushCall (v := .shared c.buf start len acc) hv (hsame.tail hw).1
        ((hsame _ _ hv).2.trans hsh) ((hsame.tail hw).2.trans hst) ?_ ?_
      · rintro _ ⟨⟩
        exact ⟨hin, hlt, hn, start, len, acc, rfl, hstart⟩
      · rintro _ ⟨⟩
        refine ⟨_, hbuf₁, rfl, ?_, ?_, hno⟩
        · intro j first l ac hj
          obtain ⟨buf', hbuf', hle⟩ := hinv.bound j c.buf first l ac hj
          obtain rfl : buf = buf' := Option.some.inj (hbuf.symm.trans hbuf')
          exact Nat.le_trans hle (Nat.le_of_eq hused)
        · intro n x hx
          exact Nat.lt_of_lt_of_le (hinv.unwritten c.buf buf n x hbuf hx) (Nat.le_of_eq hused)
    · refine ⟨Nat.le_refl _, fun j _ u hu ↦ ⟨hu, ?_⟩⟩
      rw [← (hsame j u hu).2]
      cases u <;> rfl
    · refine Keeps.trans (keeps_setBuf (x := some { buf with used := c.start + c.n }) hbuf ?_)
        (Keeps.refl _)
      rintro buf' ⟨⟩
      exact ⟨show buf.used ≤ c.start + c.n by omega, fun _ _ hx ↦ hx⟩

theorem vals_clone (b : ℕ) : (s.clone b).vals = s.vals := by
  rw [State.clone]
  split
  · rfl
  · rfl

theorem vals_write (b start : ℕ) (t : List UInt8) : (s.write b start t).vals = s.vals := by
  rw [State.write]
  split
  · rfl
  · rfl

theorem claims_write {b start k : ℕ} {t : List UInt8} {c : Claim}
    (h : (s.write b start t).Claims k c) : s.Claims k c := by
  obtain ⟨p, hp, hrest⟩ := h
  refine ⟨p, ?_, hrest⟩
  rw [State.write] at hp
  split at hp
  · exact hp
  · exact hp

/-- Text goes behind a string whose end no other claim disputes, and a string covers both. -/
theorem Inv.adds_append (hinv : Inv s a) {b i start len acc acc' : ℕ} {h t : List UInt8}
    {buf : SharedBuf} (hbuf : s.buf? b = some buf)
    (hv : s.val? i = some (.shared b start len acc))
    (hh : s.asStr (.shared b start len acc) = some h) (hfit : start + len + t.length ≤ buf.used)
    (hends : ∀ j first l ac, s.val? j = some (.shared b first l ac) →
      t = [] ∨ first + l ≤ start + len)
    (hfree : t = [] ∨ ∀ n x, buf.bytes[n]? = some (some x) → n < start + len)
    (hno : ∀ k c, s.Claims k c → t = [] ∨ c.buf ≠ b) :
    Adds s a (((s.write b (start + len) t).clone b).push
      (.shared b start (h.length + t.length) acc'), .created s.vals.length) (h ++ t) := by
  obtain ⟨buf', hbuf', hcells, hlen⟩ := State.asStr_shared_iff.1 hh
  obtain rfl : buf = buf' := Option.some.inj (hbuf.symm.trans hbuf')
  obtain ⟨hcap, hbytes, -⟩ := hinv.buf_facts hbuf
  obtain ⟨hinv₁, -⟩ := hinv.write hbuf hfit hends hfree hno
  have hwrite := write_eq (start + len) t hbuf
  have hbuf₁ : (s.write b (start + len) t).buf? b =
      some { buf with bytes := written buf.bytes (start + len) t } := by
    rw [hwrite, State.buf?_setBuf _ _ _ _ (State.lt_of_buf? hbuf), if_pos rfl]
  have hstr : (s.write b (start + len) t).asStr (.shared b start (h.length + t.length) acc') =
      some (h ++ t) := by
    refine State.asStr_shared_iff.2 ⟨_, hbuf₁, ?_, List.length_append⟩
    have hhead : (buf.bytes.take (start + len)).drop start = h.map some := by
      rw [List.drop_take, Nat.add_sub_cancel_left]
      exact hcells
    rw [written, List.append_assoc, List.drop_append_of_le_length (by rw [List.length_take]; omega),
      hhead, ← List.append_assoc, ← List.map_append]
    exact List.take_left' (by simp)
  have hinv₂ := hinv₁.pushShared acc' hbuf₁
    (show start + (h.length + t.length) ≤ buf.used by omega) hstr (by
      intro k c hc hb
      rcases hno k c (claims_write hc) with rfl | hne
      · -- nothing is added: the string is as long as the one it extends
        obtain ⟨_, _, _, hbelow, _⟩ := hinv.claim k c (claims_write hc)
        have := hbelow i start len acc (hb ▸ hv)
        simp only [List.length_nil]
        omega
      · exact absurd hb hne)
  have hvals : (((s.write b (start + len) t).clone b).push
      (.shared b start (h.length + t.length) acc')).vals =
        s.vals ++ [some (.shared b start (h.length + t.length) acc')] := by
    rw [State.push, vals_clone, vals_write]
  refine ⟨by rw [hinv.vals_length], hinv₂, lasts_of_inv hinv hinv₂ hvals (List.prefix_append ..), ?_⟩
  refine Keeps.trans (Keeps.trans ?_ (keeps_clone _)) (keeps_push _)
  rw [hwrite]
  refine keeps_setBuf hbuf ?_
  rintro buf' ⟨⟩
  refine ⟨Nat.le_refl _, fun n x hx ↦ ?_⟩
  rcases hfree with rfl | hfree
  · simpa [written] using hx
  · rw [← hx]
    exact written_below (by omega) (hfree n x hx)

/-- A call that has claimed its bytes copies them and returns a string over both operands. -/
theorem Inv.adds_claimed (hinv : Inv s a) {k : ℕ} {p : Pending} {c : Claim} {start len acc acc' : ℕ}
    {h t : List UInt8} (hp : s.call? k = some p) (hpc : p.claim = some c)
    (hv : s.val? p.head = some (.shared c.buf start len acc))
    (hh : s.asStr (.shared c.buf start len acc) = some h) (hn : c.n = t.length)
    (hstart : c.start = start + len) :
    Adds s a (((State.write { s with calls := s.calls.set k none } c.buf c.start t).clone c.buf).push
      (.shared c.buf start (h.length + t.length) acc'), .created s.vals.length) (h ++ t) := by
  obtain ⟨buf, hbuf, hend⟩ := hinv.bound _ _ _ _ _ hv
  rw [hstart]
  refine Adds.of_endCall (k := k) ?_
  rcases eq_or_ne t [] with rfl | ht
  · exact (hinv.endCall k).adds_append hbuf hv hh hend (fun _ _ _ _ _ ↦ .inl rfl) (.inl rfl)
      (fun _ _ _ ↦ .inl rfl)
  · have hc : s.Claims k c := ⟨p, hp, hpc, hn ▸ List.length_pos_iff.2 ht⟩
    obtain ⟨buf', hbuf', hused, hends, hfree⟩ := hinv.claim k c hc
    obtain rfl : buf = buf' := Option.some.inj (hbuf.symm.trans hbuf')
    rw [hstart] at hused hends hfree
    refine (hinv.endCall k).adds_append hbuf hv hh (by omega)
      (fun j first l ac hj ↦ .inr (hends j first l ac hj)) (.inr hfree) ?_
    rintro k' c' ⟨p', hp', hrest⟩
    obtain ⟨hk, hp''⟩ := call?_endCall hp'
    exact .inr fun hb ↦ hk (hinv.unique k' k c' c ⟨p', hp'', hrest⟩ hc hb)

/-- **`concat` returns the concatenation**, whether it appended in place or copied. -/
theorem finish_refines (hinv : Inv s a) {k : ℕ} {o : Output} (hstep : s.finish k = some (s', o)) :
    ∃ t, a.calls[k]? = some t ∧ Adds s a (s', o) t := by
  rw [State.finish] at hstep
  cases hp : s.call? k with
  | none => rw [hp] at hstep; cases hstep
  | some p =>
  obtain ⟨v, w, h, t, hv, hw, hh, ht, hres, hclaim⟩ := hinv.call k p hp
  refine ⟨h ++ t, hres, ?_⟩
  simp only [hp, hv, hw, hh, ht, Option.bind_eq_bind, Option.bind_some] at hstep
  split at hstep
  · cases hstep
    refine ((hinv.endCall k).adds_push ?_ fun _ ↦ rfl).of_endCall
    exact congrArg some (List.take_left' List.length_append)
  · have hcopy : Adds s a (State.pushBuf { s with calls := s.calls.set k none }
        (max ((h.length + t.length) * 2) minSharedCap) (max ((h.length + t.length) * 2) minSharedCap)
        (h ++ t), .created s.vals.length) (h ++ t) := by
      refine ((hinv.endCall k).adds_pushBuf ?_).of_endCall
      rw [List.length_append]
      omega
    split at hstep
    next b start len acc c hpc =>
      cases hstep
      obtain ⟨-, -, hn, first, l, ac, heq, hstart⟩ := hclaim c hpc
      cases heq
      exact hinv.adds_claimed hp hpc hv hh hn hstart
    next =>
      cases hstep
      exact hcopy

theorem getRange_eq_some {t part : List UInt8} {i j : ℕ} (h : getRange t i j = some part) :
    i + part.length ≤ t.length ∧ part = (t.drop i).take part.length := by
  rw [getRange] at h
  split at h
  next hc =>
    obtain rfl : (t.drop i).take (j - i) = part := Option.some.inj h
    have hlen : ((t.drop i).take (j - i)).length = j - i := by
      rw [List.length_take, List.length_drop]
      omega
    rw [hlen]
    exact ⟨by omega, rfl⟩
  next => cases h

/-- A part of a shared string is a shared string. -/
theorem Inv.adds_view (hinv : Inv s a) {i start : ℕ} {v : StrData} {t part : List UInt8}
    (hv : s.val? i = some v) (ht : s.asStr v = some t) (hle : start + part.length ≤ t.length)
    (hpart : part = (t.drop start).take part.length) (hview : s.view? v start part = some s') :
    Adds s a (s', .created s.vals.length) part := by
  cases v with
  | inline len bytes => cases hview
  | owned u => cases hview
  | shared b first len acc =>
    obtain ⟨buf, hbuf, hend⟩ := hinv.bound i b first len acc hv
    rw [State.view?, hbuf] at hview
    dsimp only at hview
    split at hview
    · rw [StrData.shared?] at hview
      split at hview
      · cases hview
        obtain ⟨buf', hbuf', hcells, hlen⟩ := State.asStr_shared_iff.1 ht
        obtain rfl : buf = buf' := Option.some.inj (hbuf.symm.trans hbuf')
        have hstr : s.asStr (.shared b (first + start) part.length 0) = some part := by
          refine State.asStr_shared_iff.2 ⟨buf, hbuf, ?_, rfl⟩
          have hcut : (buf.bytes.drop (first + start)).take part.length =
              (((buf.bytes.drop first).take len).drop start).take part.length := by
            rw [List.drop_take, List.take_take, List.drop_drop, Nat.min_eq_left (by omega)]
          rw [hcut, hcells, ← List.map_drop, ← List.map_take, ← hpart]
        have hinv' := hinv.pushShared 0 hbuf (show first + start + part.length ≤ buf.used by
          omega) hstr (by
            rintro k c hc rfl
            obtain ⟨_, _, _, hbelow, _⟩ := hinv.claim k c hc
            have := hbelow i first len acc hv
            omega)
        have hvals : ((s.clone b).push (.shared b (first + start) part.length 0)).vals =
            s.vals ++ [some (.shared b (first + start) part.length 0)] := by
          rw [State.push, vals_clone]
        exact ⟨by rw [hinv.vals_length], hinv', lasts_of_inv hinv hinv' hvals (List.prefix_append ..),
          (keeps_clone b).trans (keeps_push _)⟩
      · cases hview
    · cases hview

theorem slice_refines (hinv : Inv s a) {i start stop : ℕ} {o : Output}
    (hstep : s.slice i start stop = some (s', o)) :
    ∃ t, a.vals[i]? = some t ∧
      (getRange t start stop = none ∧ o = .refused ∧ s' = s ∨
        ∃ part, getRange t start stop = some part ∧ Adds s a (s', o) part) := by
  rw [State.slice] at hstep
  cases hv : s.val? i with
  | none => rw [hv] at hstep; cases hstep
  | some v =>
  obtain ⟨t, hat, hst⟩ := hinv.contents i v hv
  refine ⟨t, hat, ?_⟩
  simp only [hv, hst, Option.bind_eq_bind, Option.bind_some] at hstep
  cases hr : getRange t start stop with
  | none =>
    rw [hr] at hstep
    cases hstep
    exact .inl ⟨rfl, rfl, rfl⟩
  | some part =>
    rw [hr] at hstep
    dsimp only at hstep
    refine .inr ⟨part, rfl, ?_⟩
    obtain ⟨hle, hpart⟩ := getRange_eq_some hr
    split at hstep
    · cases hstep
      exact hinv.adds_push (asStr_copyOf part) (holds_copyOf part)
    · cases hview : s.view? v start part with
      | none =>
        rw [hview] at hstep
        cases hstep
        exact hinv.adds_pushBuf (Nat.le_refl _)
      | some s₁ =>
        rw [hview] at hstep
        cases hstep
        exact hinv.adds_view hv hst hle hpart hview

/-- The buffers after a string of buffer `b` has gone: the last one takes the buffer with it. -/
theorem buf?_release {i b : ℕ} {buf : SharedBuf} (hbuf : s.buf? b = some buf) (b' : ℕ) :
    ((gone s i).release b).buf? b' =
      if b' = b then (if buf.refs ≠ 1 then some { buf with refs := buf.refs - 1 } else none)
      else s.buf? b' := by
  have hlt : b < (gone s i).bufs.length := State.lt_of_buf? hbuf
  rw [State.release, show (gone s i).buf? b = some buf from hbuf]
  dsimp only
  by_cases hrefs : buf.refs ≠ 1
  · rw [if_pos hrefs, if_pos hrefs, State.buf?_setBuf _ _ _ _ hlt]
    rfl
  · rw [if_neg hrefs, if_neg hrefs, State.buf?_setBuf _ _ _ _ hlt]
    rfl

/-- A string goes away; the others and their buffers stay. -/
theorem drop_refines (hinv : Inv s a) {i : ℕ} {o : Output} (hstep : s.drop i = some (s', o)) :
    o = .unit ∧ Inv s' a ∧ Lasts s s' ∧ Keeps s s' := by
  rw [State.drop] at hstep
  cases hv : s.val? i with
  | none => rw [hv] at hstep; cases hstep
  | some v =>
  simp only [hv, Option.bind_eq_bind, Option.bind_some] at hstep
  split at hstep
  next => cases hstep
  next hidle =>
  have hidle : s.calls.any (·.any (·.borrows i)) = false := Bool.not_eq_true _ ▸ hidle
  have hlasts : ∀ {s₁ : State}, s₁.vals = s.vals.set i none →
      (∀ j w, j ≠ i → s.val? j = some w → s₁.val? j = some w ∧ s₁.asStr w = s.asStr w) →
      Lasts s s₁ := by
    intro s₁ hvals hkeep
    refine ⟨Nat.le_of_eq (by rw [hvals, List.length_set]), fun j _ w hw ↦ ?_⟩
    have hw' : (gone s i).val? j = some w := by rw [← hw, State.val?, State.val?, hvals]; rfl
    obtain ⟨hj, hwj⟩ := val?_gone hw'
    exact ⟨hwj, (hkeep j w hj hwj).2⟩
  split at hstep
  next b start len acc =>
    obtain ⟨rfl, rfl⟩ := Prod.mk.inj (Option.some.inj hstep)
    obtain ⟨buf, hbuf, -⟩ := hinv.bound i b start len acc hv
    have hkeeps : Keeps s ((gone s i).release b) := keeps_release (s := gone s i) b
    have hrelease : (gone s i).release b = if buf.refs ≠ 1 then
        (gone s i).setBuf b (some { buf with refs := buf.refs - 1 }) else (gone s i).setBuf b none := by
      rw [State.release, show (gone s i).buf? b = some buf from hbuf]
    have hvals : ((gone s i).release b).vals = s.vals.set i none := by
      rw [hrelease]
      split
      · rfl
      · rfl
    have hcalls : ((gone s i).release b).calls = s.calls := by
      rw [hrelease]
      split
      · rfl
      · rfl
    have hnewbuf := fun b' ↦ buf?_release (i := i) hbuf b'
    obtain ⟨hinv', hkeep⟩ := hinv.dropWith hv hidle hvals hcalls
      (by
        intro j b' first l ac buf' hj hw hbuf'
        rw [hnewbuf]
        by_cases hb : b' = b
        · subst hb
          obtain rfl : buf = buf' := Option.some.inj (hbuf.symm.trans hbuf')
          -- the other string still holds the buffer
          have hpos : 0 < (gone s i).handles b' :=
            State.handles_pos ((val?_gone_of_ne hj).trans hw)
          rw [handles_gone hv, if_pos (by simp [State.holds]), ← hinv.refs b' buf hbuf] at hpos
          have hrefs : buf.refs ≠ 1 := by omega
          exact ⟨{ buf with refs := buf.refs - 1 }, by rw [if_pos rfl, if_pos hrefs], rfl, rfl⟩
        · exact ⟨buf', by rw [if_neg hb]; exact hbuf', rfl, rfl⟩)
      (by
        intro b' buf₁ hbuf₁
        rw [hnewbuf] at hbuf₁
        by_cases hb : b' = b
        · subst hb
          rw [if_pos rfl] at hbuf₁
          split at hbuf₁
          · cases hbuf₁
            exact ⟨buf, hbuf, rfl, rfl, rfl, by rw [if_pos (by simp [State.holds])]⟩
          · cases hbuf₁
        · rw [if_neg hb] at hbuf₁
          exact ⟨buf₁, hbuf₁, rfl, rfl, rfl,
            by rw [if_neg (by simpa [State.holds] using fun h ↦ hb h.symm)]; rfl⟩)
    exact ⟨rfl, hinv', hlasts hvals hkeep, hkeeps⟩
  next hns =>
    obtain ⟨rfl, rfl⟩ := Prod.mk.inj (Option.some.inj hstep)
    have hfree : ∀ b, State.holds b (some v) = false := by
      intro b
      cases v with
      | inline len bytes => rfl
      | owned t => rfl
      | shared b' start len acc => exact absurd rfl (hns b' start len acc)
    obtain ⟨hinv', hkeep⟩ : Inv (gone s i) _ ∧ _ := hinv.dropWith hv hidle rfl rfl
      (fun j b start len acc buf _ _ hbuf ↦ ⟨buf, hbuf, rfl, rfl⟩)
      (fun b buf hbuf ↦ ⟨buf, hbuf, rfl, rfl, rfl, by rw [hfree b]; rfl⟩)
    exact ⟨rfl, hinv', hlasts rfl hkeep, Keeps.refl s⟩

/-- **Every step of the buffers is a step of the immutable strings**, with the same output. -/
theorem step_refines (hinv : Inv s a) {act : Action} {o : Output} (hstep : s.step act = some (s', o)) :
    ∃ a', a.step act = some (a', o) ∧ Inv s' a' ∧ Lasts s s' ∧ Keeps s s' := by
  cases act with
  | new t =>
    obtain ⟨rfl, rfl⟩ := Prod.mk.inj (Option.some.inj hstep)
    obtain ⟨hout, hrest⟩ := hinv.adds_push (asStr_copyOf t) (holds_copyOf t)
    exact ⟨_, congrArg (fun o ↦ some ((a.push t).1, o)) hout.symm, hrest⟩
  | concat i tail => exact concat_refines hinv hstep
  | finish k =>
    obtain ⟨t, ht, hout, hrest⟩ := finish_refines hinv hstep
    refine ⟨_, ?_, hrest⟩
    show (a.calls[k]? >>= fun t ↦ some (a.push t)) = _
    rw [ht]
    exact congrArg (fun o ↦ some ((a.push t).1, o)) hout.symm
  | slice i start stop =>
    obtain ⟨t, ht, ⟨hr, rfl, rfl⟩ | ⟨part, hr, hout, hrest⟩⟩ := slice_refines hinv hstep
    · refine ⟨a, ?_, hinv, Lasts.refl s', Keeps.refl s'⟩
      show (a.vals[i]? >>= fun t ↦ _) = _
      rw [ht]
      simp only [Option.bind_eq_bind, Option.bind_some, hr]
    · refine ⟨_, ?_, hrest⟩
      show (a.vals[i]? >>= fun t ↦ _) = _
      rw [ht]
      simp only [Option.bind_eq_bind, Option.bind_some, hr]
      exact congrArg (fun o ↦ some ((a.push part).1, o)) hout.symm
  | read i =>
    have hstep : s.read i = some (s', o) := hstep
    rw [State.read] at hstep
    cases hv : s.val? i with
    | none => rw [hv] at hstep; cases hstep
    | some v =>
      obtain ⟨t, hat, hst⟩ := hinv.contents i v hv
      simp only [hv, hst, Option.bind_eq_bind, Option.bind_some] at hstep
      cases hstep
      refine ⟨a, ?_, hinv, Lasts.refl _, Keeps.refl _⟩
      show (a.vals[i]? >>= fun t ↦ some (a, Output.contents t)) = _
      rw [hat]
      rfl
  | drop i =>
    obtain ⟨rfl, hrest⟩ := drop_refines hinv hstep
    exact ⟨a, rfl, hrest⟩

theorem run_inv (acts : List Action) {outs : List Output} (hinv : Inv s a)
    (hrun : s.run acts = some (s', outs)) :
    ∃ a', a.run acts = some (a', outs) ∧ Inv s' a' ∧ Lasts s s' ∧ Keeps s s' := by
  induction acts generalizing s a outs with
  | nil =>
    cases hrun
    exact ⟨a, rfl, hinv, Lasts.refl _, Keeps.refl _⟩
  | cons act acts ih =>
    rw [State.run] at hrun
    cases hstep : s.step act with
    | none => rw [hstep] at hrun; cases hrun
    | some r =>
      obtain ⟨s₁, o⟩ := r
      rw [hstep] at hrun
      have hrun : (s₁.run acts >>= fun r ↦ some (r.1, o :: r.2)) = some (s', outs) := hrun
      cases hrest : s₁.run acts with
      | none => rw [hrest] at hrun; cases hrun
      | some r =>
        obtain ⟨s₂, os⟩ := r
        rw [hrest] at hrun
        cases hrun
        obtain ⟨a₁, ha₁, hinv₁, hlasts₁, hkeeps₁⟩ := step_refines hinv hstep
        obtain ⟨a₂, ha₂, hinv₂, hlasts₂, hkeeps₂⟩ := ih hinv₁ hrest
        refine ⟨a₂, ?_, hinv₂, hlasts₁.trans hlasts₂, hkeeps₁.trans hkeeps₂⟩
        rw [ImmStrings.run, ha₁]
        show (a₁.run acts >>= fun r ↦ some (r.1, o :: r.2)) = _
        rw [ha₂]
        rfl

/-- **Whatever the threads do, in whatever order, the strings behave as immutable strings**: every
output is the one the immutable strings give (so that `concat` gives the concatenation and no step reads
bytes that are not there), the strings at hand hold their contents, and every shared one lies below `used`.
However the run goes on, a string that is still there has the contents it had, `used` does not
go down, and the bytes written below it stay. -/
theorem run_refines {acts : List Action} {outs : List Output} (h : State.init.run acts = some (s, outs)) :
    (∃ a, ImmStrings.init.run acts = some (a, outs) ∧
      ∀ i v, s.val? i = some v → ∃ t, a.vals[i]? = some t ∧ s.asStr v = some t) ∧
    (∀ i b start len acc, s.val? i = some (.shared b start len acc) →
      ∃ buf, s.buf? b = some buf ∧ start + len ≤ buf.used ∧ buf.used ≤ buf.cap) ∧
    ∀ acts' s' outs', s.run acts' = some (s', outs') →
      (∀ i v v', s.val? i = some v → s'.val? i = some v' → v' = v ∧ s'.asStr v = s.asStr v) ∧
      ∀ b buf buf', s.buf? b = some buf → s'.buf? b = some buf' → buf.used ≤ buf'.used ∧
        ∀ (n : ℕ) (x : UInt8), n < buf.used → buf.bytes[n]? = some (some x) →
          buf'.bytes[n]? = some (some x) := by
  obtain ⟨a, ha, hinv, -, -⟩ := run_inv acts inv_init h
  refine ⟨⟨a, ha, hinv.contents⟩, ?_, ?_⟩
  · intro i b start len acc hv
    obtain ⟨buf, hbuf, hle⟩ := hinv.bound i b start len acc hv
    exact ⟨buf, hbuf, hle, (hinv.room b buf hbuf).1⟩
  · intro acts' s' outs' hrun
    obtain ⟨a', -, -, hlasts, hkeeps⟩ := run_inv acts' hinv hrun
    constructor
    · intro i v v' hv hv'
      obtain ⟨hback, hs⟩ := hlasts.2 i (State.lt_of_val? hv) v' hv'
      obtain rfl : v' = v := Option.some.inj (hback.symm.trans hv)
      exact ⟨rfl, hs⟩
    · intro b buf buf' hbuf hbuf'
      obtain ⟨buf₀, hbuf₀, hused, hbytes⟩ := hkeeps.2 b (State.lt_of_buf? hbuf) buf' hbuf'
      obtain rfl : buf₀ = buf := Option.some.inj (hbuf₀.symm.trans hbuf)
      exact ⟨hused, fun n x _ ↦ hbytes n x⟩

/-- Two calls extend one string at once; the second finds the bytes claimed and copies. -/
theorem run_refines_contended : ∃ s outs,
    State.init.run [.new (List.replicate 31 65), .concat 0 (.text [66]), .finish 0,
      .concat 1 (.text [67]), .concat 1 (.text [68]), .finish 2, .finish 1, .read 2, .read 3] =
        some (s, outs) ∧
    ∃ a, ImmStrings.init.run [.new (List.replicate 31 65), .concat 0 (.text [66]), .finish 0,
      .concat 1 (.text [67]), .concat 1 (.text [68]), .finish 2, .finish 1, .read 2, .read 3] =
        some (a, outs) ∧
      ∀ i v, s.val? i = some v → ∃ t, a.vals[i]? = some t ∧ s.asStr v = some t :=
  ⟨_, _, rfl, (run_refines rfl).1⟩

end CoilLang.StrBuf
