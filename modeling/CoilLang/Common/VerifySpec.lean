import CoilLang.Common.Verify
import Mathlib.Data.List.GetD

/-!
# What the verifier has checked

What acceptance says about a word (`verifyByte_of_ok`), about frames (`frameRoots_spec`: words linked by
fall-through or a jump **have one root**) and about return widths (`verifyCalls_spec`: the widths contain
what each frame returns, flow back over tail calls, and hold nothing but what a call expects).
-/

namespace CoilLang.Verify

open SnapshotCodec (Slice)

/-! ### Words -/

section Words

variable {α β : Type}

theorem bind_ok {x : Except Reject α} {f : α → Except Reject β} {r : β} :
    (x >>= f) = .ok r ↔ ∃ a, x = .ok a ∧ f a = .ok r := by
  cases x with
  | error e => simp [bind, Except.bind]
  | ok a => simp [bind, Except.bind]

theorem seq_ok {x : Except Reject α} : (x *> Except.ok ()) = .ok () ↔ ∃ a, x = .ok a := by
  cases x with
  | error e => simp [SeqRight.seqRight, Except.bind]
  | ok a => simp [SeqRight.seqRight, Except.bind]

variable {len pc target idx : ℕ} {what : String} {pool : List UInt64}

theorem checkJump_ok : checkJump len pc target what = .ok () ↔ target ≤ len := by
  rw [checkJump]
  split <;> simp [fail] <;> omega

theorem checkEntry_ok : checkEntry len pc target what = .ok () ↔ target < len := by
  rw [checkEntry]
  split <;> simp [fail] <;> omega

theorem checkPool_ok {w : UInt64} : checkPool pool pc idx what = .ok w ↔ pool[idx]? = some w := by
  rw [checkPool]
  split <;> simp_all [fail]

theorem checkDirectOrPool_ok {b : Byte} (h : checkDirectOrPool pool len pc b what = .ok ()) :
    ∃ t, directOrPool pool b.jmpfTarget b.jmpfIsPool = .to t ∧ t ≤ len := by
  rw [checkDirectOrPool, bind_ok] at h
  obtain ⟨t, ht, hj⟩ := h
  rw [checkJump_ok] at hj
  refine ⟨t, ?_, hj⟩
  rw [directOrPool]
  rw [jmpTarget] at ht
  split at ht
  · rename_i hp
    rw [if_pos hp]
    cases hc : checkPool pool pc b.jmpfTarget what with
    | error e =>
      rw [hc] at ht
      cases ht
    | ok w =>
      rw [hc] at ht
      cases ht
      rw [checkPool_ok.mp hc]
  · rename_i hp
    rw [if_neg hp]
    cases ht
    rfl

theorem checkDesc_ok {b : Byte} (h : checkDesc pool len pc b what = .ok ()) :
    ∃ desc, pool[b.low16]? = some desc ∧ descTarget desc ≤ len := by
  rw [checkDesc, bind_ok] at h
  obtain ⟨_, -, h⟩ := h
  rw [bind_ok] at h
  obtain ⟨desc, hd, hj⟩ := h
  exact ⟨desc, checkPool_ok.mp hd, checkJump_ok.mp hj⟩

theorem verifyByte_of_ok {constants : Slice} {limits : VerifyLimits} {code : List Byte} {p : ℕ}
    (h : verifyBytes len constants limits p code = .ok ()) {i : ℕ} {b : Byte}
    (hb : code[i]? = some b) : verifyByte len constants limits (p + i) b = .ok () := by
  induction code generalizing p i with
  | nil => simp at hb
  | cons c code ih =>
    rw [verifyBytes, bind_ok] at h
    obtain ⟨_, hc, hrest⟩ := h
    cases i with
    | zero =>
      cases hb
      exact hc
    | succ i =>
      have := ih hrest (i := i) (by simpa using hb)
      rwa [show p + (i + 1) = p + 1 + i by omega]

end Words

/-! ### Frames -/

section Frames

open UnionFind (Descends Same Rep)

variable {n : ℕ}

theorem link_spec {pc : ℕ} {s : Step} {p q : List ℕ} (hp : Descends p) (hn : p.length = n)
    (hpc : pc < n) (h : link n pc s p = some q) :
    Descends q ∧ q.length = n ∧ (∀ x y, Same p x y → Same q x y) ∧
      (s.falls = true → pc + 1 < n → Same q pc (pc + 1)) ∧
      ∀ t, s.jump = .to t → t < n → Same q pc t := by
  -- After the fall-through.
  obtain ⟨p₁, hp₁, hd₁, hl₁, hs₁, hf₁⟩ : ∃ p₁,
      (if s.falls && pc + 1 < n then UnionFind.union p pc (pc + 1) else p) = p₁ ∧ Descends p₁ ∧
      p₁.length = n ∧ (∀ x y, Same p x y → Same p₁ x y) ∧
      (s.falls = true → pc + 1 < n → Same p₁ pc (pc + 1)) := by
    refine ⟨_, rfl, ?_⟩
    split
    · rename_i hc
      obtain ⟨h₁, h₂, h₃, h₄⟩ := UnionFind.union_spec hp (a := pc) (b := pc + 1) (by omega)
        (by simp at hc; omega)
      exact ⟨h₁, h₂.trans hn, h₄, fun _ _ ↦ h₃⟩
    · rename_i hc
      exact ⟨hp, hn, fun _ _ hs ↦ hs, fun h₁ h₂ ↦ absurd (by simp [h₁, h₂]) hc⟩
  rw [link] at h
  simp only [hp₁] at h
  cases hj : s.jump with
  | none =>
    rw [hj] at h
    cases h
    exact ⟨hd₁, hl₁, hs₁, hf₁, fun t ht ↦ by cases ht⟩
  | unknown =>
    rw [hj] at h
    cases h
  | «to» t =>
    rw [hj] at h
    by_cases ht : t < n
    · simp only [if_pos ht, Option.some.injEq] at h
      obtain ⟨h₁, h₂, h₃, h₄⟩ := UnionFind.union_spec hd₁ (a := pc) (b := t) (by omega) (by omega)
      rw [h] at h₁ h₂ h₃ h₄
      refine ⟨h₁, h₂.trans hl₁, fun x y hs ↦ h₄ x y (hs₁ x y hs), fun a b ↦ h₄ _ _ (hf₁ a b), ?_⟩
      intro t' ht' _
      cases ht'
      exact h₃
    · simp only [if_neg ht, Option.some.injEq] at h
      subst h
      refine ⟨hd₁, hl₁, hs₁, hf₁, fun t' ht' hlt ↦ ?_⟩
      cases ht'
      exact absurd hlt ht

theorem linkAll_spec {steps : List Step} {pc : ℕ} {p q : List ℕ} (hp : Descends p)
    (hn : p.length = n) (hpc : pc + steps.length = n) (h : linkAll n pc steps p = some q) :
    Descends q ∧ q.length = n ∧ (∀ x y, Same p x y → Same q x y) ∧
      ∀ i s, steps[i]? = some s →
        (s.falls = true → pc + i + 1 < n → Same q (pc + i) (pc + i + 1)) ∧
        ∀ t, s.jump = .to t → t < n → Same q (pc + i) t := by
  induction steps generalizing pc p with
  | nil =>
    cases h
    exact ⟨hp, hn, fun _ _ hs ↦ hs, fun i s hs ↦ by simp at hs⟩
  | cons c steps ih =>
    rw [linkAll, Option.bind_eq_some_iff] at h
    obtain ⟨p₁, h₁, hrest⟩ := h
    rw [List.length_cons] at hpc
    obtain ⟨d₁, l₁, s₁, f₁, j₁⟩ := link_spec hp hn (by omega) h₁
    obtain ⟨d₂, l₂, s₂, k₂⟩ := ih d₁ l₁ (by omega) hrest
    refine ⟨d₂, l₂, fun x y hs ↦ s₂ x y (s₁ x y hs), fun i s hi ↦ ?_⟩
    cases i with
    | zero =>
      cases hi
      exact ⟨fun a b ↦ s₂ _ _ (f₁ a b), fun t a b ↦ s₂ _ _ (j₁ t a b)⟩
    | succ i =>
      have := k₂ i s (by simpa using hi)
      rwa [show pc + 1 + i = pc + (i + 1) by omega] at this

theorem descends_range (n : ℕ) : Descends (List.range n) := by
  intro x
  rw [UnionFind.parentOf]
  cases hx : (List.range n)[x]? with
  | none => exact le_rfl
  | some y =>
    rw [List.getElem?_eq_some_iff] at hx
    obtain ⟨hlt, rfl⟩ := hx
    simp

/-- Words linked by fall-through or a jump have one root. -/
theorem frameRoots_spec {code : List Byte} {pool : List UInt64} {rs : List ℕ}
    (h : frameRoots code pool = some rs) :
    rs.length = code.length ∧ (∀ pc < code.length, rootAt rs pc < code.length) ∧
      ∀ pc b, code[pc]? = some b →
        ((step b pool).falls = true → pc + 1 < code.length → rootAt rs pc = rootAt rs (pc + 1)) ∧
        ∀ t, (step b pool).jump = .to t → t < code.length → rootAt rs pc = rootAt rs t := by
  rw [frameRoots, roots, Option.map_eq_some_iff] at h
  obtain ⟨p, hp, rfl⟩ := h
  simp only [List.length_map] at hp ⊢
  obtain ⟨hd, -, -, hlink⟩ := linkAll_spec (descends_range _) (by simp) (by simp) hp
  obtain ⟨-, -, hlen, hrep⟩ := UnionFind.allRoots_spec hd code.length
  have hroot : ∀ pc < code.length, Rep p pc (rootAt (UnionFind.allRoots p code.length).2 pc) := by
    intro pc hpc
    rw [rootAt, List.getElem?_eq_getElem (by omega), Option.getD_some]
    exact hrep pc _ (List.getElem?_eq_getElem (by omega))
  have hsame : ∀ x y, x < code.length → y < code.length → Same p x y →
      rootAt (UnionFind.allRoots p code.length).2 x =
        rootAt (UnionFind.allRoots p code.length).2 y := by
    rintro x y hx hy ⟨r, h₁, h₂⟩
    rw [(hroot x hx).unique h₁, (hroot y hy).unique h₂]
  refine ⟨hlen, fun pc hpc ↦ lt_of_le_of_lt ((hroot pc hpc).le hd) hpc, fun pc b hb ↦ ?_⟩
  have hpc : pc < code.length := (List.getElem?_eq_some_iff.mp hb).1
  have hs := hlink pc (step b pool) (by rw [List.getElem?_map, hb, Option.map_some])
  rw [Nat.zero_add] at hs
  exact ⟨fun hf hlt ↦ hsame _ _ hpc hlt (hs.1 hf hlt), fun t ht hlt ↦ hsame _ _ hpc hlt (hs.2 t ht hlt)⟩

/-- Frames are known as soon as every jump can be decoded. -/
theorem frameRoots_isSome {code : List Byte} {pool : List UInt64}
    (h : ∀ b ∈ code, (step b pool).jump ≠ .unknown) : ∃ rs, frameRoots code pool = some rs := by
  have hall : ∀ (steps : List Step) (n pc : ℕ) (p : List ℕ), (∀ s ∈ steps, s.jump ≠ .unknown) →
      ∃ q, linkAll n pc steps p = some q := by
    intro steps
    induction steps with
    | nil => exact fun n pc p _ ↦ ⟨p, rfl⟩
    | cons s steps ih =>
      intro n pc p hs
      rw [List.forall_mem_cons] at hs
      obtain ⟨p₁, hp₁⟩ : ∃ p₁, link n pc s p = some p₁ := by
        rw [link]
        cases hj : s.jump with
        | none => exact ⟨_, rfl⟩
        | unknown => exact absurd hj hs.1
        | «to» t => exact ⟨_, rfl⟩
      obtain ⟨q, hq⟩ := ih n (pc + 1) p₁ hs.2
      exact ⟨q, by rw [linkAll, hp₁, Option.bind_some, hq]⟩
  obtain ⟨q, hq⟩ := hall (code.map fun b ↦ step b pool) _ 0 (List.range _) (by simpa using h)
  exact ⟨_, by rw [frameRoots, roots, hq, Option.map_some]⟩

end Frames

/-! ### Return widths -/

section Widths

/-- Frame `r` may return `w` words. -/
def Widths.Has (ws : Widths) (r w : ℕ) : Prop := (ws.at r).getLsbD w = true

variable {ws : Widths} {r w : ℕ}

theorem Widths.at_set {i : ℕ} {v : BitVec 8} :
    Widths.at (ws.set i v) r = if i = r ∧ i < ws.length then v else ws.at r := by
  rw [Widths.at, List.getElem?_set]
  by_cases hi : i = r
  · subst hi
    by_cases hlen : i < ws.length
    · simp [hlen]
    · simp [hlen, Widths.at]
  · simp [hi, Widths.at]

/-- Adding bits to an entry takes none away. -/
theorem Widths.Has.set_or {i : ℕ} {v : BitVec 8} (h : ws.Has r w) :
    Widths.Has (ws.set i (ws.at i ||| v)) r w := by
  rw [Widths.Has, Widths.at_set]
  split
  · rename_i hi
    rw [BitVec.getLsbD_or, hi.1, Bool.or_eq_true]
    exact .inl h
  · exact h

theorem Widths.has_set_or {i : ℕ} {v : BitVec 8} (hi : i < ws.length) (hv : v.getLsbD w = true) :
    Widths.Has (ws.set i (ws.at i ||| v)) i w := by
  rw [Widths.Has, Widths.at_set, if_pos ⟨rfl, hi⟩, BitVec.getLsbD_or, hv, Bool.or_true]

theorem returnWidth_cases {b : Byte} (h : returnWidth b = some w) : w = 1 ∨ w = 2 := by
  rw [returnWidth] at h
  split at h
  · cases h
    rw [Byte.returnWords]
    split <;> simp
  all_goals
    cases h
    try exact .inl rfl

variable {rs : List ℕ} {code : List Byte}

theorem ownWidths_spec (rs : List ℕ) (code : List Byte) (ws : Widths) (pc : ℕ)
    (hrs : ∀ i, pc ≤ i → i < pc + code.length → rootAt rs i < ws.length) :
    (ownWidths rs pc code ws).length = ws.length ∧
      (∀ r w, ws.Has r w → (ownWidths rs pc code ws).Has r w) ∧
      ∀ i b w, code[i]? = some b → returnWidth b = some w →
        (ownWidths rs pc code ws).Has (rootAt rs (pc + i)) w := by
  induction code generalizing pc ws with
  | nil => exact ⟨rfl, fun _ _ h ↦ h, fun i b w hb ↦ by simp at hb⟩
  | cons c code ih =>
    rw [List.length_cons] at hrs
    rw [ownWidths]
    cases hc : returnWidth c with
    | none =>
      obtain ⟨h₁, h₂, h₃⟩ := ih ws (pc + 1) fun i hi hlt ↦ hrs i (by omega) (by omega)
      refine ⟨h₁, h₂, fun i b w hb hw ↦ ?_⟩
      cases i with
      | zero =>
        cases hb
        rw [hc] at hw
        cases hw
      | succ i =>
        rw [show pc + (i + 1) = pc + 1 + i by omega]
        exact h₃ i b w (by simpa using hb) hw
    | some words =>
      obtain ⟨h₁, h₂, h₃⟩ := ih
        (ws.set (rootAt rs pc) (ws.at (rootAt rs pc) ||| 1#8 <<< words)) (pc + 1) fun i hi hlt ↦ by
          rw [List.length_set]
          exact hrs i (by omega) (by omega)
      refine ⟨h₁.trans List.length_set, fun r w h ↦ h₂ r w h.set_or, fun i b w hb hw ↦ ?_⟩
      cases i with
      | zero =>
        cases hb
        rw [hc] at hw
        cases hw
        refine h₂ _ _ (Widths.has_set_or (hrs pc le_rfl (by omega)) ?_)
        rcases returnWidth_cases hc with rfl | rfl <;> decide
      | succ i =>
        rw [show pc + (i + 1) = pc + 1 + i by omega]
        exact h₃ i b w (by simpa using hb) hw

theorem mem_tailEdges (rs : List ℕ) (pc : ℕ) {i : ℕ} {b : Byte} (hb : code[i]? = some b) (ht : b.bytecode = .tailCall)
    (h0 : b.callParts.2 ≠ 0) :
    (rootAt rs (pc + i), rootAt rs b.callParts.2) ∈ tailEdges rs pc code := by
  induction code generalizing pc i with
  | nil => simp at hb
  | cons c code ih =>
    rw [tailEdges]
    cases i with
    | zero =>
      cases hb
      rw [if_pos ⟨ht, h0⟩]
      exact List.mem_cons_self
    | succ i =>
      have hmem := ih (pc + 1) (by simpa using hb)
      rw [show pc + 1 + i = pc + (i + 1) by omega] at hmem
      split
      · exact List.mem_cons_of_mem _ hmem
      · exact hmem

theorem mergeEdge_unchanged (s : Widths × Bool) (e : ℕ × ℕ) (h : (mergeEdge s e).2 = false) :
    mergeEdge s e = s := by
  rw [mergeEdge] at h ⊢
  split at h
  · cases h
  · rename_i hc
    rw [if_neg hc]

theorem Widths.Has.mergeEdge {s : Widths × Bool} {e : ℕ × ℕ} (h : s.1.Has r w) :
    (Verify.mergeEdge s e).1.Has r w := by
  rw [Verify.mergeEdge]
  split
  · exact h.set_or
  · exact h

theorem Widths.Has.mergeRound {tails : List (ℕ × ℕ)} (h : ws.Has r w) :
    (Verify.mergeRound tails ws).1.Has r w := by
  have hfold : ∀ (tails : List (ℕ × ℕ)) (s : Widths × Bool), s.1.Has r w →
      (tails.foldl Verify.mergeEdge s).1.Has r w := by
    intro tails
    induction tails with
    | nil => exact fun _ h ↦ h
    | cons e tails ih => exact fun s h ↦ ih _ h.mergeEdge
  exact hfold tails (ws, false) h

/-- At the end of the rounds, widths have flowed back over every tail call. -/
theorem rounds_spec {tails : List (ℕ × ℕ)} {n : ℕ} {ws' : Widths}
    (h : repeatUntil (mergeRound tails) n ws = some ws') :
    (∀ r w, ws.Has r w → ws'.Has r w) ∧
      ∀ e ∈ tails, ∀ w, ws'.Has e.2 w → ws'.Has e.1 w := by
  obtain ⟨v, hv, hflag, rfl⟩ := repeatUntil_spec (I := fun v ↦ ∀ r w, ws.Has r w → Widths.Has v r w)
    (fun v hv r w hw ↦ (hv r w hw).mergeRound) (fun _ _ h ↦ h) h
  obtain ⟨hsame, hedges⟩ := foldl_unchanged mergeEdge_unchanged hflag
  have hround : mergeRound tails v = (v, false) := hsame
  rw [hround]
  refine ⟨hv, fun e he w hw ↦ ?_⟩
  have hstep := hedges e he
  rw [mergeEdge] at hstep
  split at hstep
  · have hflag := congrArg Prod.snd hstep
    cases hflag
  · rename_i hc
    have hmerged : v.at e.1 ||| v.at e.2 = v.at e.1 := not_not.mp hc
    rw [Widths.Has, ← hmerged, BitVec.getLsbD_or, show (v.at e.2).getLsbD w = true from hw,
      Bool.or_true]

/-! #### The rounds end -/

theorem sum_set_lt {α : Type*} {f : α → ℕ} {l : List α} {i : ℕ} {a v : α} (hi : l[i]? = some a)
    (hv : f v < f a) : ((l.set i v).map f).sum < (l.map f).sum := by
  induction l generalizing i with
  | nil => simp at hi
  | cons x l ih =>
    cases i with
    | zero =>
      cases hi
      simp only [List.set_cons_zero, List.map_cons, List.sum_cons]
      omega
    | succ i =>
      have := ih (i := i) (by simpa using hi)
      simp only [List.set_cons_succ, List.map_cons, List.sum_cons]
      omega

/-- How much the widths can still grow. -/
def room (ws : Widths) : ℕ := (ws.map fun v ↦ 255 - v.toNat).sum

theorem room_le (ws : Widths) : room ws ≤ 255 * ws.length := by
  induction ws with
  | nil => exact le_rfl
  | cons v ws ih =>
    rw [room] at ih ⊢
    rw [List.map_cons, List.sum_cons, List.length_cons]
    omega

theorem lt_of_or_ne {u v : BitVec 8} (h : u ||| v ≠ u) : u.toNat < (u ||| v).toNat := by
  have hle : u.toNat ≤ (u ||| v).toNat := by
    rw [BitVec.toNat_or]
    exact Nat.left_le_or
  rcases Nat.lt_or_eq_of_le hle with hlt | heq
  · exact hlt
  · exact absurd (BitVec.eq_of_toNat_eq heq).symm h

theorem mergeEdge_room {s : Widths × Bool} {e : ℕ × ℕ} (he : e.1 < s.1.length) :
    (mergeEdge s e).1.length = s.1.length ∧
      (mergeEdge s e = s ∨ room (mergeEdge s e).1 < room s.1) := by
  rw [mergeEdge]
  split
  · rename_i hc
    refine ⟨List.length_set, .inr (sum_set_lt (List.getElem?_eq_getElem he) ?_)⟩
    have hat : s.1.at e.1 = s.1[e.1] := by
      rw [Widths.at, List.getElem?_eq_getElem he, Option.getD_some]
    have hlt := lt_of_or_ne hc
    rw [hat] at hlt ⊢
    have := (s.1[e.1] ||| s.1.at e.2).isLt
    omega
  · exact ⟨rfl, .inl rfl⟩

theorem mergeRound_room {tails : List (ℕ × ℕ)} (ht : ∀ e ∈ tails, e.1 < ws.length) :
    (mergeRound tails ws).1.length = ws.length ∧
      ((mergeRound tails ws).2 = true → room (mergeRound tails ws).1 < room ws) := by
  have hfold : ∀ (tails : List (ℕ × ℕ)) (s : Widths × Bool), (∀ e ∈ tails, e.1 < s.1.length) →
      (tails.foldl mergeEdge s).1.length = s.1.length ∧
      (tails.foldl mergeEdge s = s ∨ room (tails.foldl mergeEdge s).1 < room s.1) := by
    intro tails
    induction tails with
    | nil => exact fun s _ ↦ ⟨rfl, .inl rfl⟩
    | cons e tails ih =>
      intro s hs
      rw [List.forall_mem_cons] at hs
      obtain ⟨hl, he⟩ := mergeEdge_room hs.1
      obtain ⟨hl', he'⟩ := ih (mergeEdge s e) (by rw [hl]; exact hs.2)
      refine ⟨hl'.trans hl, ?_⟩
      rw [List.foldl_cons]
      rcases he' with he' | he'
      · rw [he']
        exact he
      · rcases he with he | he
        · rw [he] at he' ⊢
          exact .inr he'
        · exact .inr (he'.trans he)
  obtain ⟨hl, he⟩ := hfold tails (ws, false) ht
  refine ⟨hl, fun hflag ↦ ?_⟩
  rcases he with he | he
  · rw [mergeRound, he] at hflag
    cases hflag
  · exact he

/-- The loop over the tail calls ends within the rounds given. -/
theorem rounds_suffice {tails : List (ℕ × ℕ)} (ht : ∀ e ∈ tails, e.1 < ws.length) :
    ∃ ws', repeatUntil (mergeRound tails) (255 * ws.length + 1) ws = some ws' := by
  refine repeatUntil_terminates (I := fun v ↦ v.length = ws.length) (fun v hv ↦ ?_) room
    (fun v hv hflag ↦ ?_) rfl ?_
  · exact (mergeRound_room (hv ▸ ht)).1.trans hv
  · exact (mergeRound_room (hv ▸ ht)).2 hflag
  · exact Nat.lt_succ_of_le (room_le ws)

theorem tailEdges_fst {pc : ℕ} {e : ℕ × ℕ} (he : e ∈ tailEdges rs pc code) :
    ∃ i < code.length, e.1 = rootAt rs (pc + i) := by
  induction code generalizing pc with
  | nil => cases he
  | cons c code ih =>
    rw [tailEdges] at he
    have hrest : e ∈ tailEdges rs (pc + 1) code → ∃ i < (c :: code).length, e.1 = rootAt rs (pc + i) := by
      intro he
      obtain ⟨i, hi, heq⟩ := ih he
      exact ⟨i + 1, Nat.succ_lt_succ hi, by rw [heq, Nat.add_assoc, Nat.add_comm 1]⟩
    split at he
    · rcases List.mem_cons.mp he with rfl | he
      · exact ⟨0, Nat.succ_pos _, rfl⟩
      · exact hrest he
    · exact hrest he

/-- The check of the calls always ends with an answer. -/
theorem verifyCalls_answers (code : List Byte) (pool : List UInt64) :
    verifyCalls code pool ≠ .error .panic := by
  rw [verifyCalls]
  cases hrs : frameRoots code pool with
  | none => simp
  | some rs =>
    obtain ⟨-, hroot, -⟩ := frameRoots_spec hrs
    obtain ⟨hlen, -, -⟩ := ownWidths_spec rs code (List.replicate code.length 0) 0
      fun i _ hi ↦ by
        rw [List.length_replicate]
        exact hroot i (by omega)
    rw [List.length_replicate] at hlen
    have htails : ∀ e ∈ tailEdges rs 0 code,
        e.1 < (ownWidths rs 0 code (List.replicate code.length 0)).length := by
      intro e he
      obtain ⟨i, hi, heq⟩ := tailEdges_fst he
      rw [hlen, heq]
      exact hroot _ (by omega)
    obtain ⟨ws, hws⟩ := rounds_suffice htails
    rw [hlen] at hws
    simp only [hws]
    have hcalls : ∀ (code : List Byte) (pc : ℕ), checkCalls rs ws pc code ≠ .error .panic := by
      intro code
      induction code with
      | nil => exact fun pc h ↦ by cases h
      | cons c code ih =>
        intro pc
        rw [checkCalls]
        split
        · exact ih _
        · dsimp only
          split
          · exact fun h ↦ by cases h
          · exact ih _
    exact hcalls code 0

theorem callRetWords_cases (b : Byte) : b.callRetWords = 1 ∨ b.callRetWords = 2 := by
  rw [Byte.callRetWords]
  split <;> simp

theorem bit_unique : ∀ w < 8, ∀ want ∈ [1, 2], (1#8 <<< want).getLsbD w = true → w = want := by
  decide

theorem checkCalls_spec {pc : ℕ} (h : checkCalls rs ws pc code = .ok ()) {i : ℕ} {b : Byte}
    (hb : code[i]? = some b) (hc : b.bytecode = .call) (h0 : b.callParts.2 ≠ 0)
    (hw : ws.Has (rootAt rs b.callParts.2) w) : w = b.callRetWords := by
  induction code generalizing pc i with
  | nil => simp at hb
  | cons c code ih =>
    rw [checkCalls] at h
    cases i with
    | succ i =>
      have hrest : checkCalls rs ws (pc + 1) code = .ok () := by
        split at h
        · exact h
        · dsimp only at h
          split at h
          · cases h
          · exact h
      exact ih hrest (by simpa using hb)
    | zero =>
      cases hb
      rw [if_neg (by simp [hc, h0])] at h
      dsimp only at h
      split at h
      · cases h
      · rename_i hother
        have hother := not_not.mp hother
        have hbit := congrArg (fun v ↦ BitVec.getLsbD v w) hother
        have hw' : (ws.at (rootAt rs b.callParts.2)).getLsbD w = true := hw
        have hlt : w < 8 := BitVec.lt_of_getLsbD hw'
        simp only [BitVec.getLsbD_and, hw', BitVec.getLsbD_not, hlt, decide_true, Bool.true_and] at hbit
        refine bit_unique w hlt _ (by rcases callRetWords_cases b with h' | h' <;> simp [h']) ?_
        simpa using hbit

/-- What acceptance of the calls says. -/
structure CallsOk (code : List Byte) (rs : List ℕ) (ws : Widths) : Prop where
  returns : ∀ (pc : ℕ) (b : Byte) (w : ℕ), code[pc]? = some b → returnWidth b = some w → ws.Has (rootAt rs pc) w
  tails : ∀ (pc : ℕ) (b : Byte) (w : ℕ), code[pc]? = some b → b.bytecode = .tailCall → b.callParts.2 ≠ 0 →
    ws.Has (rootAt rs b.callParts.2) w → ws.Has (rootAt rs pc) w
  calls : ∀ (pc : ℕ) (b : Byte) (w : ℕ), code[pc]? = some b → b.bytecode = .call → b.callParts.2 ≠ 0 →
    ws.Has (rootAt rs b.callParts.2) w → w = b.callRetWords

theorem verifyCalls_spec {pool : List UInt64} (hrs : frameRoots code pool = some rs)
    (h : verifyCalls code pool = .ok ()) : ∃ ws, CallsOk code rs ws := by
  rw [verifyCalls, hrs] at h
  dsimp only at h
  obtain ⟨-, hroot, -⟩ := frameRoots_spec hrs
  obtain ⟨-, -, hown⟩ := ownWidths_spec rs code (List.replicate code.length 0) 0
    fun i _ hi ↦ by
      rw [List.length_replicate]
      exact hroot i (by omega)
  split at h
  · rename_i ws hws
    obtain ⟨hmono, hedges⟩ := rounds_spec hws
    refine ⟨ws, fun pc b w hb hw ↦ ?_, fun pc b w hb ht h0 hw ↦ ?_, fun pc b w hb hc h0 hw ↦ ?_⟩
    · have := hown pc b w hb hw
      rw [Nat.zero_add] at this
      exact hmono _ _ this
    · have := mem_tailEdges rs 0 hb ht h0
      rw [Nat.zero_add] at this
      exact hedges _ this w hw
    · exact checkCalls_spec h hb hc h0 hw
  · cases h

end Widths

end CoilLang.Verify
