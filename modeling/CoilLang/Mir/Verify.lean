import CoilLang.Mir.Dce
import CoilLang.Mir.Ssa
import CoilLang.Mir.Tidy
import Mathlib.Data.List.Infix

/-!
# What verification accepts

Verification goes through the blocks in their order and keeps the values defined so far. **A function is
accepted exactly when** it is well formed and *ordered*, with typed parameters and terminators: every value
is new where it is defined, and defined before it is used, in the order of the blocks (`Ordered`).
A pass that has to keep a function verified proves these two.
-/

namespace CoilLang.Mir

/-! ### Definitions before uses, in the order of the blocks -/

theorem exists_of_flatMap_eq {α β : Type} {g : α → List β} {l : List α} {x : β} {pre post : List β}
    (h : l.flatMap g = pre ++ x :: post) :
    ∃ l₁ a l₂ u t, l = l₁ ++ a :: l₂ ∧ g a = u ++ x :: t ∧ pre = l₁.flatMap g ++ u := by
  induction l generalizing pre with
  | nil => simp at h
  | cons a l ih =>
    rw [List.flatMap_cons] at h
    rcases List.append_eq_append_iff.1 h with ⟨u, rfl, hl⟩ | ⟨u, ha, hl⟩
    · obtain ⟨l₁, a', l₂, u', t, rfl, ha', rfl⟩ := ih hl
      exact ⟨a :: l₁, a', l₂, u', t, rfl, ha', by simp⟩
    · cases u with
      | nil =>
        have hl' : l.flatMap g = [] ++ x :: post := hl.symm
        obtain ⟨l₁, a', l₂, u', t, rfl, ha', hnil⟩ := ih hl'
        refine ⟨a :: l₁, a', l₂, u', t, rfl, ha', ?_⟩
        rw [List.append_nil] at ha
        rw [List.flatMap_cons, List.append_assoc, ← hnil, List.append_nil, ha]
      | cons y u =>
        obtain ⟨rfl, -⟩ := List.cons.inj hl
        exact ⟨[], a, l, pre, u, rfl, ha, rfl⟩

namespace MirFunc

variable {f : MirFunc}

/-- The values there after the instructions `pre`, in the order of the blocks. -/
def seen (f : MirFunc) (pre : List MirInst) : List ValueId := f.params ++ pre.flatMap MirInst.dests

/-- Every value is new where it is defined, and defined before it is used, in the order of the blocks. -/
structure Ordered (f : MirFunc) : Prop where
  fresh : ∀ {pre i post}, f.insts = pre ++ i :: post → ∀ d ∈ i.dests, d ∉ f.seen pre
  operands : ∀ {pre i post}, f.insts = pre ++ i :: post → i.isPhi = false → ∀ o ∈ i.operands,
    o ∈ f.seen pre

theorem verifyInsts_append {b : BlockId} {preds : List BlockId} {pre is : List MirInst} {saw : Bool}
    {defined out : List ValueId} (h : f.verifyInsts b preds (pre ++ is) saw defined = .ok out) :
    ∃ saw', f.verifyInsts b preds is saw' ((pre.flatMap MirInst.dests).reverse ++ defined) =
      .ok out := by
  induction pre generalizing saw defined with
  | nil => exact ⟨saw, h⟩
  | cons i pre ih =>
    simp only [List.cons_append, verifyInsts, except_bind_eq_ok, ensure_eq_ok] at h
    obtain ⟨-, -, defined', hdef, ⟨⟩, -, -, -, h⟩ := h
    obtain ⟨rfl, -⟩ := defineAll_ok hdef
    obtain ⟨saw', h'⟩ := ih h
    exact ⟨saw', by simpa using h'⟩

theorem verifyBlocks_append {bi : ℕ} {bs bs' : List MirBlock} {defined : List ValueId}
    (h : f.verifyBlocks bi (bs ++ bs') defined = .ok ()) :
    f.verifyBlocks (bi + bs.length) bs'
      ((bs.flatMap fun b ↦ b.insts.flatMap MirInst.dests).reverse ++ defined) = .ok () := by
  induction bs generalizing bi defined with
  | nil => exact h
  | cons b bs ih =>
    simp only [List.cons_append, verifyBlocks, except_bind_eq_ok, ensure_eq_ok] at h
    obtain ⟨-, -, -, -, out, hins, -, -, -, -, h⟩ := h
    obtain ⟨rfl, -⟩ := verifyInsts_ok hins
    have h' := ih h
    rw [Nat.add_right_comm] at h'
    simpa [Nat.add_assoc] using h'

/-- **A verified function with dominated uses is ordered.** -/
theorem ordered_of_verify (h : f.verify = .ok ()) (hd : f.Dominated) : f.Ordered := by
  have hf := wellFormed_of_verify h
  have key : ∀ {pre i post}, f.insts = pre ++ i :: post → (∀ d ∈ i.dests, d ∉ f.seen pre) ∧
      (i.isPhi = false → ∀ o ∈ i.operands, o ∈ i.dests ∨ o ∈ f.seen pre) ∧
      ∃ b blk u t, f.block? b = some blk ∧ blk.insts = u ++ i :: t := by
    intro pre i post hsplit
    obtain ⟨bs, blk, bs', u, t, hblocks, hblk, rfl⟩ := exists_of_flatMap_eq hsplit
    simp only [verify, except_bind_eq_ok, ensure_eq_ok, decide_eq_true_eq] at h
    obtain ⟨-, -, -, -, -, -, h⟩ := h
    rw [hblocks] at h
    have h' := verifyBlocks_append h
    simp only [verifyBlocks, except_bind_eq_ok, ensure_eq_ok] at h'
    obtain ⟨-, -, -, -, out, hins, -⟩ := h'
    rw [hblk] at hins
    obtain ⟨saw, hins⟩ := verifyInsts_append hins
    simp only [verifyInsts, except_bind_eq_ok, ensure_eq_ok] at hins
    obtain ⟨-, -, defined, hdef, ⟨⟩, -, -, hops, -⟩ := hins
    obtain ⟨rfl, -, hnew⟩ := defineAll_ok hdef
    have hseen : ∀ v, v ∈ f.seen (bs.flatMap MirBlock.insts ++ u) ↔
        v ∈ (u.flatMap MirInst.dests).reverse ++
          ((bs.flatMap fun b ↦ b.insts.flatMap MirInst.dests).reverse ++ f.params) := by
      intro v
      simp only [seen, List.flatMap_append, List.flatMap_assoc, List.mem_append, List.mem_reverse]
      tauto
    refine ⟨fun d hd' hs ↦ (hnew d hd').1 ((hseen d).1 hs), fun hphi o ho ↦ ?_, bs.length, blk, u, t,
      ?_, hblk⟩
    · rw [hphi, Bool.false_or] at hops
      have ho' := of_decide_eq_true (List.all_eq_true.1 hops o ho)
      rcases List.mem_append.1 ho' with ho' | ho'
      · exact .inl (List.mem_reverse.1 ho')
      · exact .inr ((hseen o).2 ho')
    · rw [block?, hblocks, List.getElem?_append_right le_rfl, Nat.sub_self]
      rfl
  refine ⟨fun hsplit ↦ (key hsplit).1, fun hsplit hphi o ho ↦ ?_⟩
  obtain ⟨-, hops, b, blk, u, t, hb, hblk⟩ := key hsplit
  refine (hops hphi o ho).resolve_left ?_
  exact hf.notMem_dests_of_avail hb hblk (hd.inst hb hblk hphi o ho)

end MirFunc

/-! ### What verification accepts -/

namespace MirFunc

variable {f : MirFunc}

theorem defineAll_of {ds defined : List ValueId} (hnd : ds.Nodup)
    (hnew : ∀ d ∈ ds, d ∉ defined ∧ d < f.types.length) :
    f.defineAll ds defined = .ok (ds.reverse ++ defined) := by
  induction ds generalizing defined with
  | nil => rfl
  | cons d ds ih =>
    obtain ⟨hnot, hnd⟩ := List.nodup_cons.1 hnd
    obtain ⟨hdef, hlt⟩ := hnew d List.mem_cons_self
    have hds : ∀ e ∈ ds, e ∉ d :: defined ∧ e < f.types.length := by
      intro e he
      obtain ⟨he', hlt'⟩ := hnew e (List.mem_cons_of_mem _ he)
      refine ⟨fun hmem ↦ ?_, hlt'⟩
      rcases List.mem_cons.1 hmem with rfl | hmem
      · exact hnot he
      · exact he' hmem
    simp only [defineAll, except_bind_eq_ok, ensure_eq_ok, decide_eq_true_eq]
    refine ⟨(), hlt, (), hdef, ?_⟩
    rw [ih hnd hds]
    simp

/-- φs first: after another instruction there are no φs. -/
theorem filter_phi_eq_nil {i : MirInst} {is : List MirInst} (hi : i.isPhi = false)
    (hsplit : i :: is = (i :: is).filter MirInst.isPhi ++ (i :: is).filter fun i ↦ !i.isPhi) :
    is.filter MirInst.isPhi = [] := by
  rw [List.filter_cons_of_neg (by simp [hi])] at hsplit
  cases hf : is.filter MirInst.isPhi with
  | nil => rfl
  | cons k ks =>
    rw [hf] at hsplit
    obtain ⟨rfl, -⟩ := List.cons.inj hsplit
    have hk : i ∈ is.filter MirInst.isPhi := by rw [hf]; exact List.mem_cons_self
    rw [(List.mem_filter.1 hk).2] at hi
    cases hi

theorem verifyInsts_of {b : BlockId} {preds : List BlockId} {is : List MirInst} {saw : Bool}
    {defined : List ValueId} (hsaw : saw = true → ∀ i ∈ is, i.isPhi = false)
    (hsplit : is = is.filter MirInst.isPhi ++ is.filter fun i ↦ !i.isPhi)
    (hnd : (is.flatMap MirInst.dests).Nodup)
    (hnew : ∀ d ∈ is.flatMap MirInst.dests, d ∉ defined ∧ d < f.types.length)
    (hchecks : ∀ i ∈ is, f.checkInst preds i = .ok ())
    (hops : ∀ {pre i post}, is = pre ++ i :: post → i.isPhi = false → ∀ o ∈ i.operands,
      o ∈ pre.flatMap MirInst.dests ∨ o ∈ defined) :
    f.verifyInsts b preds is saw defined =
      .ok ((is.flatMap MirInst.dests).reverse ++ defined) := by
  induction is generalizing saw defined with
  | nil => rfl
  | cons i is ih =>
    rw [List.flatMap_cons, List.nodup_append] at hnd
    obtain ⟨hndi, hnd, hdisj⟩ := hnd
    have hdef := defineAll_of hndi fun d hd ↦ hnew d (by simp [hd])
    have htail : f.verifyInsts b preds is (saw || !i.isPhi) (i.dests.reverse ++ defined) =
        .ok ((is.flatMap MirInst.dests).reverse ++ (i.dests.reverse ++ defined)) := by
      refine ih ?_ ?_ hnd ?_ (fun j hj ↦ hchecks j (List.mem_cons_of_mem _ hj)) ?_
      · intro hs j hj
        cases hi : i.isPhi with
        | true =>
          rw [hi, Bool.not_true, Bool.or_false] at hs
          exact hsaw hs j (List.mem_cons_of_mem _ hj)
        | false =>
          simpa using List.filter_eq_nil_iff.1 (filter_phi_eq_nil hi hsplit) j hj
      · cases hi : i.isPhi with
        | true =>
          rw [List.filter_cons_of_pos (by simp [hi]), List.filter_cons_of_neg (by simp [hi])] at hsplit
          exact (List.cons.inj hsplit).2
        | false =>
          have hnil := filter_phi_eq_nil hi hsplit
          rw [List.filter_cons_of_neg (by simp [hi]), List.filter_cons_of_pos (by simp [hi]), hnil]
            at hsplit
          rw [hnil]
          exact (List.cons.inj hsplit).2
      · intro d hd
        obtain ⟨hd', hlt⟩ := hnew d (by simp [hd])
        refine ⟨fun hmem ↦ ?_, hlt⟩
        rcases List.mem_append.1 hmem with hmem | hmem
        · exact hdisj d (List.mem_reverse.1 hmem) d hd rfl
        · exact hd' hmem
      · intro pre j post hj hphi o ho
        have hj' : i :: is = (i :: pre) ++ j :: post := by rw [hj]; rfl
        have h := hops hj' hphi o ho
        rw [List.flatMap_cons, List.mem_append] at h
        rcases h with (h | h) | h
        · exact .inr (List.mem_append_left _ (List.mem_reverse.2 h))
        · exact .inl h
        · exact .inr (List.mem_append_right _ h)
    simp only [verifyInsts, except_bind_eq_ok, ensure_eq_ok]
    refine ⟨(), ?_, _, hdef, (), hchecks i List.mem_cons_self, (), ?_, ?_⟩
    · cases hi : i.isPhi with
      | false => rfl
      | true =>
        cases saw with
        | false => rfl
        | true =>
          rw [hsaw rfl i List.mem_cons_self] at hi
          cases hi
    · cases hi : i.isPhi with
      | true => rfl
      | false =>
        rw [Bool.false_or, List.all_eq_true]
        intro o ho
        have hnil : i :: is = [] ++ i :: is := rfl
        rcases hops hnil hi o ho with h | h
        · cases h
        · simp [h]
    · rw [htail]
      simp

theorem verifyBlocks_of (hf : WellFormed f) (ho : f.Ordered)
    (hterm : ∀ b ∈ f.blocks, b.term.forM f.verifyTerm = .ok ()) {bs bs' : List MirBlock}
    (hbs : f.blocks = bs' ++ bs) {defined : List ValueId}
    (hdef : ∀ v, v ∈ defined ↔ v ∈ f.seen (bs'.flatMap MirBlock.insts)) :
    f.verifyBlocks bs'.length bs defined = .ok () := by
  induction bs generalizing bs' defined with
  | nil => rfl
  | cons b bs ih =>
    have hb : f.blocks[bs'.length]? = some b := by
      rw [hbs, List.getElem?_append_right le_rfl, Nat.sub_self]
      rfl
    have hmem : b ∈ f.blocks := List.mem_of_getElem? hb
    have hid : b.id = bs'.length := hf.id hb
    have hflat : ∀ {pre post}, b.insts = pre ++ post →
        ∃ t, f.insts = (bs'.flatMap MirBlock.insts ++ pre) ++ (post ++ t) := by
      intro pre post h
      refine ⟨bs.flatMap MirBlock.insts, ?_⟩
      rw [insts, hbs, List.flatMap_append, List.flatMap_cons, h]
      simp
    have hseen : ∀ {pre v}, v ∈ f.seen (bs'.flatMap MirBlock.insts ++ pre) ↔
        v ∈ pre.flatMap MirInst.dests ∨ v ∈ defined := by
      intro pre v
      rw [hdef]
      simp only [seen, List.flatMap_append, List.mem_append]
      tauto
    have hnd : (b.insts.flatMap MirInst.dests).Nodup := (List.nodup_flatMap.1 hf.defsNodup).1 b hmem
    have hins : f.verifyInsts b.id (f.preds bs'.length) b.insts false defined =
        .ok ((b.insts.flatMap MirInst.dests).reverse ++ defined) := by
      refine verifyInsts_of (fun h ↦ (by cases h)) (hf.insts b hmem) hnd ?_ ?_ ?_
      · intro d hd
        refine ⟨fun hdd ↦ ?_, hf.defsLt d (List.mem_flatMap.2 ⟨b, hmem, hd⟩)⟩
        obtain ⟨i, hi, hdi⟩ := List.mem_flatMap.1 hd
        obtain ⟨u, t, hsplit⟩ := List.append_of_mem hi
        obtain ⟨t', ht'⟩ := hflat hsplit
        exact ho.fresh ht' d hdi (hseen.2 (.inr hdd))
      · intro i hi
        rw [← hid]
        exact hf.checked b hmem i hi
      · intro pre i post hsplit hphi o hoi
        obtain ⟨t', ht'⟩ := hflat hsplit
        exact hseen.1 (ho.operands ht' hphi o hoi)
    have hbs' : f.blocks = (bs' ++ [b]) ++ bs := by rw [hbs]; simp
    have hdef' : ∀ v, v ∈ (b.insts.flatMap MirInst.dests).reverse ++ defined ↔
        v ∈ f.seen ((bs' ++ [b]).flatMap MirBlock.insts) := by
      intro v
      rw [List.flatMap_append, List.flatMap_singleton, hseen, List.mem_append, List.mem_reverse]
    have htail := ih hbs' hdef'
    simp only [verifyBlocks, except_bind_eq_ok, ensure_eq_ok, decide_eq_true_eq]
    obtain ⟨t, ht⟩ := hf.term b hmem
    refine ⟨(), hid, (), by rw [ht]; rfl, _, hins, (), hterm b hmem, (), ?_, ?_⟩
    · simpa using hf.succs b hmem
    · simpa using htail

/-- **Verification accepts** what is well formed and ordered, with typed parameters and terminators. -/
theorem verify_of (hf : WellFormed f) (ho : f.Ordered) (hparams : f.verifyParams f.params = .ok ())
    (hterm : ∀ b ∈ f.blocks, b.term.forM f.verifyTerm = .ok ()) : f.verify = .ok () := by
  simp only [verify, except_bind_eq_ok, ensure_eq_ok, decide_eq_true_eq]
  refine ⟨(), ?_, (), hf.entry, (), hparams, ?_⟩
  · cases hbs : f.blocks with
    | nil =>
      have := hf.entry
      rw [hbs] at this
      cases this
    | cons b bs => rfl
  · have hnil : f.blocks = [] ++ f.blocks := rfl
    exact verifyBlocks_of hf ho hterm hnil fun v ↦ by simp [seen]

theorem verifyParams_of_verify (h : f.verify = .ok ()) : f.verifyParams f.params = .ok () := by
  simp only [verify, except_bind_eq_ok] at h
  obtain ⟨-, -, -, -, ⟨⟩, h, -⟩ := h
  exact h

theorem verifyTerm_of_verify (h : f.verify = .ok ()) :
    ∀ b ∈ f.blocks, b.term.forM f.verifyTerm = .ok () := by
  intro b hb
  obtain ⟨bs, bs', hbs⟩ := List.append_of_mem hb
  simp only [verify, except_bind_eq_ok] at h
  obtain ⟨-, -, -, -, -, -, h⟩ := h
  rw [hbs] at h
  have h' := verifyBlocks_append h
  simp only [verifyBlocks, except_bind_eq_ok] at h'
  obtain ⟨-, -, -, -, -, -, ⟨⟩, h', -⟩ := h'
  exact h'

end MirFunc

/-! ### The checks look at the blocks through the predecessors only -/

section
variable {f : MirFunc}

theorem count_preds_aux {bs : List MirBlock} {n b p : ℕ}
    (hid : ∀ {j : ℕ} {c : MirBlock}, bs[j]? = some c → c.id = n + j) :
    (bs.flatMap fun c ↦ (c.succs.filter (· = b)).map fun _ ↦ c.id).count p =
      if n ≤ p then ((bs[p - n]?.map MirBlock.succs).getD []).count b else 0 := by
  induction bs generalizing n with
  | nil => simp
  | cons c bs ih =>
    have hc : c.id = n := hid (j := 0) rfl
    have htail := ih (n := n + 1) fun {j c'} h ↦ by
      have hj : c'.id = n + (j + 1) := hid (by simpa using h)
      rw [hj, Nat.add_assoc, Nat.add_comm 1]
    have hhead : (c.succs.filter (· = b)).length = c.succs.count b := by
      rw [List.count_eq_countP, List.countP_eq_length_filter]
      rfl
    rw [List.flatMap_cons, List.count_append, htail, List.map_const', hc, List.count_replicate, hhead]
    rcases Nat.lt_trichotomy n p with hlt | rfl | hlt
    · have hle : n + 1 ≤ p := hlt
      obtain ⟨k, rfl⟩ := Nat.exists_eq_add_of_le hle
      have hne : ¬n = n + 1 + k := by omega
      have hsub : n + 1 + k - n = k + 1 := by omega
      simp [hne, hsub, Nat.le_of_lt hlt]
    · simp
    · have hle : ¬n + 1 ≤ p := by omega
      have hle' : ¬n ≤ p := by omega
      simp [hle, hle', hlt.ne']

/-- A block comes as often among the predecessors as it has the edge. -/
theorem count_preds (hid : ∀ {j : ℕ} {c : MirBlock}, f.blocks[j]? = some c → c.id = j) {b p : BlockId} :
    (f.preds b).count p = (f.succsOf p).count b := by
  have h := count_preds_aux (n := 0) (b := b) (p := p) fun {j c} hc ↦ by
    rw [Nat.zero_add]
    exact hid hc
  rw [if_pos (Nat.zero_le p), Nat.sub_zero] at h
  exact h

theorem insertionSort_eq_iff {l l' : List BlockId} :
    l.insertionSort (· ≤ ·) = l'.insertionSort (· ≤ ·) ↔ l.Perm l' := by
  constructor
  · intro h
    exact (List.perm_insertionSort (· ≤ ·) l).symm.trans (h ▸ List.perm_insertionSort (· ≤ ·) l')
  · intro h
    have hl := List.pairwise_insertionSort (· ≤ · : BlockId → BlockId → Prop) l
    have hl' := List.pairwise_insertionSort (· ≤ · : BlockId → BlockId → Prop) l'
    refine List.Perm.eq_of_pairwise (fun _ _ _ _ ↦ Nat.le_antisymm) hl hl' ?_
    exact (List.perm_insertionSort _ l).trans (h.trans (List.perm_insertionSort _ l').symm)

theorem checkPhi_eq_ok {preds : List BlockId} {d : ValueId} {ty : MirTy}
    {args : List (BlockId × ValueId)} : f.checkPhi preds d ty args = .ok () ↔
      f.ty d = ty ∧ ty.isSpecialized = true ∧ (args.map Prod.fst).Perm preds ∧
        ∀ a ∈ args, f.ty a.2 = ty := by
  simp only [MirFunc.checkPhi, except_bind_eq_ok, ensure_eq_ok, decide_eq_true_eq,
    List.all_eq_true, exists_const, insertionSort_eq_iff]

theorem checkInst_withBlocks {bs : List MirBlock} {preds : List BlockId} {i : MirInst} :
    ({ f with blocks := bs } : MirFunc).checkInst preds i = f.checkInst preds i := by
  cases i <;> rfl

theorem verifyParams_withBlocks {bs : List MirBlock} (ps : List ValueId) :
    ({ f with blocks := bs } : MirFunc).verifyParams ps = f.verifyParams ps := by
  induction ps with
  | nil => rfl
  | cons p ps ih =>
    simp only [MirFunc.verifyParams, ih]
    rfl

theorem verifyTerm_withBlocks {bs : List MirBlock} {t : Terminator} :
    ({ f with blocks := bs } : MirFunc).verifyTerm t = f.verifyTerm t := by
  cases t <;> rfl

end

end CoilLang.Mir
