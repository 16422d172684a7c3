import CoilLang.Mir.Dominators

/-!
# Checking that uses are dominated

After a pass the compiler checks that every use is dominated by its definition, with the table of
dominators: a φ operand at the end of the block it comes from, any other use by an earlier instruction of
its block or by a dominating block. A block no root reaches is dominated by every block, so there only
the order within the block is checked.

**A function passes exactly when its uses are dominated** for the roots of the table
(`usesDominatedIn_of_verifyDominance`, `verifyDominance_of_usesDominatedIn`), and then for the entry
alone. Less is asked by `DominatedIn`: the uses in the blocks that some root reaches.
-/

namespace CoilLang.Mir

namespace MirFunc

variable (f : MirFunc)

/-- Each defined value with the block that defines it and the place there. -/
def defSites : List (ValueId × BlockId × ℕ) :=
  f.blocks.flatMap fun b ↦ b.insts.zipIdx.flatMap fun p ↦ p.1.dests.map fun d ↦ (d, b.id, p.2)

/-- Where a value is defined, by the last of its definitions; parameters have no place. -/
def site? (v : ValueId) : Option (BlockId × ℕ) :=
  (f.defSites.reverse.find? (·.1 = v)).map Prod.snd

/-- Whether the definition of `v` dominates place `i` of block `b`, or its end. -/
def dominated (dom : Dominators) (v : ValueId) (b : BlockId) (i : Option ℕ) : Bool :=
  match f.site? v with
  | none => true
  | some (db, di) => if db = b then i.all (di < ·) else dom.dominates db b

def verifyDominanceInst (dom : Dominators) (b : BlockId) (k : ℕ) :
    MirInst → Except String Unit
  | .phi dest _ args =>
    match args.find? fun a ↦ !f.dominated dom a.2 a.1 none with
    | some (p, v) =>
      .error s!"v{dest} phi reads v{v} from bb{p}, which its def does not dominate"
    | none => .ok ()
  | i =>
    match i.operands.find? fun o ↦ !f.dominated dom o b (some k) with
    | some o => .error s!"v{i.dest} in bb{b} reads v{o} before its def dominates it"
    | none => .ok ()

def verifyDominanceTerm (dom : Dominators) (b : BlockId) (t : Terminator) : Except String Unit :=
  match t.operands.find? fun o ↦ !f.dominated dom o b none with
  | some o => .error s!"bb{b} terminator reads v{o} before its def dominates it"
  | none => .ok ()

def verifyDominanceWith (dom : Dominators) : Except String Unit :=
  f.blocks.forM fun b ↦ do
    b.insts.zipIdx.forM fun p ↦ f.verifyDominanceInst dom b.id p.2 p.1
    b.term.forM (f.verifyDominanceTerm dom b.id)

/-- Every use is dominated by its definition. -/
def verifyDominance (fuel : ℕ) : Option (Except String Unit) :=
  (Dominators.new f fuel).map f.verifyDominanceWith

/-! ### What the check is for -/

/-- Every use is dominated by its definition, for runs from the roots `R`. -/
structure UsesDominatedIn (R : BlockId → Prop) : Prop where
  inst : ∀ {b blk pre i post}, f.block? b = some blk → blk.insts = pre ++ i :: post →
    i.isPhi = false → ∀ o ∈ i.operands, f.AvailIn R b pre o
  phi : ∀ {b blk d ty args}, f.block? b = some blk → MirInst.phi d ty args ∈ blk.insts →
    ∀ a ∈ args, f.AvailEndIn R a.1 a.2
  term : ∀ {b blk t}, f.block? b = some blk → blk.term = some t → ∀ o ∈ t.operands, f.AvailEndIn R b o

/-- The uses in the blocks that the roots `R` reach are dominated by their definitions. -/
structure DominatedIn (R : BlockId → Prop) : Prop where
  inst : ∀ {b blk pre i post}, (∃ h, Walk R f.Edge b h) → f.block? b = some blk →
    blk.insts = pre ++ i :: post → i.isPhi = false → ∀ o ∈ i.operands, f.AvailIn R b pre o
  phi : ∀ {b blk d ty args}, f.block? b = some blk → MirInst.phi d ty args ∈ blk.insts →
    ∀ a ∈ args, (∃ h, Walk R f.Edge a.1 h) → f.AvailEndIn R a.1 a.2
  term : ∀ {b blk t}, (∃ h, Walk R f.Edge b h) → f.block? b = some blk → blk.term = some t →
    ∀ o ∈ t.operands, f.AvailEndIn R b o

end MirFunc

variable {f : MirFunc} {b q : BlockId} {blk : MirBlock} {pre post : List MirInst} {i : MirInst}
  {v : ValueId} {R R' : BlockId → Prop}

/-! ### Fewer roots, more dominance -/

theorem MirFunc.AvailIn.mono (h : f.AvailIn R' b pre v) (hR : ∀ a, R a → R' a) : f.AvailIn R b pre v :=
  h.imp_right (Or.imp_right fun ⟨q, blk, hne, hq, hblk, hv⟩ ↦
    ⟨q, blk, hne, hq.mono hR fun _ _ h ↦ h, hblk, hv⟩)

theorem MirFunc.AvailEndIn.mono (h : f.AvailEndIn R' b v) (hR : ∀ a, R a → R' a) : f.AvailEndIn R b v :=
  h.imp_right fun ⟨q, blk, hq, hblk, hv⟩ ↦ ⟨q, blk, hq.mono hR fun _ _ h ↦ h, hblk, hv⟩

theorem MirFunc.DominatedIn.mono (h : f.DominatedIn R') (hR : ∀ a, R a → R' a) : f.DominatedIn R := by
  have hwalk : ∀ {b}, (∃ h, Walk R f.Edge b h) → ∃ h, Walk R' f.Edge b h :=
    fun ⟨l, hw⟩ ↦ ⟨l, hw.mono hR fun _ _ h ↦ h⟩
  refine ⟨fun hb hblk hi hphi o ho ↦ (h.inst (hwalk hb) hblk hi hphi o ho).mono hR,
    fun hblk hi a ha hw ↦ (h.phi hblk hi a ha (hwalk hw)).mono hR,
    fun hb hblk ht o ho ↦ (h.term (hwalk hb) hblk ht o ho).mono hR⟩

theorem MirFunc.UsesDominatedIn.dominatedIn (h : f.UsesDominatedIn R) : f.DominatedIn R :=
  ⟨fun _ hb hi hphi o ho ↦ h.inst hb hi hphi o ho, fun hb hi a ha _ ↦ h.phi hb hi a ha,
    fun _ hb ht o ho ↦ h.term hb ht o ho⟩

/-- For runs from the entry. -/
theorem MirFunc.UsesDominatedIn.dominated (h : f.UsesDominatedIn R) (hR : R f.entry) : f.Dominated := by
  have hentry : ∀ a, a = f.entry → R a := fun a ha ↦ ha ▸ hR
  exact ⟨fun hb hi hphi o ho ↦ (h.inst hb hi hphi o ho).mono hentry,
    fun hb hi a ha ↦ (h.phi hb hi a ha).mono hentry, fun hb ht o ho ↦ (h.term hb ht o ho).mono hentry⟩

/-! ### Places of definitions -/

theorem mem_defSites {s : BlockId × ℕ} (hid : f.Numbered) : (v, s) ∈ f.defSites ↔
    ∃ blk pre i post, f.block? s.1 = some blk ∧ blk.insts = pre ++ i :: post ∧ pre.length = s.2 ∧
      v ∈ i.dests := by
  obtain ⟨q, k⟩ := s
  simp only [MirFunc.defSites, List.mem_flatMap, List.mem_map, Prod.mk.injEq]
  constructor
  · rintro ⟨blk, hblk, ⟨i, n⟩, hi, d, hd, rfl, rfl, rfl⟩
    obtain ⟨j, hj⟩ := List.mem_iff_getElem?.1 hblk
    have hn : blk.insts[n]? = some i := by simpa using List.mem_zipIdx_iff_getElem?.1 hi
    obtain ⟨hlt, hget⟩ := List.getElem?_eq_some_iff.1 hn
    refine ⟨blk, blk.insts.take n, i, blk.insts.drop (n + 1), ?_, ?_, ?_, hd⟩
    · rw [MirFunc.block?, hid j blk hj, hj]
    · rw [← hget, List.getElem_cons_drop, List.take_append_drop]
    · rw [List.length_take]
      exact Nat.min_eq_left (Nat.le_of_lt hlt)
  · rintro ⟨blk, pre, i, post, hblk, hsplit, hlen, hd⟩
    refine ⟨blk, List.mem_of_getElem? hblk, (i, k), ?_, v, hd, rfl, hid q blk hblk, rfl⟩
    refine List.mem_zipIdx_iff_getElem?.2 ?_
    rw [hsplit, ← hlen]
    simp

/-- A value has its one place, or none when nothing defines it. -/
theorem site?_cases (hid : f.Numbered) (v : ValueId) : (f.site? v = none ∧ v ∉ f.defs) ∨
    ∃ q k blk pre i post, f.site? v = some (q, k) ∧ f.block? q = some blk ∧
      blk.insts = pre ++ i :: post ∧ pre.length = k ∧ v ∈ i.dests := by
  unfold MirFunc.site?
  cases h : f.defSites.reverse.find? (·.1 = v) with
  | none =>
    refine .inl ⟨rfl, fun hv ↦ ?_⟩
    obtain ⟨blk, hblk, hv⟩ := List.mem_flatMap.1 hv
    obtain ⟨i, hi, hv⟩ := List.mem_flatMap.1 hv
    obtain ⟨q, hq⟩ := List.mem_iff_getElem?.1 hblk
    obtain ⟨pre, post, hsplit⟩ := List.append_of_mem hi
    have hmem : (v, (q, pre.length)) ∈ f.defSites :=
      (mem_defSites hid).2 ⟨blk, pre, i, post, hq, hsplit, rfl, hv⟩
    have := List.find?_eq_none.1 h _ (List.mem_reverse.2 hmem)
    simp at this
  | some s =>
    obtain ⟨w, q, k⟩ := s
    obtain rfl : w = v := by simpa using List.find?_some h
    obtain ⟨blk, pre, i, post, hq, hsplit, hlen, hv⟩ :=
      (mem_defSites hid).1 (List.mem_reverse.1 (List.mem_of_find?_eq_some h))
    exact .inr ⟨q, k, blk, pre, i, post, rfl, hq, hsplit, hlen, hv⟩

/-! ### What passes the check -/

/-- The incomings of a φ come from blocks. -/
theorem WellFormed.exists_pred (hf : WellFormed f) (hb : f.block? b = some blk) {d : ValueId} {ty : MirTy}
    {args : List (BlockId × ValueId)} (hi : MirInst.phi d ty args ∈ blk.insts) {a : BlockId × ValueId}
    (ha : a ∈ args) : ∃ c, f.block? a.1 = some c ∧ b ∈ c.succs := by
  have hpreds := (hf.phi (List.mem_of_getElem? hb) hi).2.1.mem_iff.1 (List.mem_map_of_mem ha)
  obtain ⟨c, hc, hca, hs⟩ := MirFunc.mem_preds.1 hpreds
  obtain ⟨q, hq⟩ := List.mem_iff_getElem?.1 hc
  refine ⟨c, ?_, hf.id hb ▸ hs⟩
  rw [← hca, hf.id hq]
  exact hq

theorem forM_eq_ok {α : Type} {g : α → Except String Unit} {l : List α} :
    l.forM g = .ok () ↔ ∀ a ∈ l, g a = .ok () := by
  induction l with
  | nil => simp [pure, Except.pure]
  | cons a l ih =>
    show (g a >>= fun _ ↦ l.forM g) = .ok () ↔ _
    rw [except_bind_eq_ok, List.forall_mem_cons, ← ih]
    constructor
    · rintro ⟨⟨⟩, h⟩
      exact h
    · exact fun h ↦ ⟨(), h⟩

theorem find?_not_eq_none {α : Type} {l : List α} {p : α → Bool} :
    l.find? (fun a ↦ !p a) = none ↔ ∀ a ∈ l, p a = true := by
  simp [List.find?_eq_none]

theorem verifyDominanceInst_phi {dom : Dominators} {k : ℕ} {d : ValueId} {ty : MirTy}
    {args : List (BlockId × ValueId)} : f.verifyDominanceInst dom b k (.phi d ty args) = .ok () ↔
      ∀ a ∈ args, f.dominated dom a.2 a.1 none = true := by
  rw [← find?_not_eq_none]
  unfold MirFunc.verifyDominanceInst
  dsimp only
  cases args.find? fun a ↦ !f.dominated dom a.2 a.1 none <;> simp

theorem verifyDominanceInst_operands {dom : Dominators} {k : ℕ} (hphi : i.isPhi = false) :
    f.verifyDominanceInst dom b k i = .ok () ↔ ∀ o ∈ i.operands, f.dominated dom o b (some k) = true := by
  rw [← find?_not_eq_none]
  cases i with
  | phi => cases hphi
  | _ =>
    unfold MirFunc.verifyDominanceInst
    dsimp only
    split <;> simp_all

theorem verifyDominanceTerm_eq_ok {dom : Dominators} {t : Terminator} :
    f.verifyDominanceTerm dom b t = .ok () ↔ ∀ o ∈ t.operands, f.dominated dom o b none = true := by
  rw [← find?_not_eq_none]
  unfold MirFunc.verifyDominanceTerm
  cases t.operands.find? fun o ↦ !f.dominated dom o b none <;> simp

/-- The table knows the dominators. -/
def Dominators.Right (dom : Dominators) (f : MirFunc) : Prop :=
  ∀ d < f.blocks.length, ∀ b < f.blocks.length,
    (dom.dominates d b = true ↔ Dominates f.DomRoot f.Edge d b)

theorem Dominators.right_of_new (hf : WellFormed f) {fuel : ℕ} {dom : Dominators}
    (h : Dominators.new f fuel = some dom) : dom.Right f := by
  have hid : f.Numbered := fun _ _ hb ↦ hf.id hb
  obtain ⟨order, up, span, N, ht, hN⟩ := MirFunc.exists_tables hid hf.entry
  have h' := Dominators.new_mono (Nat.le_add_right fuel N) h
  rw [hN _ (Nat.le_add_left N fuel)] at h'
  obtain rfl := Option.some.inj h'
  exact fun d hd b hb ↦ ht.dominates_iff hid hf.entry hd hb

theorem availIn_of_dominated (hf : WellFormed f) {dom : Dominators} (hdom : dom.Right f)
    (hb : f.block? b = some blk) (hsplit : blk.insts = pre ++ post)
    (h : f.dominated dom v b (some pre.length) = true) : f.AvailIn f.DomRoot b pre v := by
  have hlt : ∀ {q : BlockId} {c : MirBlock}, f.block? q = some c → q < f.blocks.length :=
    fun h ↦ (List.getElem?_eq_some_iff.1 h).1
  unfold MirFunc.dominated at h
  rcases site?_cases (fun _ _ hb ↦ hf.id hb) v with ⟨-, hv⟩ | ⟨q, k, c, pre', j, post', hs, hq, hc, hk, hv⟩
  · exact .inl hv
  · rw [hs] at h
    dsimp only at h
    split at h
    · rename_i hqb
      rw [hqb, hb] at hq
      obtain rfl := Option.some.inj hq
      have hk' : pre'.length < pre.length := by simpa [hk] using h
      -- the definition is at its place in `pre`
      have hget : pre[pre'.length]? = some j := by
        have hpost : (pre ++ post)[pre'.length]? = some j := by simp [← hsplit, hc]
        rwa [List.getElem?_append_left hk'] at hpost
      exact .inr (.inl (List.mem_flatMap.2 ⟨j, List.mem_of_getElem? hget, hv⟩))
    · rename_i hqb
      refine .inr (.inr ⟨q, c, hqb, (hdom q (hlt hq) b (hlt hb)).1 h, hq, ?_⟩)
      exact mem_defs_of_append hc hv

theorem availEndIn_of_dominated (hf : WellFormed f) {dom : Dominators} (hdom : dom.Right f)
    (hb : b < f.blocks.length) (h : f.dominated dom v b none = true) : f.AvailEndIn f.DomRoot b v := by
  unfold MirFunc.dominated at h
  rcases site?_cases (fun _ _ hb ↦ hf.id hb) v with ⟨-, hv⟩ | ⟨q, k, c, pre', j, post', hs, hq, hc, -, hv⟩
  · exact .inl hv
  · rw [hs] at h
    dsimp only at h
    refine .inr ⟨q, c, ?_, hq, mem_defs_of_append hc hv⟩
    split at h
    · rename_i hqb
      exact hqb ▸ .refl q
    · exact (hdom q (List.getElem?_eq_some_iff.1 hq).1 b hb).1 h

/-- **A function that passes has its uses dominated**, for the roots of the table. -/
theorem usesDominatedIn_of_verifyDominance (hf : WellFormed f) {fuel : ℕ}
    (h : f.verifyDominance fuel = some (.ok ())) : f.UsesDominatedIn f.DomRoot := by
  obtain ⟨dom, hnew, hok⟩ := Option.map_eq_some_iff.1 h
  have hdom := Dominators.right_of_new hf hnew
  have hblock : ∀ {b blk}, f.block? b = some blk →
      (∀ p ∈ blk.insts.zipIdx, f.verifyDominanceInst dom b p.2 p.1 = .ok ()) ∧
        ∀ t, blk.term = some t → f.verifyDominanceTerm dom b t = .ok () := by
    intro b blk hb
    have hmem := forM_eq_ok.1 hok blk (List.mem_of_getElem? hb)
    rw [except_bind_eq_ok] at hmem
    obtain ⟨⟨⟩, hinsts, hterm⟩ := hmem
    rw [hf.id hb] at hinsts hterm
    refine ⟨forM_eq_ok.1 hinsts, fun t ht ↦ ?_⟩
    rw [ht] at hterm
    exact hterm
  refine ⟨fun {b blk pre i post} hb hsplit hphi o ho ↦ ?_, fun {b blk d ty args} hb hi a ha ↦ ?_,
    fun {b blk t} hb ht o ho ↦ ?_⟩
  · refine availIn_of_dominated hf hdom hb hsplit ?_
    refine (verifyDominanceInst_operands hphi).1 ((hblock hb).1 (i, pre.length) ?_) o ho
    exact List.mem_zipIdx_iff_getElem?.2 (by simp [hsplit])
  · obtain ⟨k, hk⟩ := List.mem_iff_getElem?.1 hi
    have hargs :=
      verifyDominanceInst_phi.1 ((hblock hb).1 (_, k) (List.mem_zipIdx_iff_getElem?.2 hk)) a ha
    obtain ⟨p, hp, hpa, -⟩ : ∃ p ∈ f.blocks, p.id = a.1 ∧ blk.id ∈ p.succs :=
      MirFunc.mem_preds.1 (((hf.phi (List.mem_of_getElem? hb) hi).2.1.mem_iff).1 (List.mem_map_of_mem ha))
    obtain ⟨q, hq⟩ := List.mem_iff_getElem?.1 hp
    rw [hf.id hq] at hpa
    exact availEndIn_of_dominated hf hdom (hpa ▸ (List.getElem?_eq_some_iff.1 hq).1) hargs
  · exact availEndIn_of_dominated hf hdom (List.getElem?_eq_some_iff.1 hb).1
      (verifyDominanceTerm_eq_ok.1 ((hblock hb).2 t ht) o ho)

theorem dominatedIn_of_verifyDominance (hf : WellFormed f) {fuel : ℕ}
    (h : f.verifyDominance fuel = some (.ok ())) : f.DominatedIn f.DomRoot :=
  (usesDominatedIn_of_verifyDominance hf h).dominatedIn

/-! ### What has its uses dominated passes -/

theorem dominated_of_availIn (hf : WellFormed f) {dom : Dominators} (hdom : dom.Right f)
    (hb : f.block? b = some blk) (hsplit : blk.insts = pre ++ post) (h : f.AvailIn f.DomRoot b pre v) :
    f.dominated dom v b (some pre.length) = true := by
  unfold MirFunc.dominated
  rcases site?_cases (fun _ _ hb ↦ hf.id hb) v with ⟨hs, -⟩ | ⟨q, k, c, pre', j, post', hs, hq, hc, hk, hv⟩
  · rw [hs]
  · rw [hs]
    dsimp only
    have hdef := mem_defs_of_append hc hv
    rcases h with h | h | ⟨q', c', hqb, hd, hq', hv'⟩
    · exact absurd (mem_defs_of_block? hq hdef) h
    · -- defined in `pre`, so at a place there
      have hvb : v ∈ blk.defs := by
        rw [MirBlock.defs, hsplit, List.flatMap_append]
        exact List.mem_append_left _ h
      obtain rfl := hf.eq_of_mem_defs hq hb hdef hvb
      obtain rfl : c = blk := Option.some.inj (hq.symm.trans hb)
      rw [if_pos rfl, Option.all_some, decide_eq_true_eq, ← hk]
      by_contra hle
      have hpre : pre <+: pre' :=
        List.prefix_of_prefix_length_le ⟨post, hsplit.symm⟩ ⟨j :: post', hc.symm⟩ (Nat.le_of_not_lt hle)
      obtain ⟨u, rfl⟩ := hpre
      refine hf.notMem_pre hb hc hv ?_
      rw [List.flatMap_append]
      exact List.mem_append_left _ h
    · obtain rfl := hf.eq_of_mem_defs hq hq' hdef hv'
      rw [if_neg hqb]
      exact (hdom q (List.getElem?_eq_some_iff.1 hq).1 b (List.getElem?_eq_some_iff.1 hb).1).2 hd

theorem dominated_of_availEndIn (hf : WellFormed f) {dom : Dominators} (hdom : dom.Right f)
    (hb : b < f.blocks.length) (h : f.AvailEndIn f.DomRoot b v) : f.dominated dom v b none = true := by
  unfold MirFunc.dominated
  rcases site?_cases (fun _ _ hb ↦ hf.id hb) v with ⟨hs, -⟩ | ⟨q, k, c, pre', j, post', hs, hq, hc, -, hv⟩
  · rw [hs]
  · rw [hs]
    dsimp only
    have hdef := mem_defs_of_append hc hv
    rcases h with h | ⟨q', c', hd, hq', hv'⟩
    · exact absurd (mem_defs_of_block? hq hdef) h
    · obtain rfl := hf.eq_of_mem_defs hq hq' hdef hv'
      split
      · rfl
      · exact (hdom q (List.getElem?_eq_some_iff.1 hq).1 b hb).2 hd

theorem verifyDominanceWith_of_usesDominatedIn (hf : WellFormed f) {dom : Dominators} (hdom : dom.Right f)
    (hd : f.UsesDominatedIn f.DomRoot) : f.verifyDominanceWith dom = .ok () := by
  refine forM_eq_ok.2 fun blk hblk ↦ ?_
  obtain ⟨b, hb⟩ := List.mem_iff_getElem?.1 hblk
  have hb : f.block? b = some blk := hb
  have hlt := (List.getElem?_eq_some_iff.1 hb).1
  rw [except_bind_eq_ok, hf.id hb]
  refine ⟨(), forM_eq_ok.2 fun ⟨i, k⟩ hi ↦ ?_, ?_⟩
  · have hk : blk.insts[k]? = some i := by simpa using List.mem_zipIdx_iff_getElem?.1 hi
    have hmem := List.mem_of_getElem? hk
    cases hphi : i.isPhi with
    | true =>
      obtain ⟨d, ty, args, rfl⟩ : ∃ d ty args, i = .phi d ty args := by
        cases i <;> first | exact ⟨_, _, _, rfl⟩ | cases hphi
      refine verifyDominanceInst_phi.2 fun a ha ↦ ?_
      obtain ⟨c, hc, -⟩ := hf.exists_pred hb hmem ha
      have ha' := (List.getElem?_eq_some_iff.1 hc).1
      exact dominated_of_availEndIn hf hdom ha' (hd.phi hb hmem a ha)
    | false =>
      obtain ⟨hlen, hget⟩ := List.getElem?_eq_some_iff.1 hk
      have hsplit : blk.insts = blk.insts.take k ++ i :: blk.insts.drop (k + 1) := by
        rw [← hget, List.getElem_cons_drop, List.take_append_drop]
      have hpos : (blk.insts.take k).length = k := by
        rw [List.length_take]
        exact Nat.min_eq_left (Nat.le_of_lt hlen)
      refine (verifyDominanceInst_operands hphi).2 fun o ho ↦ ?_
      have := dominated_of_availIn hf hdom hb hsplit (hd.inst hb hsplit hphi o ho)
      rwa [hpos] at this
  · cases ht : blk.term with
    | none => rfl
    | some t =>
      exact verifyDominanceTerm_eq_ok.2 fun o ho ↦
        dominated_of_availEndIn hf hdom hlt (hd.term hb ht o ho)

/-- **A function with dominated uses passes.** -/
theorem verifyDominance_of_usesDominatedIn (hf : WellFormed f) (hd : f.UsesDominatedIn f.DomRoot) :
    ∃ N, ∀ fuel, N ≤ fuel → f.verifyDominance fuel = some (.ok ()) := by
  obtain ⟨order, up, span, N, ht, hN⟩ := MirFunc.exists_tables (fun _ _ hb ↦ hf.id hb) hf.entry
  refine ⟨N, fun fuel hfuel ↦ ?_⟩
  have hdom := Dominators.right_of_new hf (hN fuel hfuel)
  rw [MirFunc.verifyDominance, hN fuel hfuel, Option.map_some,
    verifyDominanceWith_of_usesDominatedIn hf hdom hd]

/-- When the roots reach all blocks, it is enough to look at these. -/
theorem verifyDominance_of_dominatedIn (hf : WellFormed f) (hd : f.DominatedIn f.DomRoot)
    (hall : ∀ b < f.blocks.length, ∃ h, Walk f.DomRoot f.Edge b h) :
    ∃ N, ∀ fuel, N ≤ fuel → f.verifyDominance fuel = some (.ok ()) := by
  have hlt : ∀ {b blk}, f.block? b = some blk → b < f.blocks.length :=
    fun hb ↦ (List.getElem?_eq_some_iff.1 hb).1
  refine verifyDominance_of_usesDominatedIn hf ⟨fun hb hi hphi o ho ↦ hd.inst (hall _ (hlt hb)) hb hi hphi o ho,
    fun hb hi a ha ↦ ?_, fun hb ht o ho ↦ hd.term (hall _ (hlt hb)) hb ht o ho⟩
  obtain ⟨c, hc, -⟩ := hf.exists_pred hb hi ha
  exact hd.phi hb hi a ha (hall _ (hlt hc))

end CoilLang.Mir
