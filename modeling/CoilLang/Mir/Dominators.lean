import CoilLang.Lib.IdomRounds
import CoilLang.Lib.TreeSpan
import CoilLang.Mir.Ssa

/-!
# The dominators of a function's blocks

The passes that move code ask a table for dominance. It is computed on the blocks together with one
more node, a virtual root above **the entry and every other block nothing branches to**: a postorder
of a depth-first walk, the immediate dominators by intersecting, and the spans of a preorder walk of the
dominator tree.

`dominators_spec` is what the table says, for every graph of blocks: `dominates d b` holds iff every way
to `b` from one of these roots goes through `d`, so of a block that no root reaches it holds for all `d`;
and `idom b` is the closest strict dominator of `b`. The entry alone is not what the ways start from:
in `joinFromNowhere` each way from the entry to block 1 goes through block 0, and the table denies it.
-/

namespace CoilLang.Mir

/-- Dominance over a body's blocks, as tables over the blocks. -/
structure Dominators where
  idom : BlockId → Option BlockId
  span : BlockId → ℕ × ℕ
  reached : BlockId → Bool

namespace MirFunc

variable (f : MirFunc)

/-- The successors of a node; the virtual root is the number of blocks. -/
def domSuccs (b : ℕ) : List ℕ :=
  if b = f.blocks.length then
    f.entry :: (List.range f.blocks.length).filter fun i ↦ i ≠ f.entry ∧ f.preds i = []
  else (((f.block? b).map MirBlock.succs).getD []).filter (· < f.blocks.length)

def domPreds (b : ℕ) : List ℕ :=
  if b = f.entry ∨ f.preds b = [] then [f.blocks.length] else f.preds b

end MirFunc

namespace Dominators

/-- The tables; `fuel` bounds each of the loops. -/
def new (f : MirFunc) (fuel : ℕ) : Option Dominators :=
  let n := f.blocks.length
  if n = 0 then some ⟨fun _ ↦ none, fun _ ↦ (0, 0), fun _ ↦ false⟩
  else do
    let order ← postorder f.domSuccs n fuel
    let idom ← idoms f.domPreds n order fuel
    let span ← spans (fun p ↦ (List.range n).filter fun b ↦ idom b = some p) n fuel
    some {
      idom := fun b ↦ (idom b).filter (· ≠ n)
      span := span
      reached := fun b ↦ (idom b).isSome }

/-- Whether every path from a root to `b` passes through `d`. -/
def dominates (dom : Dominators) (d b : BlockId) : Bool :=
  if !dom.reached b then true
  else if !dom.reached d then false
  else (dom.span d).1 ≤ (dom.span b).1 ∧ (dom.span b).2 ≤ (dom.span d).2

theorem new_mono {f : MirFunc} {n m : ℕ} (hnm : n ≤ m) {dom : Dominators} (h : new f n = some dom) :
    new f m = some dom := by
  unfold new at h ⊢
  dsimp only at h ⊢
  split at h
  · rename_i hb
    rw [if_pos hb]
    exact h
  · rename_i hb
    rw [if_neg hb]
    obtain ⟨order, ho, h⟩ := Option.bind_eq_some_iff.1 h
    obtain ⟨up, hup, h⟩ := Option.bind_eq_some_iff.1 h
    obtain ⟨span, hs, h⟩ := Option.bind_eq_some_iff.1 h
    show (postorder f.domSuccs f.blocks.length m).bind _ = _
    rw [postorder_mono hnm ho, Option.bind_some]
    show (idoms f.domPreds f.blocks.length order m).bind _ = _
    rw [idoms_mono hnm hup, Option.bind_some]
    show (spans _ f.blocks.length m).bind _ = _
    rw [spans_mono hnm hs, Option.bind_some]
    exact h

theorem dominates_iff {dom : Dominators} {d b : BlockId} : dom.dominates d b = true ↔
    (dom.reached b = true → dom.reached d = true ∧
      (dom.span d).1 ≤ (dom.span b).1 ∧ (dom.span b).2 ≤ (dom.span d).2) := by
  unfold dominates
  cases dom.reached b <;> cases dom.reached d <;> simp

end Dominators

namespace MirFunc

variable (f : MirFunc)

/-- Each block has its position for its id. -/
def Numbered : Prop := ∀ (i : ℕ) (b : MirBlock), f.blocks[i]? = some b → b.id = i

/-- The entry, and the other blocks nothing branches to. -/
def DomRoot (b : BlockId) : Prop := b = f.entry ∨ b < f.blocks.length ∧ f.preds b = []

/-- A dominator of `b` other than `b` that all the others dominate. -/
def ClosestDom (d b : BlockId) : Prop :=
  d ≠ b ∧ Dominates f.DomRoot f.Edge d b ∧
    ∀ c, c ≠ b → Dominates f.DomRoot f.Edge c b → Dominates f.DomRoot f.Edge c d

/-- The edges of the graph with the virtual root. -/
def DomEdge (a b : ℕ) : Prop := b < f.blocks.length ∧ a ∈ f.domPreds b

variable {f}

/-! ### The virtual root -/

section
variable (hid : f.Numbered)
include hid

theorem mem_preds_iff {a b : BlockId} : a ∈ f.preds b ↔ f.Edge a b := by
  rw [mem_preds]
  constructor
  · rintro ⟨c, hc, rfl, hb⟩
    obtain ⟨i, hi⟩ := List.mem_iff_getElem?.1 hc
    exact ⟨c, by rw [block?, hid i c hi, hi], hb⟩
  · rintro ⟨c, hc, hb⟩
    exact ⟨c, List.mem_of_getElem? hc, hid a c hc, hb⟩

/-- A way from the virtual root goes on from a root of the blocks. -/
theorem walk_of_domWalk {b : ℕ} {h : List ℕ} (hw : Walk (· = f.blocks.length) f.DomEdge b h) :
    (b = f.blocks.length ∧ h = [b]) ∨
      ∃ h', h = h' ++ [f.blocks.length] ∧ b < f.blocks.length ∧ Walk f.DomRoot f.Edge b h' := by
  induction hw with
  | start ha => exact .inl ⟨ha, rfl⟩
  | step _hw he ih =>
    rename_i a b h
    obtain ⟨hb, hab⟩ := he
    unfold domPreds at hab
    split at hab
    · rename_i hroot
      obtain rfl := List.mem_singleton.1 hab
      rcases ih with ⟨-, rfl⟩ | ⟨-, -, hlt, -⟩
      · exact .inr ⟨[b], rfl, hb, .start (hroot.imp id fun h ↦ ⟨hb, h⟩)⟩
      · exact absurd hlt (lt_irrefl _)
    · have he := (mem_preds_iff hid).1 hab
      obtain ⟨c, hc, -⟩ := he
      have hlt : a < f.blocks.length := (List.getElem?_eq_some_iff.1 hc).1
      rcases ih with ⟨rfl, -⟩ | ⟨h', rfl, -, hw'⟩
      · exact absurd hlt (lt_irrefl _)
      · exact .inr ⟨b :: h', rfl, hb, hw'.step ((mem_preds_iff hid).1 hab)⟩

/-- There is a way from the virtual root that goes through no other blocks. -/
theorem domWalk_of_walk {b : ℕ} {h : List ℕ} (hw : Walk f.DomRoot f.Edge b h)
    (hb : b < f.blocks.length) :
    ∃ h', Walk (· = f.blocks.length) f.DomEdge b h' ∧ ∀ x ∈ h', x = f.blocks.length ∨ x ∈ h := by
  have hroot : ∀ {b : ℕ} {h : List ℕ}, b < f.blocks.length → b ∈ h → (b = f.entry ∨ f.preds b = []) →
      ∃ h', Walk (· = f.blocks.length) f.DomEdge b h' ∧ ∀ x ∈ h', x = f.blocks.length ∨ x ∈ h := by
    intro b h hb hbh hr
    have he : f.DomEdge f.blocks.length b := ⟨hb, by rw [domPreds, if_pos hr]; exact List.mem_singleton.2 rfl⟩
    refine ⟨[b, f.blocks.length], .step (.start rfl) he, fun x hx ↦ ?_⟩
    rcases List.mem_cons.1 hx with rfl | hx
    · exact .inr hbh
    · exact .inl (List.mem_singleton.1 hx)
  induction hw with
  | start ha => exact hroot hb List.mem_cons_self (ha.imp_right And.right)
  | step hw he ih =>
    rename_i a b h
    by_cases hr : b = f.entry ∨ f.preds b = []
    · exact hroot hb List.mem_cons_self hr
    · have hlt : a < f.blocks.length := by
        obtain ⟨c, hc, -⟩ := he
        exact (List.getElem?_eq_some_iff.1 hc).1
      obtain ⟨h', hw', hsub⟩ := ih hlt
      refine ⟨b :: h', .step hw' ⟨hb, ?_⟩, fun x hx ↦ ?_⟩
      · rw [domPreds, if_neg hr]
        exact (mem_preds_iff hid).2 he
      · rcases List.mem_cons.1 hx with rfl | hx
        · exact .inr List.mem_cons_self
        · exact (hsub x hx).imp_right (List.mem_cons_of_mem _)

omit hid in
theorem lt_of_mem_walk {b x : ℕ} {h : List ℕ} (hw : Walk f.DomRoot f.Edge b h)
    (hb : b < f.blocks.length) (hx : x ∈ h) : x < f.blocks.length := by
  induction hw with
  | start _ => exact List.mem_singleton.1 hx ▸ hb
  | step _ he ih =>
    rcases List.mem_cons.1 hx with rfl | hx
    · exact hb
    · obtain ⟨c, hc, -⟩ := he
      exact ih (List.getElem?_eq_some_iff.1 hc).1 hx

/-- The virtual root changes nothing between blocks. -/
theorem domEdge_dominates_iff {d b : ℕ} (hd : d ≠ f.blocks.length) (hb : b < f.blocks.length) :
    Dominates (· = f.blocks.length) f.DomEdge d b ↔ Dominates f.DomRoot f.Edge d b := by
  constructor
  · intro h l hw
    obtain ⟨l', hw', hsub⟩ := domWalk_of_walk hid hw hb
    exact (hsub d (h l' hw')).resolve_left hd
  · intro h l hw
    rcases walk_of_domWalk hid hw with ⟨rfl, -⟩ | ⟨l', rfl, -, hw'⟩
    · exact absurd hb (lt_irrefl _)
    · exact List.mem_append_left _ (h l' hw')

/-! ### The tables -/

omit hid in
theorem lt_of_mem_domSuccs {a b : ℕ} (hentry : f.entry < f.blocks.length) (hb : b ∈ f.domSuccs a) :
    b < f.blocks.length := by
  unfold domSuccs at hb
  split at hb
  · rcases List.mem_cons.1 hb with rfl | hb
    · exact hentry
    · exact List.mem_range.1 (List.mem_filter.1 hb).1
  · simpa using (List.mem_filter.1 hb).2

/-- The successors and the predecessors are the same edges, but for edges into the entry. -/
theorem mem_domSuccs_of_domEdge {a b : ℕ} (he : f.DomEdge a b) : b ∈ f.domSuccs a := by
  obtain ⟨hb, hab⟩ := he
  unfold domPreds at hab
  unfold domSuccs
  split at hab
  · rename_i hroot
    rw [if_pos (List.mem_singleton.1 hab)]
    by_cases hbe : b = f.entry
    · exact hbe ▸ List.mem_cons_self
    · refine List.mem_cons_of_mem _ (List.mem_filter.2 ⟨List.mem_range.2 hb, ?_⟩)
      simpa [hbe] using hroot.resolve_left hbe
  · obtain ⟨c, hc, hbc⟩ := (mem_preds_iff hid).1 hab
    have hlt : a < f.blocks.length := (List.getElem?_eq_some_iff.1 hc).1
    rw [if_neg (Nat.ne_of_lt hlt), hc]
    exact List.mem_filter.2 ⟨hbc, by simpa using hb⟩

/-- A depth-first order is one for the edges of the predecessors. -/
theorem flowOrder {order : List ℕ} (hentry : f.entry < f.blocks.length)
    (hpo : Postorder f.domSuccs f.blocks.length order) :
    FlowOrder f.blocks.length f.DomEdge f.domPreds order := by
  have hlt : ∀ {b}, b ∈ order → b ≠ f.blocks.length → b < f.blocks.length := fun hb hne ↦ by
    obtain ⟨p, hp, -⟩ := hpo.parent _ hb hne
    exact lt_of_mem_domSuccs hentry hp
  refine ⟨hpo.nodup, hpo.last, fun hb hne p ↦ ⟨fun hp ↦ ⟨hlt hb hne, hp⟩, And.right⟩,
    fun ha he ↦ hpo.closed _ ha _ (mem_domSuccs_of_domEdge hid he), fun {b} hb hne ↦ ?_⟩
  by_cases hroot : b = f.entry ∨ f.preds b = []
  · -- a root comes before the virtual root, which is last
    refine ⟨f.blocks.length, by rw [domPreds, if_pos hroot]; exact List.mem_singleton.2 rfl, ?_⟩
    obtain ⟨pre, rfl⟩ := List.getLast?_eq_some_iff.1 hpo.last
    have hpre : b ∈ pre := (List.mem_append.1 hb).resolve_right fun h ↦ hne (List.mem_singleton.1 h)
    exact (List.singleton_sublist.2 hpre).append (List.Sublist.refl [f.blocks.length])
  · obtain ⟨p, hp, hsub⟩ := hpo.parent b hb hne
    refine ⟨p, ?_, hsub⟩
    rw [domPreds, if_neg hroot]
    unfold domSuccs at hp
    split at hp
    · obtain ⟨hbe, hbp⟩ := not_or.1 hroot
      rcases List.mem_cons.1 hp with rfl | hp
      · exact absurd rfl hbe
      · exact absurd (by simpa [hbe] using (List.mem_filter.1 hp).2) hbp
    · cases hc : f.block? p with
      | none =>
        rw [hc] at hp
        cases hp
      | some c =>
        rw [hc] at hp
        exact (mem_preds_iff hid).2 ⟨c, hc, (List.mem_filter.1 hp).1⟩

/-- The blocks in the order are those some root reaches. -/
theorem mem_order_iff {order : List ℕ} (hentry : f.entry < f.blocks.length)
    (hpo : Postorder f.domSuccs f.blocks.length order) {b : ℕ} (hb : b < f.blocks.length) :
    b ∈ order ↔ ∃ h, Walk f.DomRoot f.Edge b h := by
  obtain ⟨tp, hn⟩ := (flowOrder hid hentry hpo).numbering
  constructor
  · intro hmem
    obtain ⟨h, hw, -⟩ := hn.exists_walk hmem
    rcases walk_of_domWalk hid hw with ⟨rfl, -⟩ | ⟨h', -, -, hw'⟩
    · exact absurd hb (lt_irrefl _)
    · exact ⟨h', hw'⟩
  · rintro ⟨h, hw⟩
    obtain ⟨h', hw', -⟩ := domWalk_of_walk hid hw hb
    exact hn.mem_of_walk hw'

omit hid in
/-- The children of a node in the table are those below it in the tree. -/
theorem upTree {order : List ℕ} {up : ℕ → Option ℕ} (hentry : f.entry < f.blocks.length)
    (hpo : Postorder f.domSuccs f.blocks.length order)
    (htree : IdomTree f.blocks.length f.DomEdge order.idxOf (· ∈ order) up) :
    UpTree f.blocks.length up order.idxOf
      fun p ↦ (List.range f.blocks.length).filter fun b ↦ up b = some p := by
  refine ⟨htree.up_root, htree.lt, fun {b c} ↦ ?_, fun b ↦ List.nodup_range.filter _⟩
  simp only [List.mem_filter, List.mem_range, decide_eq_true_eq]
  refine and_congr_left fun hup ↦ ⟨Nat.ne_of_lt, fun hne ↦ ?_⟩
  obtain ⟨p, hp, -⟩ := hpo.parent c (htree.mem hup).1 hne
  exact lt_of_mem_domSuccs hentry hp

/-- What the loops compute: a depth-first order, the immediate dominators for it, and spans that show
which node is above which. -/
structure Tables (f : MirFunc) (order : List ℕ) (up : ℕ → Option ℕ) (span : ℕ → ℕ × ℕ) : Prop where
  postorder : Postorder f.domSuccs f.blocks.length order
  tree : IdomTree f.blocks.length f.DomEdge order.idxOf (· ∈ order) up
  anc_iff_span : ∀ d ∈ order, ∀ b ∈ order, Anc up d b ↔ (span d).1 ≤ (span b).1 ∧ (span b).2 ≤ (span d).2

/-- The loops end. -/
theorem exists_tables (hentry : f.entry < f.blocks.length) :
    ∃ order up span N, Tables f order up span ∧ ∀ fuel, N ≤ fuel →
      Dominators.new f fuel =
        some ⟨fun b ↦ (up b).filter (· ≠ f.blocks.length), span, fun b ↦ (up b).isSome⟩ := by
  have hroot : f.blocks.length ∈ Finset.range (f.blocks.length + 1) :=
    Finset.mem_range.2 (Nat.lt_succ_self _)
  have hclosed : ∀ x ∈ Finset.range (f.blocks.length + 1), ∀ y ∈ f.domSuccs x,
      y ∈ Finset.range (f.blocks.length + 1) := fun x _ y hy ↦
    Finset.mem_range.2 (Nat.lt_succ_of_lt (lt_of_mem_domSuccs hentry hy))
  obtain ⟨order, N₁, hpo, hN₁⟩ := exists_postorder hroot hclosed
  obtain ⟨up, N₂, htree, hN₂⟩ := exists_idoms (flowOrder hid hentry hpo)
  have hmem : ∀ {x}, x ∈ order.toFinset ↔ x ∈ order := List.mem_toFinset
  have hroot : f.blocks.length ∈ order := (htree.mem htree.up_root).1
  obtain ⟨span, N₃, hN₃, hspan⟩ :=
    exists_spans (upTree hentry hpo htree) (M := order.toFinset) (hmem.2 hroot)
      (fun x y h ↦ by simp only [hmem, (htree.mem h).1, (htree.mem h).2])
      fun x hx ↦ (htree.anc_iff (hmem.1 hx) _).2 (.of_root _ x)
  refine ⟨order, up, span, N₁ + N₂ + N₃ + 1,
    ⟨hpo, htree, fun d hd b hb ↦ hspan d (hmem.2 hd) b (hmem.2 hb)⟩, fun fuel hfuel ↦ ?_⟩
  have hne : f.blocks.length ≠ 0 := Nat.ne_of_gt (Nat.zero_lt_of_lt hentry)
  unfold Dominators.new
  dsimp only
  rw [if_neg hne, hN₁ fuel (by omega)]
  show (idoms f.domPreds f.blocks.length order fuel).bind _ = _
  rw [hN₂ fuel (by omega), Option.bind_some, hN₃ fuel (by omega)]
  rfl

namespace Tables

variable {order : List ℕ} {up : ℕ → Option ℕ} {span : ℕ → ℕ × ℕ} (ht : Tables f order up span)
  (hentry : f.entry < f.blocks.length)

omit hid in
include ht in
theorem isSome_up_iff {b : ℕ} : (up b).isSome = true ↔ b ∈ order := by
  rw [Option.isSome_iff_exists]
  exact ⟨fun ⟨_, hy⟩ ↦ (ht.tree.mem hy).1, ht.tree.assigned⟩

include ht in
/-- The ways up between blocks are the dominators for the roots. -/
theorem anc_iff {d b : ℕ} (hbo : b ∈ order) (hb : b < f.blocks.length) (hd : d ≠ f.blocks.length) :
    Anc up d b ↔ Dominates f.DomRoot f.Edge d b :=
  (ht.tree.anc_iff hbo d).trans (domEdge_dominates_iff hid hd hb)

omit hid in
include ht hentry in
theorem lt_of_mem {b : ℕ} (hb : b ∈ order) (hne : b ≠ f.blocks.length) : b < f.blocks.length := by
  obtain ⟨p, hp, -⟩ := ht.postorder.parent _ hb hne
  exact lt_of_mem_domSuccs hentry hp

include ht hentry in
theorem dominates_iff {d b : ℕ} (hd : d < f.blocks.length) (hb : b < f.blocks.length) :
    (⟨fun b ↦ (up b).filter (· ≠ f.blocks.length), span, fun b ↦ (up b).isSome⟩ : Dominators).dominates
      d b = true ↔ Dominates f.DomRoot f.Edge d b := by
  rw [Dominators.dominates_iff]
  show ((up b).isSome = true → (up d).isSome = true ∧ _) ↔ _
  rw [ht.isSome_up_iff, ht.isSome_up_iff]
  by_cases hbo : b ∈ order
  · rw [← ht.anc_iff hid hbo hb (Nat.ne_of_lt hd)]
    constructor
    · intro h
      obtain ⟨hdo, hle⟩ := h hbo
      exact (ht.anc_iff_span d hdo b hbo).2 hle
    · intro h _
      -- what is above a reached block is reached
      have hdo : d ∈ order :=
        h.preserves (P := (· ∈ order)) (fun x y _ hxy ↦ (ht.tree.mem hxy).2) hbo
      exact ⟨hdo, (ht.anc_iff_span d hdo b hbo).1 h⟩
  · refine iff_of_true (fun h ↦ absurd h hbo) fun h hw ↦ ?_
    exact absurd ((mem_order_iff hid hentry ht.postorder hb).2 ⟨h, hw⟩) hbo

include ht hentry in
/-- A reached block with a strict dominator points to a block, which that dominator is above. -/
theorem strict_dominator {b d y : ℕ} {h : List ℕ} (hb : b < f.blocks.length)
    (hw : Walk f.DomRoot f.Edge b h) (hdb : d ≠ b) (hd : Dominates f.DomRoot f.Edge d b)
    (hy : up b = some y) : y ≠ f.blocks.length ∧ Anc up d y := by
  have hne : d ≠ f.blocks.length := Nat.ne_of_lt (lt_of_mem_walk hw hb (hd _ hw))
  have hbo := (mem_order_iff hid hentry ht.postorder hb).2 ⟨h, hw⟩
  have hup := ((ht.anc_iff hid hbo hb hne).2 hd).of_ne hdb hy
  refine ⟨fun hyn ↦ hne ?_, hup⟩
  rw [hyn] at hup
  refine hup.preserves (P := (· = f.blocks.length)) (fun x z hx hxz ↦ ?_) rfl
  rw [hx] at hxz
  exact Option.some.inj (hxz.symm.trans ht.tree.up_root)

include ht hentry in
theorem up_iff_closestDom {b : ℕ} (hb : b < f.blocks.length) (i : ℕ) :
    up b = some i ∧ i ≠ f.blocks.length ↔
      (∃ h, Walk f.DomRoot f.Edge b h) ∧ f.ClosestDom i b := by
  constructor
  · rintro ⟨hi, hin⟩
    obtain ⟨hbo, hio⟩ := ht.tree.mem hi
    have hlt := ht.tree.lt hi (Nat.ne_of_lt hb)
    obtain ⟨h, hw⟩ := (mem_order_iff hid hentry ht.postorder hb).1 hbo
    refine ⟨⟨h, hw⟩, ?_, (ht.anc_iff hid hbo hb hin).1 (.up hi (.refl i)), fun c hc hcb ↦ ?_⟩
    · rintro rfl
      omega
    · have hcn := Nat.ne_of_lt (lt_of_mem_walk hw hb (hcb _ hw))
      exact (ht.anc_iff hid hio (ht.lt_of_mem hentry hio hin) hcn).1
        (ht.strict_dominator hid hentry hb hw hc hcb hi).2
  · rintro ⟨⟨h, hw⟩, hib, hi, hclosest⟩
    have hbo := (mem_order_iff hid hentry ht.postorder hb).2 ⟨h, hw⟩
    obtain ⟨y, hy⟩ := ht.tree.assigned hbo
    obtain ⟨hyn, hiy⟩ := ht.strict_dominator hid hentry hb hw hib hi hy
    have hlt := ht.tree.lt hy (Nat.ne_of_lt hb)
    have hyb : y ≠ b := by
      rintro rfl
      omega
    have hio : i ∈ order := hiy.preserves (P := (· ∈ order)) (fun x z _ hxz ↦ (ht.tree.mem hxz).2)
      (ht.tree.mem hy).2
    have hin := Nat.ne_of_lt (lt_of_mem_walk hw hb (hi _ hw))
    have hyi := (ht.anc_iff hid hio (ht.lt_of_mem hentry hio hin) hyn).2
      (hclosest y hyb ((ht.anc_iff hid hbo hb hyn).1 (.up hy (.refl y))))
    -- each is above the other
    obtain rfl : y = i := by
      by_contra hne'
      have hlt₁ := ht.tree.num_lt hiy (Ne.symm hne')
      have hlt₂ := ht.tree.num_lt hyi hne'
      omega
    exact ⟨hy, hyn⟩

include ht hentry in
theorem exists_up {b d : ℕ} (hb : b < f.blocks.length) (hw : ∃ h, Walk f.DomRoot f.Edge b h)
    (hdb : d ≠ b) (hd : Dominates f.DomRoot f.Edge d b) :
    ∃ y, up b = some y ∧ y ≠ f.blocks.length := by
  obtain ⟨h, hw⟩ := hw
  obtain ⟨y, hy⟩ := ht.tree.assigned ((mem_order_iff hid hentry ht.postorder hb).2 ⟨h, hw⟩)
  exact ⟨y, hy, (ht.strict_dominator hid hentry hb hw hdb hd hy).1⟩

end Tables

/-- **The dominators of every graph of blocks.** The loops end; `dominates` answers for the ways from
the roots, and `idom` gives the closest strict dominator of each reached block that has one. -/
theorem dominators_spec (hentry : f.entry < f.blocks.length) :
    ∃ dom N, (∀ fuel, N ≤ fuel → Dominators.new f fuel = some dom) ∧
      (∀ d < f.blocks.length, ∀ b < f.blocks.length,
        (dom.dominates d b = true ↔ Dominates f.DomRoot f.Edge d b)) ∧
      ∀ b < f.blocks.length,
        (∀ i, dom.idom b = some i ↔ (∃ h, Walk f.DomRoot f.Edge b h) ∧ f.ClosestDom i b) ∧
        ((∃ h, Walk f.DomRoot f.Edge b h) → (∃ d ≠ b, Dominates f.DomRoot f.Edge d b) →
          ∃ i, dom.idom b = some i) := by
  obtain ⟨order, up, span, N, ht, hnew⟩ := exists_tables hid hentry
  have hidom : ∀ b i, (up b).filter (· ≠ f.blocks.length) = some i ↔
      up b = some i ∧ i ≠ f.blocks.length := fun b i ↦ by
    rw [Option.filter_eq_some_iff, decide_eq_true_eq]
  refine ⟨_, N, hnew, fun d hd b hb ↦ ht.dominates_iff hid hentry hd hb, fun b hb ↦
    ⟨fun i ↦ (hidom b i).trans (ht.up_iff_closestDom hid hentry hb i), ?_⟩⟩
  rintro hw ⟨d, hdb, hd⟩
  obtain ⟨y, hy⟩ := ht.exists_up hid hentry hb hw hdb hd
  exact ⟨y, (hidom b y).2 hy⟩

end

end MirFunc

/-- Block 1 is reached from the entry by block 0 only, but also from block 2, to which nothing branches. -/
def joinFromNowhere : MirFunc where
  params := []
  retTy := none
  retHiTy := none
  retLayout := .word
  entry := 0
  blocks := [⟨0, [], some (.jump 1)⟩, ⟨1, [], some (.ret none none)⟩, ⟨2, [], some (.jump 1)⟩]
  types := []

/-- The tables speak for block 1 reached from block 2. -/
theorem joinFromNowhere_spec :
    ∃ dom N, (∀ fuel, N ≤ fuel → Dominators.new joinFromNowhere fuel = some dom) ∧
      (∀ d < 3, ∀ b < 3,
        (dom.dominates d b = true ↔ Dominates joinFromNowhere.DomRoot joinFromNowhere.Edge d b)) ∧
      ∀ b < 3,
        (∀ i, dom.idom b = some i ↔ (∃ h, Walk joinFromNowhere.DomRoot joinFromNowhere.Edge b h) ∧
          joinFromNowhere.ClosestDom i b) ∧
        ((∃ h, Walk joinFromNowhere.DomRoot joinFromNowhere.Edge b h) →
          (∃ d ≠ b, Dominates joinFromNowhere.DomRoot joinFromNowhere.Edge d b) →
          ∃ i, dom.idom b = some i) :=
  have hverify : joinFromNowhere.verify = .ok () := by decide +kernel
  MirFunc.dominators_spec (fun _ _ h ↦ (MirFunc.wellFormed_of_verify hverify).id h) (by decide)

/-- **The entry is not the only root**: every way from the entry to block 1 goes through the entry block,
and the tables neither say so nor give it as the immediate dominator. -/
theorem joinFromNowhere_entry :
    joinFromNowhere.verify = .ok () ∧ joinFromNowhere.Reached 1 ∧ joinFromNowhere.Dom 0 1 ∧
      (Dominators.new joinFromNowhere 20).map (fun dom ↦ (dom.dominates 0 1, dom.idom 1)) =
        some (false, none) := by
  refine ⟨by decide +kernel, ⟨[1, 0], .step (.start rfl) ⟨_, rfl, by decide⟩⟩, dom_entry 1, ?_⟩
  decide +kernel

end CoilLang.Mir
