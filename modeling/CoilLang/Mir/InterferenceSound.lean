import CoilLang.Mir.Interference
import Mathlib.Algebra.BigOperators.Group.Finset.Basic
import Mathlib.Algebra.Order.BigOperators.Group.Finset
import Mathlib.Tactic.IntervalCases

/-!
# Interference is sound

At the end of the rounds every walk gives back the set it started from (`Stable`). Then what a path reads
before it writes is among the live values of the block it starts in (`mem_walkBody_of_live`), and a value
written on the path while another is live is joined to it by an edge (`mem_edges_of_clash`). The rounds end
since the sets only grow and hold nothing but values that the function reads (`liveness_terminates`).
-/

namespace CoilLang.Mir.Interference

open Liveness

variable {f : Func} {p : Slots f} {L L' : LiveIn} {i s : BlockId} {b c : Block} {t : List (Access ValueId)}
  {d o : ValueId}

/-! ### Live values and edges -/

/-- Walking a block again changes nothing. -/
def Stable (p : Slots f) (L : LiveIn) : Prop :=
  ∀ i b, f.blocks[i]? = some b → (walk p L b).1 = L.at i

theorem mem_liveOut : o ∈ liveOut p L b ↔ ∃ term, b.term = some term ∧ ∃ s ∈ term.succs, ∃ c,
    f.blocks[s]? = some c ∧ (o ∈ L.at s ∨ o ∈ phiReads p b.id c) := by
  rw [liveOut, Finset.mem_biUnion]
  cases b.term with
  | none => simp
  | some term =>
    simp only [Option.elim_some, List.mem_toFinset, Option.some.injEq, exists_eq_left']
    refine exists_congr fun s ↦ and_congr_right fun _ ↦ ?_
    cases f.blocks[s]? with
    | none => simp
    | some c => simp

theorem mem_succs_of_exit {term : Terminator} {bound : List ValueId} (h : Exit term bound s) :
    s ∈ term.succs := by
  cases h with
  | jump => exact List.mem_singleton_self _
  | branch h =>
    rcases h with rfl | rfl
    · exact List.mem_cons_self
    · exact List.mem_cons_of_mem _ List.mem_cons_self
  | hit => exact List.mem_cons_self
  | miss => exact List.mem_cons_of_mem _ List.mem_cons_self

theorem mem_walk_of_notMem_phiDests (h : o ∈ (walkBody p L b).1) (hphi : o ∉ b.phiDests) :
    o ∈ (walk p L b).1 :=
  Finset.mem_sdiff.2 ⟨h, fun hm ↦ hphi (List.mem_toFinset.1 hm)⟩

/-- A slotted value that is read across an edge, by a φ or later, is live out of the block before it. -/
theorem mem_liveOut_of_live (hst : Stable p L) (hb : f.blocks[i]? = some b) {term : Terminator}
    (hterm : b.term = some term) {bound : List ValueId} (hexit : Exit term bound s)
    (hc : f.blocks[s]? = some c) (ho : p.slot o = true) (ht : Live o t → o ∈ (walkBody p L c).1)
    (h : Live o (phiAccess p i c :: t)) : o ∈ liveOut p L b := by
  refine mem_liveOut.2 ⟨term, hterm, s, mem_succs_of_exit hexit, c, hc, ?_⟩
  rw [f.id_eq i b hb]
  rcases h with h | ⟨hnot, h⟩
  · exact Or.inr h
  · refine Or.inl (hst s c hc ▸ mem_walk_of_notMem_phiDests (ht h) fun hm ↦ hnot ?_)
    exact List.mem_filter.2 ⟨hm, ho⟩

/-- A payload bound on the way out of a block is one its terminator may bind. -/
theorem mem_termWrites_of_exit {term : Terminator} {bound : List ValueId} (h : Exit term bound s)
    (hd : d ∈ bound.filter p.slot) : d ∈ termWrites p term := by
  cases h with
  | hit => exact hd
  | jump => cases hd
  | branch => cases hd
  | miss => cases hd

theorem termAccess_eq {term : Terminator} (hterm : b.term = some term) :
    termAccess p b = ⟨termReads p term, termWrites p term⟩ := by
  rw [termAccess, hterm, Option.elim_some, Option.elim_some]

/-- What is live across an edge and not bound on it, or read by the terminator, is live before that. -/
theorem mem_back_of_live (hpay : PayloadsBound p) (hb : f.blocks[i]? = some b) {term : Terminator}
    (hterm : b.term = some term) {bound : List ValueId} (hexit : Exit term bound s)
    (hc : f.blocks[s]? = some c) (hin : HasIncomings i c) (hpath : Path p s t) (ho : p.slot o = true)
    (hout : Live o (phiAccess p i c :: t) → o ∈ liveOut p L b)
    (h : Live o (⟨termReads p term, bound.filter p.slot⟩ :: phiAccess p i c :: t)) :
    o ∈ (back (termAccess p b) (liveOut p L b, ∅)).1 := by
  rw [mem_back, termAccess_eq hterm]
  refine h.imp_right fun ⟨hnot, hlive⟩ ↦ ⟨fun hw ↦ ?_, hout hlive⟩
  cases hexit with
  | hit => exact hnot hw
  | jump => cases hw
  | branch => cases hw
  | miss =>
    -- a payload is not live across a miss
    have hw := List.mem_filter.1 hw
    exact hpay i b _ _ _ _ s c t hb hterm hc hin hpath o hw.1 ho hlive

theorem walkBody_eq : walkBody p L b = scan (body p b) (back (termAccess p b) (liveOut p L b, ∅)) := by
  rw [walkBody, scan, List.foldr_append]
  rfl

theorem mem_walkBody_of_live (hpay : PayloadsBound p) (hst : Stable p L) (ho : p.slot o = true)
    (hpath : Path p i t) (hb : f.blocks[i]? = some b) (h : Live o t) : o ∈ (walkBody p L b).1 := by
  induction hpath generalizing b with
  | @last i b' hb' =>
    obtain rfl : b' = b := Option.some.inj (hb'.symm.trans hb)
    rw [walkBody_eq]
    refine mem_scan_of_live (fun h ↦ ?_) h
    rcases h with h | ⟨-, h⟩
    · exact mem_back.2 (Or.inl h)
    · exact absurd h id
  | @step i s b' c term bound t hb' hterm hexit hc hin hpath ih =>
    obtain rfl : b' = b := Option.some.inj (hb'.symm.trans hb)
    rw [walkBody_eq]
    refine mem_scan_of_live (fun h ↦ ?_) h
    exact mem_back_of_live hpay hb hterm hexit hc hin hpath ho
      (mem_liveOut_of_live hst hb hterm hexit hc ho (ih hc)) h

theorem mem_edges_of_walk (hb : f.blocks[i]? = some b) {e : ValueId × ValueId}
    (h : e ∈ (walk p L b).2) : e ∈ edges p L :=
  Finset.mem_union_left _
    (Finset.mem_biUnion.2 ⟨b, List.mem_toFinset.2 (List.mem_of_getElem? hb), h⟩)

theorem mem_edges_of_walkBody (hb : f.blocks[i]? = some b) {e : ValueId × ValueId}
    (h : e ∈ (walkBody p L b).2) : e ∈ edges p L :=
  mem_edges_of_walk hb (Finset.mem_union_left _ h)

/-- A φ written on an edge clashes with what the φs there read and write, and with what is live after. -/
theorem mem_edges_of_phi (hb : f.blocks[i]? = some b) (hc : f.blocks[s]? = some c)
    (hin : HasIncomings i c) (ho : p.slot o = true) (hne : o ≠ d) (hd : d ∈ c.phiDests.filter p.slot)
    (h : o ∈ liveOut p L b ∨ o ∈ c.phiDests ∨ o ∈ (walkBody p L c).1) : (d, o) ∈ edges p L := by
  obtain ⟨hd, hslot⟩ := List.mem_filter.1 hd
  rcases h with hout | h
  · obtain ⟨phi, hphi, rfl⟩ := List.mem_map.1 hd
    refine Finset.mem_union_right _ (Finset.mem_biUnion.2
      ⟨c, List.mem_toFinset.2 (List.mem_of_getElem? hc), Finset.mem_biUnion.2
        ⟨phi, List.mem_toFinset.2 hphi, ?_⟩⟩)
    rw [phiEdges, if_pos hslot]
    refine Finset.mem_biUnion.2 ⟨i, List.mem_toFinset.2 (hin phi hphi), ?_⟩
    rw [hb, Option.elim_some]
    exact Finset.mem_filter.2 ⟨Finset.mem_product.2 ⟨Finset.mem_singleton_self _, hout⟩, hne⟩
  · refine mem_edges_of_walk hc (Finset.mem_union_right _ (Finset.mem_filter.2
      ⟨Finset.mem_product.2 ⟨?_, Finset.mem_filter.2 ⟨?_, ho⟩⟩, hne⟩))
    · exact List.mem_toFinset.2 (List.mem_filter.2 ⟨hd, hslot⟩)
    · rw [Finset.mem_union, List.mem_toFinset]
      exact h.symm

theorem mem_edges_of_clash (hpay : PayloadsBound p) (hst : Stable p L) (ho : p.slot o = true)
    (hne : o ≠ d) (hpath : Path p i t) (h : Clash d o t) : (d, o) ∈ edges p L := by
  induction hpath with
  | @last i b hb =>
    have hlive : Live o [⟨b.term.elim [] (termReads p), []⟩] →
        o ∈ (back (termAccess p b) (liveOut p L b, ∅)).1 := by
      rintro (h | ⟨-, h⟩)
      · exact mem_back.2 (Or.inl h)
      · exact absurd h id
    rcases mem_scan_of_clash hlive hne h with h | ⟨⟨hd, -⟩ | h⟩
    · exact mem_edges_of_walkBody hb (walkBody_eq ▸ h)
    · cases hd
    · exact absurd h id
  | @step i s b c term bound t hb hterm hexit hc hin hpath ih =>
    have hbody := fun h ↦ mem_walkBody_of_live hpay hst ho hpath hc h
    have hout := mem_liveOut_of_live hst hb hterm hexit hc ho hbody
    have hback := mem_back_of_live hpay hb hterm hexit hc hin hpath ho hout
    rcases mem_scan_of_clash hback hne h with h | h
    · exact mem_edges_of_walkBody hb (walkBody_eq ▸ h)
    rcases h with ⟨hd, h⟩ | ⟨hd, h⟩ | h
    · -- the payload bound on the edge
      refine mem_edges_of_walkBody hb (walkBody_eq ▸ subset_scan_edges (mem_back_edges ?_ ?_ hne))
      · rw [termAccess_eq hterm]
        exact mem_termWrites_of_exit hexit hd
      · rw [termAccess_eq hterm]
        exact h.imp_right (Or.imp (mem_termWrites_of_exit hexit) hout)
    · -- a φ copied on the edge
      refine mem_edges_of_phi hb hc hin ho hne hd ?_
      rcases h with h | h | h
      · exact Or.inl (hout (Or.inl h))
      · exact Or.inr (Or.inl (List.mem_filter.1 h).1)
      · exact Or.inr (Or.inr (hbody h))
    · exact ih h

/-- Edges are read off in both directions. -/
theorem mem_neighbours {n : ℕ} {E : Finset (ValueId × ValueId)} (hd : d < n) (ho : o < n)
    (h : (d, o) ∈ E) : o ∈ neighbours n E d ∧ d ∈ neighbours n E o := by
  refine ⟨Finset.mem_union_left _ (Finset.mem_image.2 ⟨(d, o), ?_, rfl⟩),
    Finset.mem_union_right _ (Finset.mem_image.2 ⟨(d, o), ?_, rfl⟩)⟩
  · exact Finset.mem_filter.2 ⟨h, rfl, ho⟩
  · exact Finset.mem_filter.2 ⟨h, rfl, hd⟩

/-! ### The rounds end -/

/-- Every slotted word the function reads. -/
def allReads (p : Slots f) : Finset ValueId :=
  f.blocks.toFinset.biUnion fun b ↦
    ((body p b ++ [termAccess p b]).flatMap Access.reads).toFinset ∪
      (b.headPhis.flatMap fun i ↦ (phiArgs i).flatMap fun a ↦ p.read a.2).toFinset

/-- Between rounds: nothing but words that are read, and a walk only adds to a set. -/
structure Growing (p : Slots f) (L : LiveIn) : Prop where
  length_eq : L.length = f.blocks.length
  subset : ∀ i, L.at i ⊆ allReads p
  grows : ∀ i b, f.blocks[i]? = some b → L.at i ⊆ (walk p L b).1

theorem liveOut_mono (h : ∀ i, L.at i ⊆ L'.at i) : liveOut p L b ⊆ liveOut p L' b := by
  intro o ho
  obtain ⟨term, hterm, s, hs, c, hc, ho⟩ := mem_liveOut.1 ho
  exact mem_liveOut.2 ⟨term, hterm, s, hs, c, hc, ho.imp_left fun ho ↦ h s ho⟩

theorem walk_mono (h : ∀ i, L.at i ⊆ L'.at i) : (walk p L b).1 ⊆ (walk p L' b).1 :=
  Finset.sdiff_subset_sdiff (scan_mono (liveOut_mono h)) (Finset.Subset.refl _)

theorem liveOut_subset (h : ∀ i, L.at i ⊆ allReads p) : liveOut p L b ⊆ allReads p := by
  intro o ho
  obtain ⟨term, -, s, -, c, hc, ho | ho⟩ := mem_liveOut.1 ho
  · exact h s ho
  · obtain ⟨phi, hphi, ho⟩ := List.mem_flatMap.1 ho
    obtain ⟨a, ha, ho⟩ := List.mem_flatMap.1 ho
    refine Finset.mem_biUnion.2 ⟨c, List.mem_toFinset.2 (List.mem_of_getElem? hc),
      Finset.mem_union_right _ (List.mem_toFinset.2 ?_)⟩
    exact List.mem_flatMap.2 ⟨phi, hphi, List.mem_flatMap.2 ⟨a, (List.mem_filter.1 ha).1, ho⟩⟩

theorem walk_subset (hb : f.blocks[i]? = some b) (h : ∀ i, L.at i ⊆ allReads p) :
    (walk p L b).1 ⊆ allReads p := by
  refine Finset.sdiff_subset.trans (scan_subset (liveOut_subset h) fun a ha o ho ↦ ?_)
  refine Finset.mem_biUnion.2 ⟨b, List.mem_toFinset.2 (List.mem_of_getElem? hb),
    Finset.mem_union_left _ (List.mem_toFinset.2 ?_)⟩
  exact List.mem_flatMap.2 ⟨a, ha, ho⟩

theorem at_set {live : Finset ValueId} {j : ℕ} (hi : i < L.length) :
    LiveIn.at (L.set i live) j = if j = i then live else L.at j := by
  rw [LiveIn.at, List.getElem?_set]
  by_cases hij : i = j
  · rw [if_pos hij, if_pos hi, if_pos hij.symm, Option.getD_some]
  · rw [if_neg hij, if_neg (Ne.symm hij), LiveIn.at]

/-- What the sets may still grow by. -/
def room (p : Slots f) (L : LiveIn) : ℕ :=
  ∑ i ∈ Finset.range f.blocks.length, ((allReads p).card - (L.at i).card)

/-- One walk either changes nothing, or a set grows. -/
theorem Growing.visit (h : Growing p L) (changed : Bool) (i : ℕ) :
    visit p (L, changed) i = (L, changed) ∨
      ∃ L', visit p (L, changed) i = (L', true) ∧ Growing p L' ∧ room p L' < room p L := by
  rw [Interference.visit]
  cases hb : f.blocks[i]? with
  | none => exact Or.inl rfl
  | some b =>
    by_cases hlive : (walk p L b).1 = L.at i
    · exact Or.inl (if_neg (not_not.2 hlive))
    refine Or.inr ⟨L.set i (walk p L b).1, if_pos hlive, ?_⟩
    have hlt := (List.getElem?_eq_some_iff.1 hb).1
    have hi : i < L.length := h.length_eq ▸ hlt
    have hgrow := h.grows i b hb
    have hsub := walk_subset hb h.subset
    have hat : ∀ j, L.at j ⊆ LiveIn.at (L.set i (walk p L b).1) j := by
      intro j
      rw [at_set hi]
      split
      · rename_i hj
        exact hj ▸ hgrow
      · exact Finset.Subset.refl _
    refine ⟨⟨by rw [List.length_set, h.length_eq], fun j ↦ ?_, fun j c hc ↦ ?_⟩, ?_⟩
    · rw [at_set hi]
      split
      · exact hsub
      · exact h.subset j
    · refine Finset.Subset.trans ?_ (walk_mono hat)
      rw [at_set hi]
      split
      · rename_i hj
        subst hj
        rw [hb, Option.some.injEq] at hc
        exact hc ▸ Finset.Subset.refl _
      · exact h.grows j c hc
    · have hcard : (L.at i).card < (walk p L b).1.card :=
        Finset.card_lt_card (hgrow.ssubset_of_ne (Ne.symm hlive))
      have hmax := Finset.card_le_card hsub
      refine Finset.sum_lt_sum (fun j _ ↦ ?_) ⟨i, Finset.mem_range.2 hlt, ?_⟩
      · exact Nat.sub_le_sub_left (Finset.card_le_card (hat j)) _
      · rw [at_set hi, if_pos rfl]
        omega

theorem Growing.foldl_visit (h : Growing p L) (l : List ℕ) (changed : Bool) :
    Growing p (l.foldl (Interference.visit p) (L, changed)).1 ∧
      (l.foldl (Interference.visit p) (L, changed) = (L, changed) ∨
        room p (l.foldl (Interference.visit p) (L, changed)).1 < room p L) := by
  induction l generalizing L changed with
  | nil => exact ⟨h, Or.inl rfl⟩
  | cons i l ih =>
    rw [List.foldl_cons]
    rcases h.visit changed i with heq | ⟨L', heq, hL', hroom⟩
    · rw [heq]
      exact ih h changed
    · rw [heq]
      obtain ⟨hg, heq | hlt⟩ := ih hL' true
      · rw [heq]
        exact ⟨hL', Or.inr hroom⟩
      · exact ⟨hg, Or.inr (hlt.trans hroom)⟩

theorem growing_start (p : Slots f) : Growing p (List.replicate f.blocks.length ∅) where
  length_eq := List.length_replicate
  subset i := by
    rw [LiveIn.at, List.getElem?_replicate]
    split <;> exact Finset.empty_subset _
  grows i b _ := by
    rw [LiveIn.at, List.getElem?_replicate]
    split <;> exact Finset.empty_subset _

theorem liveness_terminates (p : Slots f) {fuel : ℕ}
    (h : room p (List.replicate f.blocks.length ∅) < fuel) : ∃ L, liveness p fuel = some L := by
  refine repeatUntil_terminates (I := Growing p) (fun L hL ↦ (hL.foldl_visit _ false).1) (room p) ?_
    (growing_start p) h
  intro L hL hchanged
  obtain ⟨-, heq | hlt⟩ := hL.foldl_visit (List.range f.blocks.length).reverse false
  · rw [round, heq] at hchanged
    cases hchanged
  · exact hlt

theorem visit_unchanged {s : LiveIn × Bool} (h : (visit p s i).2 = false) : visit p s i = s := by
  rw [visit] at h ⊢
  split
  · rfl
  · rename_i b hb
    rw [hb] at h
    by_cases hlive : (walk p s.1 b).1 = s.1.at i
    · exact if_neg (not_not.2 hlive)
    · dsimp only at h
      rw [if_pos hlive] at h
      cases h

/-- After the last round every walk gives back what it started from. -/
theorem stable_of_liveness {fuel : ℕ} (h : liveness p fuel = some L) : Stable p L := by
  obtain ⟨L', hL', hflag, rfl⟩ :=
    repeatUntil_spec (I := Growing p) (fun L hL ↦ (hL.foldl_visit _ false).1) (growing_start p) h
  obtain ⟨heq, hall⟩ := foldl_unchanged (fun _ _ ↦ visit_unchanged) hflag
  intro i b hb
  rw [heq]
  have hi := hall i (List.mem_reverse.2 (List.mem_range.2 (List.getElem?_eq_some_iff.1 hb).1))
  rw [visit, hb] at hi
  by_contra hne
  dsimp only at hi
  rw [if_pos hne] at hi
  exact Bool.noConfusion (congrArg Prod.snd hi)

/-! ### Soundness -/

/-- **Interference is sound and its loop ends**: two slotted values of which one is written on a path while
the other is read or written there or live after it are listed as adjacent, when no path reads a payload
after missing its match. -/
theorem interference_spec (f : Func) (p : Slots f) :
    ∃ n adj, (∀ fuel, n ≤ fuel → interference p fuel = some adj) ∧
      (PayloadsBound p → ∀ i t, Path p i t → ∀ d o, d ≠ o → p.slot d = true → p.slot o = true →
        Clash d o t → ∃ ad ao, adj[d]? = some ad ∧ adj[o]? = some ao ∧ o ∈ ad ∧ d ∈ ao) := by
  obtain ⟨L, hL⟩ := liveness_terminates p (Nat.lt_succ_self _)
  refine ⟨room p (List.replicate f.blocks.length ∅) + 1,
    (List.range f.types.length).map (neighbours f.types.length (edges p L)),
    fun fuel hfuel ↦ ?_, fun hpay i t hpath d o hne hd ho hclash ↦ ?_⟩
  · rw [interference, liveness, repeatUntil_mono hfuel hL, Option.map_some]
  · have hdn := p.slot_lt d hd
    have hon := p.slot_lt o ho
    have hedge := mem_edges_of_clash hpay (stable_of_liveness hL) ho hne.symm hpath hclash
    obtain ⟨h1, h2⟩ := mem_neighbours hdn hon hedge
    exact ⟨_, _, by simp [hdn], by simp [hon], h1, h2⟩

/-! ### A match -/

/-- Every value has a slot and is emitted where it stands. -/
def allSlots (f : Func) : Slots f where
  slot v := decide (v < f.types.length)
  read v := if v < f.types.length then [v] else []
  inlineDef _ := false
  slot_lt _ h := of_decide_eq_true h

/-- A function whose blocks carry their positions. -/
def funcOf (types : List MirTy) (blocks : List Block) (h : blocks.map Block.id = List.range blocks.length) :
    Func where
  types := types
  blocks := blocks
  id_eq i b hb := by
    have hid : (blocks.map Block.id)[i]? = some b.id := by rw [List.getElem?_map, hb, Option.map_some]
    rw [h, List.getElem?_range (List.getElem?_eq_some_iff.1 hb).1, Option.some.injEq] at hid
    exact hid.symm

/-- Value 0 is matched; its payload 1 is printed after the constant 2 is made. -/
def printsPayload : Func :=
  funcOf [.value, .value, .i64, .value, .value]
    [⟨0, [.op 0 (.call 9 none) []], some (.jumpIfMatch 0 1 [1] 1 2)⟩,
      ⟨1, [.const 2 (.i64 7), .op 3 .print [1], .op 4 .print [2]], some (.jump 2)⟩,
      ⟨2, [], some (.ret none none)⟩] rfl

/-- The call, the payload bound, no φ, the constant, the two prints, the jump. -/
def printsPayloadRun : List (Access ValueId) :=
  [⟨[], [0]⟩, ⟨[0], [1]⟩, ⟨[], []⟩, ⟨[], [2]⟩, ⟨[1], [3]⟩, ⟨[2], [4]⟩, ⟨[], []⟩]

theorem path_printsPayload : Path (allSlots printsPayload) 0 printsPayloadRun := by
  have hbody : Path (allSlots printsPayload) 1 [⟨[], [2]⟩, ⟨[1], [3]⟩, ⟨[2], [4]⟩, ⟨[], []⟩] := by
    have h := Path.last (p := allSlots printsPayload) (i := 1) rfl
    exact h
  have h := Path.step (i := 0) rfl rfl .hit rfl (fun i hi ↦ absurd hi List.not_mem_nil) hbody
  exact h

/-- After a miss the function returns. -/
theorem payloadsBound_printsPayload : PayloadsBound (allSlots printsPayload) := by
  intro i b s tag payloads taken notTaken c t hb hterm hc _ hpath v _ _ hlive
  have hi : i < 3 := (List.getElem?_eq_some_iff.1 hb).1
  interval_cases i
  · obtain rfl := Option.some.inj hb
    cases hterm
    obtain rfl := Option.some.inj hc
    cases hpath with
    | last hb => 
      obtain rfl := Option.some.inj hb
      rcases hlive with hlive | ⟨-, hlive | ⟨-, hlive⟩⟩
      · cases hlive
      · cases hlive
      · exact hlive
    | step hb hterm hexit => 
      obtain rfl := Option.some.inj hb
      cases hterm
      cases hexit
  · obtain rfl := Option.some.inj hb
    cases hterm
  · obtain rfl := Option.some.inj hb
    cases hterm

theorem clash_printsPayload : Clash 2 1 printsPayloadRun := by
  simp [Clash, Live, printsPayloadRun]

/-- The constant and the payload do not share a register. -/
theorem printsPayload_adjacent : ∃ n adj, (∀ fuel, n ≤ fuel →
    interference (allSlots printsPayload) fuel = some adj) ∧
      ∃ ad ao, adj[2]? = some ad ∧ adj[1]? = some ao ∧ 1 ∈ ad ∧ 2 ∈ ao := by
  obtain ⟨n, adj, hfuel, hadj⟩ := interference_spec printsPayload (allSlots printsPayload)
  exact ⟨n, adj, hfuel, hadj payloadsBound_printsPayload 0 _ path_printsPayload 2 1 (by decide)
    (by decide) (by decide) clash_printsPayload⟩

/-- Value 0 is matched in a loop. A hit makes and prints the constant 2; after a miss the payload 1 of the
last hit is returned. -/
def returnsMissed : Func :=
  funcOf [.value, .value, .i64, .value]
    [⟨0, [.op 0 (.call 9 none) []], some (.jumpIfMatch 0 1 [1] 1 2)⟩,
      ⟨1, [.const 2 (.i64 7), .op 3 .print [2]], some (.jump 0)⟩,
      ⟨2, [], some (.ret (some 1) none)⟩] rfl

/-- The body of the match: the constant 2 is written while the payload 1 is to be returned. -/
theorem path_returnsMissed : Path (allSlots returnsMissed) 0
    ([⟨[], [0]⟩, ⟨[0], [1]⟩, ⟨[], []⟩] ++ ⟨[], [2]⟩ ::
      [⟨[2], [3]⟩, ⟨[], []⟩, ⟨[], []⟩, ⟨[], [0]⟩, ⟨[0], []⟩, ⟨[], []⟩, ⟨[1], []⟩]) := by
  have hmiss : Path (allSlots returnsMissed) 2 [⟨[1], []⟩] := by
    have h := Path.last (p := allSlots returnsMissed) (i := 2) rfl
    exact h
  have hagain : Path (allSlots returnsMissed) 0 [⟨[], [0]⟩, ⟨[0], []⟩, ⟨[], []⟩, ⟨[1], []⟩] := by
    have h := Path.step (i := 0) rfl rfl .miss rfl (fun i hi ↦ absurd hi List.not_mem_nil) hmiss
    exact h
  have hhit : Path (allSlots returnsMissed) 1
      [⟨[], [2]⟩, ⟨[2], [3]⟩, ⟨[], []⟩, ⟨[], []⟩, ⟨[], [0]⟩, ⟨[0], []⟩, ⟨[], []⟩, ⟨[1], []⟩] := by
    have h := Path.step (i := 1) rfl rfl .jump rfl (fun i hi ↦ absurd hi List.not_mem_nil) hagain
    exact h
  have h := Path.step (i := 0) rfl rfl .hit rfl (fun i hi ↦ absurd hi List.not_mem_nil) hhit
  exact h

theorem interference_mono {f : Func} {p : Slots f} {n m : ℕ} {adj : List (Finset ValueId)} (hnm : n ≤ m)
    (h : interference p n = some adj) : interference p m = some adj := by
  rw [interference, Option.map_eq_some_iff] at h ⊢
  obtain ⟨L, hL, hadj⟩ := h
  exact ⟨L, repeatUntil_mono hnm hL, hadj⟩

/-- A payload that is read after a miss may share its register with what a hit writes. -/
theorem missedPayload_clobbered :
    ¬ ∀ (f : Func) (p : Slots f), ∃ n adj, (∀ fuel, n ≤ fuel → interference p fuel = some adj) ∧
      ∀ i pre a post, Path p i (pre ++ a :: post) → ∀ d o, d ≠ o → p.slot d = true → p.slot o = true →
        d ∈ a.writes → Live d post → Live o post → ∃ ad, adj[d]? = some ad ∧ o ∈ ad := by
  intro h
  obtain ⟨n, adj, hfuel, hadj⟩ := h returnsMissed (allSlots returnsMissed)
  obtain ⟨ad, had, hmem⟩ := hadj 0 _ _ _ path_returnsMissed 2 1 (by decide) (by decide) (by decide)
    List.mem_cons_self (by simp [Live]) (by simp [Live])
  have heval : interference (allSlots returnsMissed) 5 = some [{1}, {0}, {3}, {2}] := by decide +kernel
  have heq := (interference_mono (le_max_right n 5) heval).symm.trans (hfuel _ (le_max_left n 5))
  obtain rfl := Option.some.inj heq
  obtain rfl := Option.some.inj had
  exact absurd hmem (by decide)

end CoilLang.Mir.Interference
