import CoilLang.Lib.Idom

/-!
# The rounds of the intersecting algorithm

Each visit keeps the invariant and either changes nothing or brings a pointer nearer to the root
(`visitNode_spec`), so the rounds end (`idomRounds_spec`). Where a whole round changes nothing, each
pointer is where the ways up from the predecessors meet, and **the ways up are the dominators**
(`IdomInv.tree_of_meet`). `exists_idoms` is the result for a graph with a depth-first order of its nodes.
-/

namespace CoilLang

variable {α : Type*}

/-! ### A round -/

/-- How far the pointers still are from the root, over the nodes. -/
def idomWork (root : α) (num : α → ℕ) (V : Finset α) (up : α → Option α) : ℕ :=
  ∑ x ∈ V, (up x).elim (num root + 1) fun y ↦ num root - num y

section
variable [DecidableEq α] {root : α} {E : α → α → Prop} {preds : α → List α} {M : α → Prop}
  {num : α → ℕ} {tp : α → Option α} {up : α → Option α} {done : α → Prop} {b : α} {fuel : ℕ}
  {V : Finset α}

theorem idomWork_update (hn : Numbering root E preds M num tp) (hb : b ∈ V) {r : α} (hr : M r)
    (hold : ∀ h, up b = some h → M h ∧ num h ≤ num r) (hne : up b ≠ some r) :
    idomWork root num V (Function.update up b (some r)) < idomWork root num V up := by
  unfold idomWork
  refine Finset.sum_lt_sum (fun x _ ↦ ?_) ⟨b, hb, ?_⟩
  · by_cases hxb : x = b
    · subst hxb
      rw [Function.update_self]
      cases hx : up x with
      | none => exact (Nat.sub_le _ _).trans (Nat.le_succ _)
      | some h => exact Nat.sub_le_sub_left (hold h hx).2 _
    · rw [Function.update_of_ne hxb]
  · rw [Function.update_self]
    cases hx : up b with
    | none => exact Nat.lt_succ_of_le (Nat.sub_le _ _)
    | some h =>
      obtain ⟨hM, hle⟩ := hold h hx
      have hlt : num h < num r := lt_of_le_of_ne hle fun heq ↦ hne (by rw [hx, hn.inj hM hr heq])
      have := hn.le_root hr
      show num root - num r < num root - num h
      omega

/-- What one visit does: the invariant holds with the node visited, a change is progress, and
without one the node points to where its predecessors meet. -/
theorem visitNode_spec (hn : Numbering root E preds M num tp)
    (hi : IdomInv root E preds M num tp up done) (hfuel : 2 * num root < fuel) (hbM : M b)
    (hbV : b ∈ V) (hdone : ∀ x, done x ↔ M x ∧ num b < num x) (flag : Bool) :
    ∃ st, visitNode num preds root fuel (up, flag) b = some st ∧
      IdomInv root E preds M num tp st.1 (fun x ↦ done x ∨ x = b) ∧
      ((st.2 = true ∧ idomWork root num V st.1 < idomWork root num V up) ∨
        (st = (up, flag) ∧ (b ≠ root → meetAll num up fuel (preds b) none = some (up b)))) := by
  unfold visitNode
  split
  · rename_i hroot
    refine ⟨_, rfl, ?_, .inr ⟨rfl, fun h ↦ absurd hroot h⟩⟩
    refine { hi with assigned := ?_, near := ?_ }
    · rintro x (hx | rfl)
      · exact hi.assigned hx
      · exact ⟨root, hroot ▸ hi.up_root⟩
    · rintro x y p (hx | rfl) hxy hp
      · exact hi.near hx hxy hp
      · rw [hroot, hn.tp_root] at hp
        cases hp
  · rename_i hroot
    obtain ⟨m, hm, hps, -, hr⟩ := hi.meetAll_spec hn hfuel (preds b) none fun q hq ↦ (by cases hq)
    obtain ⟨p, hp⟩ := hn.exists_tp hbM hroot
    obtain ⟨hpM, hpb, hlt⟩ := hn.parent hbM hp
    obtain ⟨w, hw⟩ := hi.assigned ((hdone p).2 ⟨hpM, hlt⟩)
    obtain ⟨r, rfl, -⟩ := hps p hpb w hw
    obtain ⟨⟨z, hz⟩, hP⟩ := hr r rfl
    have hrM : M r := (hi.mem hz).1
    have hpreds : ∀ q ∈ preds b, (∃ z, up q = some z) → Anc up r q := by
      rintro q hq ⟨v, hv⟩
      obtain ⟨r', hr', hq'⟩ := hps q hq v hv
      obtain rfl := Option.some.inj hr'
      exact hq'
    -- it is the lowest place above all of them, and below all the dominators
    have hlow : ∀ d, (∀ q ∈ preds b, (∃ z, up q = some z) → Anc up d q) → Anc up d r := fun d hd ↦
      hP (Anc up d) d (fun _ h ↦ hi.num_le h) (fun _ _ h hne hxy ↦ h.of_ne (Ne.symm hne) hxy)
        (fun q hq ↦ (by cases hq)) fun q hq v hv ↦ hd q hq ⟨v, hv⟩
    have hdom : ∀ d, Dominates (· = root) E d b → d ≠ b → Dominates (· = root) E d r := fun d hd hne ↦ by
      refine (hP (fun x ↦ M x ∧ Dominates (· = root) E d x) d
        (fun x hx ↦ hn.num_le_of_dominates hx.1 hx.2) (fun x y hx hxd hxy ↦ ⟨(hi.mem hxy).2.1, ?_⟩)
        (fun q hq ↦ (by cases hq)) fun q hq v hv ↦
          ⟨(hi.mem hv).1, hd.pred hne ((hn.mem_preds hbM hroot q).1 hq)⟩).2
      by_cases hxr : x = root
      · obtain rfl : x = y := by
          rw [hxr] at hxy ⊢
          exact Option.some.inj (hi.up_root.symm.trans hxy)
        exact hx.2
      · exact hi.dom hxy hxr hx.2 (Ne.symm hxd)
    obtain ⟨hinv, hup⟩ := hi.update hn hbM hroot hdone ⟨z, hz⟩ hpreds hlow hdom
    rw [hm, Option.map_some]
    by_cases heq : up b = some r
    · rw [if_pos heq]
      rw [← heq, Function.update_eq_self] at hinv
      exact ⟨_, rfl, hinv, .inr ⟨rfl, fun _ ↦ by rw [heq]⟩⟩
    · rw [if_neg heq]
      exact ⟨_, rfl, hinv, .inl ⟨rfl, idomWork_update hn hbV hrM
        (fun h hh ↦ ⟨(hi.mem hh).2.1, hup h hh⟩) heq⟩⟩

end

/-! ### The rounds -/

/-- A list of nodes in which a depth-first walk from the root may leave them. -/
structure FlowOrder (root : α) (E : α → α → Prop) (preds : α → List α) (order : List α) : Prop where
  nodup : order.Nodup
  last : order.getLast? = some root
  mem_preds : ∀ {b}, b ∈ order → b ≠ root → ∀ p, p ∈ preds b ↔ E p b
  closed : ∀ {a b}, a ∈ order → E a b → b ∈ order
  parent : ∀ {b}, b ∈ order → b ≠ root → ∃ p ∈ preds b, [b, p].Sublist order

/-- The pointers to the immediate dominators: the ways up are the dominators. -/
structure IdomTree (root : α) (E : α → α → Prop) (num : α → ℕ) (M : α → Prop)
    (up : α → Option α) : Prop where
  up_root : up root = some root
  mem : ∀ {x y}, up x = some y → M x ∧ M y
  assigned : ∀ {x}, M x → ∃ y, up x = some y
  lt : ∀ {x y}, up x = some y → x ≠ root → num x < num y
  anc_iff : ∀ {x}, M x → ∀ d, Anc up d x ↔ Dominates (· = root) E d x

section
variable [DecidableEq α] {root : α} {E : α → α → Prop} {preds : α → List α} {order l l' : List α}
  {num : α → ℕ} {M : α → Prop} {tp up : α → Option α} {b x : α} {fuel : ℕ}

/-- What stands behind `b` in a list without duplicates. -/
theorem mem_behind_iff (hnd : (l ++ b :: l').Nodup) :
    x ∈ l' ↔ x ∈ l ++ b :: l' ∧ (l ++ b :: l').idxOf b < (l ++ b :: l').idxOf x := by
  obtain ⟨-, hnd', hdisj⟩ := List.nodup_append.1 hnd
  have hbl : b ∉ l := fun hb ↦ hdisj b hb b List.mem_cons_self rfl
  have hb : (l ++ b :: l').idxOf b = l.length := by
    rw [List.idxOf_append_of_notMem hbl, List.idxOf_cons_self, Nat.add_zero]
  rw [hb]
  constructor
  · intro hx
    have hxl : x ∉ l := fun h ↦ hdisj x h x (List.mem_cons_of_mem _ hx) rfl
    have hxb : b ≠ x := by
      rintro rfl
      exact (List.nodup_cons.1 hnd').1 hx
    refine ⟨List.mem_append_right _ (List.mem_cons_of_mem _ hx), ?_⟩
    rw [List.idxOf_append_of_notMem hxl, List.idxOf_cons_ne _ hxb]
    omega
  · rintro ⟨hx, hlt⟩
    rcases List.mem_append.1 hx with hxl | hx
    · rw [List.idxOf_append_of_mem hxl] at hlt
      exact absurd (List.idxOf_lt_length_of_mem hxl) (by omega)
    · rcases List.mem_cons.1 hx with rfl | hx
      · omega
      · exact hx

theorem idxOf_lt_of_sublist (hnd : order.Nodup) (h : [b, x].Sublist order) :
    x ∈ order ∧ order.idxOf b < order.idxOf x := by
  obtain ⟨r, r', rfl, hb, hx⟩ := List.cons_sublist_iff.1 h
  have hx : x ∈ r' := List.singleton_sublist.1 hx
  have hxr : x ∉ r := fun h ↦ (List.nodup_append.1 hnd).2.2 x h x hx rfl
  refine ⟨List.mem_append_right _ hx, ?_⟩
  rw [List.idxOf_append_of_mem hb, List.idxOf_append_of_notMem hxr]
  exact Nat.lt_of_lt_of_le (List.idxOf_lt_length_of_mem hb) (Nat.le_add_right _ _)

theorem FlowOrder.numbering (h : FlowOrder root E preds order) :
    ∃ tp, Numbering root E preds (· ∈ order) order.idxOf tp := by
  have hex : ∀ b, ∃ o : Option α, (o = none ∧ (b = root ∨ b ∉ order)) ∨
      ∃ p, o = some p ∧ b ≠ root ∧ p ∈ preds b ∧ [b, p].Sublist order := by
    intro b
    by_cases hb : b = root ∨ b ∉ order
    · exact ⟨none, .inl ⟨rfl, hb⟩⟩
    · obtain ⟨hne, hmem⟩ := not_or.1 hb
      obtain ⟨p, hp, hsub⟩ := h.parent (not_not.1 hmem) hne
      exact ⟨some p, .inr ⟨p, rfl, hne, hp, hsub⟩⟩
  choose tp htp using hex
  obtain ⟨pre, hpre⟩ := List.getLast?_eq_some_iff.1 h.last
  have hroot : root ∈ order := by simp [hpre]
  have hidx : order.idxOf root = pre.length := by
    have hnot : root ∉ pre := fun hm ↦ by
      have hnd := hpre ▸ h.nodup
      exact (List.nodup_append.1 hnd).2.2 root hm root List.mem_cons_self rfl
    rw [hpre, List.idxOf_append_of_notMem hnot, List.idxOf_cons_self, Nat.add_zero]
  refine ⟨tp, hroot, ?_, ?_, h.mem_preds, h.closed, ?_, ?_, ?_⟩
  · exact fun ha _ heq ↦ (List.idxOf_inj ha).1 heq
  · intro a ha
    have hlt := List.idxOf_lt_length_of_mem ha
    have hlen : order.length = pre.length + 1 := by simp [hpre]
    omega
  · rcases htp root with ⟨hnone, -⟩ | ⟨p, -, hne, -⟩
    · exact hnone
    · exact absurd rfl hne
  · intro b hb hne
    rcases htp b with ⟨-, hb' | hb'⟩ | ⟨p, hp, -⟩
    · exact absurd hb' hne
    · exact absurd hb hb'
    · exact ⟨p, hp⟩
  · intro b p _ hp
    rcases htp b with ⟨hnone, -⟩ | ⟨q, hq, -, hqb, hsub⟩
    · rw [hnone] at hp
      cases hp
    · obtain rfl := Option.some.inj (hq.symm.trans hp)
      obtain ⟨hmem, hlt⟩ := idxOf_lt_of_sublist h.nodup hsub
      exact ⟨hmem, hqb, hlt⟩

/-- The visits of a round from some place on. -/
theorem foldlM_visitNode (hn : Numbering root E preds (· ∈ order) order.idxOf tp)
    (hnd : order.Nodup) (hfuel : 2 * order.idxOf root < fuel) {pre : List α}
    (hpre : order.reverse = pre ++ l) (hi : IdomInv root E preds (· ∈ order) order.idxOf tp up (· ∈ pre))
    (flag : Bool) :
    ∃ st, l.foldlM (visitNode order.idxOf preds root fuel) (up, flag) = some st ∧
      IdomInv root E preds (· ∈ order) order.idxOf tp st.1 (· ∈ order) ∧
      ((st.2 = true ∧
          idomWork root order.idxOf order.toFinset st.1 < idomWork root order.idxOf order.toFinset up) ∨
        (st = (up, flag) ∧ ∀ b ∈ l, b ≠ root →
          meetAll order.idxOf up fuel (preds b) none = some (up b))) := by
  induction l generalizing pre up flag with
  | nil =>
    have hmem : ∀ x, x ∈ pre ↔ x ∈ order := fun x ↦ by
      rw [← @List.mem_reverse _ _ order, hpre, List.append_nil]
    have hfun : (fun x ↦ x ∈ pre) = fun x ↦ x ∈ order := funext fun x ↦ propext (hmem x)
    exact ⟨_, rfl, hfun ▸ hi, .inr ⟨rfl, by simp⟩⟩
  | cons b l ih =>
    have horder : order = l.reverse ++ b :: pre.reverse := by
      rw [← List.reverse_reverse order, hpre]
      simp
    have hbM : b ∈ order := by simp [horder]
    have hdone : ∀ x, x ∈ pre ↔ x ∈ order ∧ order.idxOf b < order.idxOf x := by
      intro x
      have h := mem_behind_iff (x := x) (horder ▸ hnd)
      rwa [List.mem_reverse, ← horder] at h
    obtain ⟨st, hst, hinv, hres⟩ :=
      visitNode_spec (V := order.toFinset) hn hi hfuel hbM (List.mem_toFinset.2 hbM) hdone flag
    have hfun : (fun x ↦ x ∈ pre ∨ x = b) = fun x ↦ x ∈ pre ++ [b] :=
      funext fun x ↦ by simp [List.mem_append]
    rw [hfun] at hinv
    obtain ⟨st', hst', hinv', hres'⟩ := ih (by rw [hpre]; simp) hinv st.2
    refine ⟨st', by rw [List.foldlM_cons, hst]; exact hst', hinv', ?_⟩
    rcases hres with ⟨hflag, hlt⟩ | ⟨rfl, hmeet⟩
    · rcases hres' with ⟨hflag', hlt'⟩ | ⟨rfl, -⟩
      · exact .inl ⟨hflag', hlt'.trans hlt⟩
      · exact .inl ⟨hflag, hlt⟩
    · rcases hres' with hlt' | ⟨hst'', hmeet'⟩
      · exact .inl hlt'
      · exact .inr ⟨hst'', List.forall_mem_cons.2 ⟨hmeet, hmeet'⟩⟩

/-- **Pointers that all meet are the immediate dominators.** -/
theorem IdomInv.tree_of_meet (hn : Numbering root E preds M num tp)
    (hi : IdomInv root E preds M num tp up M) (hfuel : 2 * num root < fuel)
    (hmeet : ∀ b, M b → b ≠ root → meetAll num up fuel (preds b) none = some (up b)) :
    IdomTree root E num M up := by
  refine ⟨hi.up_root, fun h ↦ ⟨(hi.mem h).1, (hi.mem h).2.1⟩, hi.assigned, hi.lt, fun {x} hx d ↦ ⟨?_, ?_⟩⟩
  · -- on every walk the ways up from its nodes are on the walk
    intro hd h hw
    induction hw generalizing d with
    | start ha =>
      rw [ha] at hd ⊢
      exact List.mem_singleton.2 (hi.eq_root_of_anc hd)
    | step hw he ih =>
      rename_i a b h
      have haM : M a := hn.mem_of_walk hw
      by_cases hroot : b = root
      · rw [hroot] at hd ⊢
        rw [hi.eq_root_of_anc hd]
        exact List.mem_cons_self
      · by_cases hdb : d = b
        · exact hdb ▸ List.mem_cons_self
        · obtain ⟨m, hm, hps, -⟩ := hi.meetAll_spec hn hfuel (preds b) none fun q hq ↦ (by cases hq)
          rw [hmeet b hx hroot] at hm
          obtain ⟨z, hz⟩ := hi.assigned haM
          obtain ⟨r, hr, hra⟩ := hps a ((hn.mem_preds hx hroot a).2 he) z hz
          have hbr : up b = some r := (Option.some.inj hm).trans hr
          exact List.mem_cons_of_mem _ (ih haM d ((hd.of_ne hdb hbr).trans hra))
  · intro hd
    induction hk : num root - num x using Nat.strong_induction_on generalizing x with
    | _ k ih =>
      by_cases hdx : d = x
      · exact hdx ▸ .refl d
      · have hroot : x ≠ root := by
          rintro rfl
          exact hdx (List.mem_singleton.1 (hd _ (.start rfl)))
        obtain ⟨y, hy⟩ := hi.assigned hx
        have hlt := hi.lt hy hroot
        have hle := hn.le_root (hi.mem hy).2.1
        exact .up hy (ih _ (by omega) (hi.mem hy).2.1 (hi.dom hy hroot hd hdx) rfl)

/-- The rounds end when the pointers are the immediate dominators. -/
theorem idomRounds_spec (hn : Numbering root E preds (· ∈ order) order.idxOf tp) (hnd : order.Nodup)
    (hfuel : 2 * order.idxOf root < fuel) {n : ℕ}
    (hi : IdomInv root E preds (· ∈ order) order.idxOf tp up fun _ ↦ False)
    (hwork : idomWork root order.idxOf order.toFinset up < n) :
    ∃ r, idomRounds preds root order fuel n up = some r ∧
      IdomTree root E order.idxOf (· ∈ order) r := by
  induction n generalizing up with
  | zero => omega
  | succ n ih =>
    have hfun : (fun _ : α ↦ False) = fun x ↦ x ∈ ([] : List α) := funext fun x ↦ by simp
    have hpre : order.reverse = [] ++ order.reverse := rfl
    obtain ⟨st, hst, hinv, hres⟩ := foldlM_visitNode hn hnd hfuel hpre (hfun ▸ hi) false
    have hround : idomRound preds root order fuel up = some st := hst
    rw [idomRounds, hround, Option.bind_some]
    rcases hres with ⟨hflag, hlt⟩ | ⟨rfl, hmeet⟩
    · rw [if_pos hflag]
      exact ih hinv.newRound (by omega)
    · refine ⟨up, rfl, hinv.tree_of_meet hn hfuel fun b hb hroot ↦ ?_⟩
      exact hmeet b (List.mem_reverse.2 hb) hroot

omit [DecidableEq α] in
theorem IdomTree.num_lt (h : IdomTree root E num M up) {d : α} (hd : Anc up d x) (hne : d ≠ x) :
    num x < num d := by
  have hroot : x ≠ root := by
    rintro rfl
    refine hne (hd.preserves (P := (· = x)) (fun y z hy hyz ↦ ?_) rfl)
    rw [hy] at hyz
    exact Option.some.inj (hyz.symm.trans h.up_root)
  obtain ⟨c, hc⟩ := hd.exists_up hne
  refine lt_of_lt_of_le (h.lt hc hroot) ((hd.of_ne hne hc).num_le fun {y z} hyz ↦ ?_)
  by_cases hy : y = root
  · rw [hy, Option.some.inj (h.up_root.symm.trans (hy ▸ hyz))]
  · exact le_of_lt (h.lt hyz hy)

omit [DecidableEq α] in
/-- There is one tree of immediate dominators. -/
theorem IdomTree.unique {up' : α → Option α} (h : IdomTree root E num M up)
    (h' : IdomTree root E num M up') : up = up' := by
  -- either pointer dominates, so it is on the other way up
  have hle : ∀ {up up' : α → Option α}, IdomTree root E num M up → IdomTree root E num M up' →
      ∀ {x y y'}, x ≠ root → up x = some y → up' x = some y' → Anc up' y y' := by
    intro up up' h h' x y y' hroot hy hy'
    have hlt := h.lt hy hroot
    have hdom := (h.anc_iff (h.mem hy).1 y).1 (.up hy (.refl y))
    refine ((h'.anc_iff (h.mem hy).1 y).2 hdom).of_ne ?_ hy'
    rintro rfl
    omega
  funext x
  by_cases hx : M x
  · by_cases hroot : x = root
    · rw [hroot, h.up_root, h'.up_root]
    · obtain ⟨y, hy⟩ := h.assigned hx
      obtain ⟨y', hy'⟩ := h'.assigned hx
      rw [hy, hy']
      by_contra hne
      have hne' : y ≠ y' := fun heq ↦ hne (congrArg some heq)
      have hlt := h'.num_lt (hle h h' hroot hy hy') hne'
      have hlt' := h.num_lt (hle h' h hroot hy' hy) hne'.symm
      omega
  · rcases hu : up x with _ | y
    · rcases hu' : up' x with _ | y'
      · rfl
      · exact absurd (h'.mem hu').1 hx
    · exact absurd (h.mem hu).1 hx

theorem idomInv_start (hn : Numbering root E preds M num tp) :
    IdomInv root E preds M num tp (Function.update (fun _ ↦ none) root (some root)) fun _ ↦ False := by
  have hup : ∀ {x y}, Function.update (fun _ ↦ none) root (some root) x = some y →
      x = root ∧ y = root := by
    intro x y h
    by_cases hx : x = root
    · rw [hx, Function.update_self] at h
      exact ⟨hx, (Option.some.inj h).symm⟩
    · rw [Function.update_of_ne hx] at h
      cases h
  have hroot : Function.update (fun _ ↦ none) root (some root) root = some root :=
    Function.update_self ..
  refine ⟨hroot, fun h ↦ ?_, fun h hne ↦ absurd (hup h).1 hne, fun h ↦ ?_, fun h ↦ h.elim,
    fun h ↦ h.elim, fun h hne ↦ absurd (hup h).1 hne, fun h hne ↦ absurd (hup h).1 hne⟩
  · obtain ⟨rfl, rfl⟩ := hup h
    exact ⟨hn.root_mem, hn.root_mem, _, hroot⟩
  · obtain ⟨rfl, rfl⟩ := hup h
    exact .refl _

/-- **Intersecting finds the immediate dominators** of every graph. -/
theorem exists_idoms (h : FlowOrder root E preds order) :
    ∃ up N, IdomTree root E order.idxOf (· ∈ order) up ∧
      ∀ fuel, N ≤ fuel → idoms preds root order fuel = some up := by
  obtain ⟨tp, hn⟩ := h.numbering
  have hrun : ∀ fuel, 2 * order.idxOf root < fuel →
      idomWork root order.idxOf order.toFinset (Function.update (fun _ ↦ none) root (some root)) < fuel →
      ∃ r, idoms preds root order fuel = some r ∧ IdomTree root E order.idxOf (· ∈ order) r :=
    fun fuel hfuel hwork ↦ idomRounds_spec hn h.nodup hfuel (idomInv_start hn) hwork
  generalize idomWork root order.idxOf order.toFinset _ = w at hrun
  obtain ⟨up, -, htree⟩ := hrun (2 * order.idxOf root + w + 1) (by omega) (by omega)
  refine ⟨up, 2 * order.idxOf root + w + 1, htree, fun fuel hfuel ↦ ?_⟩
  obtain ⟨r, hr, htree'⟩ := hrun fuel (by omega) (by omega)
  rw [hr, htree'.unique htree]

end

end CoilLang
