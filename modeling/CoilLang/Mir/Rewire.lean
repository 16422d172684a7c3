import CoilLang.Mir.Prune
import CoilLang.Mir.TidySound
import CoilLang.Mir.Verify
import CoilLang.Mir.VerifyDominance

/-!
# Rewiring the blocks

Threading jumps changes terminators and the incomings of φs, and may leave instructions out (`rewire`). The
new edges are **shortcuts**: each was an edge, or led through a block that is skipped now. So a walk of the new
graph is one of the old graph with skipped blocks left out, and a value keeps dominating its uses unless it is
**lost**: its definition is left out or is in a skipped block.

`AcceptedIn` is what the checks of a function come to: well formed, ordered, typed, with dominated uses.
`AcceptedIn.rewire` says **when rewiring keeps a function accepted**: no lost value is used, the incomings of
each φ are again the edges into its block, counted for each predecessor, and the new incomings and terminators
read values that are there.
-/

namespace CoilLang.Mir

/-- Leave instructions out, rewrite the others by `h`, and the terminators by `t`, block by block. -/
def MirFunc.rewire (f : MirFunc) (keep : BlockId → MirInst → Bool) (h : BlockId → MirInst → MirInst)
    (t : BlockId → Option Terminator → Option Terminator) : MirFunc :=
  { f with blocks := f.blocks.map fun b ↦
      ⟨b.id, (b.insts.filter (keep b.id)).map (h b.id), t b.id b.term⟩ }

/-- The definition of a value is left out, or in a skipped block. -/
def MirFunc.Lost (f : MirFunc) (keep : BlockId → MirInst → Bool) (skip : BlockId → Prop) (v : ValueId) :
    Prop :=
  ∃ x blk i, f.block? x = some blk ∧ i ∈ blk.insts ∧ v ∈ i.dests ∧ (keep x i = false ∨ skip x)

/-- What `verify` and `verify_dominance` accept, for runs from the roots `R`. -/
structure AcceptedIn (R : BlockId → Prop) (f : MirFunc) : Prop where
  wf : WellFormed f
  ordered : f.Ordered
  params : f.verifyParams f.params = .ok ()
  terms : ∀ b ∈ f.blocks, b.term.forM f.verifyTerm = .ok ()
  dom : f.UsesDominatedIn R

/-- For runs from the entry. -/
abbrev Accepted (f : MirFunc) : Prop := AcceptedIn (· = f.entry) f

variable {f g : MirFunc} {keep : BlockId → MirInst → Bool} {h : BlockId → MirInst → MirInst}
  {t : BlockId → Option Terminator → Option Terminator} {b p q x : BlockId} {blk : MirBlock} {v : ValueId}
  {skip R R' : BlockId → Prop} {pre : List MirInst}

theorem AcceptedIn.verify (hf : AcceptedIn R f) : f.verify = .ok () :=
  MirFunc.verify_of hf.wf hf.ordered hf.params hf.terms

/-- A verified function is accepted, for the roots that dominance is checked from. -/
theorem AcceptedIn.of_verify {fuel : ℕ} (hv : f.verify = .ok ())
    (hd : f.verifyDominance fuel = some (.ok ())) : AcceptedIn f.DomRoot f := by
  have hwf := MirFunc.wellFormed_of_verify hv
  have hdom := usesDominatedIn_of_verifyDominance hwf hd
  exact ⟨hwf, MirFunc.ordered_of_verify hv (hdom.dominated (.inl rfl)), MirFunc.verifyParams_of_verify hv,
    MirFunc.verifyTerm_of_verify hv, hdom⟩

theorem AcceptedIn.mono (hf : AcceptedIn R' f) (hR : ∀ a, R a → R' a) : AcceptedIn R f :=
  ⟨hf.wf, hf.ordered, hf.params, hf.terms,
    fun hb hsplit hphi o ho ↦ (hf.dom.inst hb hsplit hphi o ho).mono hR,
    fun hb hi a ha ↦ (hf.dom.phi hb hi a ha).mono hR, fun hb ht o ho ↦ (hf.dom.term hb ht o ho).mono hR⟩

theorem Accepted.dominated (hf : Accepted f) : f.Dominated := hf.dom.dominated rfl

/-! ### Edges and incomings -/

theorem edge_iff {a : BlockId} : f.Edge a b ↔ b ∈ f.succsOf a := by
  unfold MirFunc.Edge MirFunc.succsOf
  cases f.block? a with
  | none => simp
  | some blk => simp

/-- A φ has as many incomings from a block as there are edges. -/
theorem WellFormed.count_args (hf : WellFormed f) (hb : f.block? b = some blk) {d : ValueId} {ty : MirTy}
    {args : List (BlockId × ValueId)} (hi : MirInst.phi d ty args ∈ blk.insts) (p : BlockId) :
    (args.map Prod.fst).count p = (f.succsOf p).count b := by
  have hperm := (hf.phi (List.mem_of_getElem? hb) hi).2.1
  have hid : blk.id = b := hf.id hb
  rw [hperm.count_eq, hid, count_preds fun hc ↦ hf.id hc]

/-- A φ has an incoming for each edge. -/
theorem WellFormed.exists_incoming (hf : WellFormed f) (hb : f.block? b = some blk) {d : ValueId} {ty : MirTy}
    {args : List (BlockId × ValueId)} (hi : MirInst.phi d ty args ∈ blk.insts) {p : BlockId}
    (he : f.Edge p b) :
    ∃ a, args.find? (·.1 = p) = some a := by
  have hmem : p ∈ args.map Prod.fst := by
    rw [← List.count_pos_iff, hf.count_args hb hi, List.count_pos_iff]
    exact edge_iff.1 he
  obtain ⟨a, ha, rfl⟩ := List.mem_map.1 hmem
  exact Option.isSome_iff_exists.1 (List.find?_isSome.2 ⟨a, ha, by simp⟩)

theorem WellFormed.tidied (hf : WellFormed f) : Tidied f := by
  refine ⟨fun hb ↦ hf.id hb, fun {c d ty args} hi a ha ↦ ?_⟩
  cases hc : f.block? c with
  | none => simp [MirFunc.phisOf, hc] at hi
  | some blk =>
    rw [MirFunc.phisOf_eq hc] at hi
    have hcount := hf.count_args hc (List.mem_filter.1 hi).1 a.1
    have hmem : a.1 ∈ args.map Prod.fst := List.mem_map_of_mem ha
    exact List.count_pos_iff.1 (hcount ▸ List.count_pos_iff.2 hmem)

/-! ### The blocks -/

theorem PhiMap.dests {k : MirInst → MirInst} (hk : PhiMap k) (i : MirInst) : (k i).dests = i.dests := by
  have hphi := hk.isPhi i
  cases hi : i.isPhi with
  | false => rw [hk.other i hi]
  | true =>
    rw [hi] at hphi
    have hhi : ∀ {j : MirInst}, j.isPhi = true → j.hi = none := fun {j} hj ↦ by
      cases j with
      | phi => rfl
      | _ => cases hj
    rw [MirInst.dests, MirInst.dests, hk.dest, hhi hphi, hhi hi]

theorem PhiMap.flatMap_dests {k : MirInst → MirInst} (hk : PhiMap k) (is : List MirInst) :
    (is.map k).flatMap MirInst.dests = is.flatMap MirInst.dests := by
  rw [List.flatMap_map]
  exact List.flatMap_congr fun i _ ↦ hk.dests i

theorem block?_rewire (hid : ∀ {i : BlockId} {b : MirBlock}, f.block? i = some b → b.id = i) (x : BlockId) :
    (f.rewire keep h t).block? x =
      (f.block? x).map fun q ↦ ⟨q.id, (q.insts.filter (keep x)).map (h x), t x q.term⟩ := by
  have hmap : (f.rewire keep h t).block? x = (f.block? x).map fun b ↦
      ⟨b.id, (b.insts.filter (keep b.id)).map (h b.id), t b.id b.term⟩ := List.getElem?_map
  rw [hmap]
  cases hx : f.block? x with
  | none => rfl
  | some q => rw [Option.map_some, Option.map_some, hid hx]

/-- A function is a rewiring when its blocks are. -/
theorem eq_rewire (hid : ∀ {i : BlockId} {b : MirBlock}, f.block? i = some b → b.id = i)
    (hg : g = { f with blocks := g.blocks })
    (hblock : ∀ x, g.block? x =
      (f.block? x).map fun q ↦ ⟨q.id, (q.insts.filter (keep x)).map (h x), t x q.term⟩) :
    g = f.rewire keep h t := by
  rw [hg, MirFunc.rewire, MirFunc.mk.injEq]
  refine ⟨rfl, rfl, rfl, rfl, rfl, List.ext_getElem? fun x ↦ ?_, rfl⟩
  exact (hblock x).trans (block?_rewire hid x).symm

theorem defs_rewire_subset (hh : ∀ x, PhiMap (h x)) : (f.rewire keep h t).defs.Sublist f.defs := by
  rw [MirFunc.defs, MirFunc.rewire, List.flatMap_map, MirFunc.defs]
  refine List.Sublist.flatMap_right _ fun b _ ↦ ?_
  rw [(hh b.id).flatMap_dests]
  exact List.filter_sublist.flatMap _

/-! ### Values that are there -/

section
variable (hh : ∀ x, PhiMap (h x)) (hid : ∀ {i : BlockId} {b : MirBlock}, f.block? i = some b → b.id = i)
  (hroot : ∀ a, R' a → ∃ l, Walk R f.Edge a l ∧ ∀ x ∈ l, x = a ∨ skip x)
  (hedge : ∀ a b, (f.rewire keep h t).Edge a b → f.Edge a b ∨ ∃ s, skip s ∧ f.Edge a s ∧ f.Edge s b)

include hedge in
theorem reached_of_rewire (hb : (f.rewire keep h t).Reached b) : f.Reached b := by
  obtain ⟨l, hw⟩ := hb
  obtain ⟨l', hw', -⟩ := hw.lift (E := f.Edge)
    (fun a ha ↦ ⟨[a], .start ha, fun _ hx ↦ .inl (List.mem_singleton.1 hx)⟩) hedge
  exact ⟨l', hw'⟩

/-- What instructions define that are kept. -/
theorem mem_dests_rewire (hh : ∀ x, PhiMap (h x)) (hv : ¬f.Lost keep skip v) (hb : f.block? b = some blk)
    (hpre : ∀ i ∈ pre, i ∈ blk.insts) (hvp : v ∈ pre.flatMap MirInst.dests) :
    v ∈ ((pre.filter (keep b)).map (h b)).flatMap MirInst.dests := by
  rw [(hh b).flatMap_dests]
  obtain ⟨i, hi, hvi⟩ := List.mem_flatMap.1 hvp
  refine List.mem_flatMap.2 ⟨i, List.mem_filter.2 ⟨hi, ?_⟩, hvi⟩
  by_contra hk
  exact hv ⟨b, blk, i, hb, hpre i hi, hvi, .inl (by simpa using hk)⟩

include hh hid hroot hedge

/-- A definition in another block that dominates. -/
theorem exists_dom_rewire (hv : ¬f.Lost keep skip v) (hdom : Dominates R f.Edge q b)
    (hq : f.block? q = some blk) (hvq : v ∈ blk.defs) :
    ∃ blk', Dominates R' (f.rewire keep h t).Edge q b ∧
      (f.rewire keep h t).block? q = some blk' ∧ v ∈ blk'.defs := by
  have hnot : ¬skip q := fun hs ↦ by
    obtain ⟨i, hi, hvi⟩ := List.mem_flatMap.1 hvq
    exact hv ⟨q, blk, i, hq, hi, hvi, .inr hs⟩
  refine ⟨_, hdom.of_lift hnot hroot hedge, by rw [block?_rewire hid, hq]; rfl, ?_⟩
  exact mem_dests_rewire hh hv hq (fun _ hi ↦ hi) hvq

theorem avail_rewire (hv : ¬f.Lost keep skip v) (hb : f.block? b = some blk) (hpre : ∀ i ∈ pre, i ∈ blk.insts)
    (hav : f.AvailIn R b pre v) :
    (f.rewire keep h t).AvailIn R' b ((pre.filter (keep b)).map (h b)) v := by
  rcases hav with hvd | hvp | ⟨q, c, hqb, hdom, hq, hvq⟩
  · exact .inl fun hd ↦ hvd ((defs_rewire_subset hh).subset hd)
  · exact .inr (.inl (mem_dests_rewire hh hv hb hpre hvp))
  · obtain ⟨c', hdom', hq', hvq'⟩ := exists_dom_rewire hh hid hroot hedge hv hdom hq hvq
    exact .inr (.inr ⟨q, c', hqb, hdom', hq', hvq'⟩)

theorem availEnd_rewire (hv : ¬f.Lost keep skip v) (hav : f.AvailEndIn R b v) :
    (f.rewire keep h t).AvailEndIn R' b v := by
  rcases hav with hvd | ⟨q, c, hdom, hq, hvq⟩
  · exact .inl fun hd ↦ hvd ((defs_rewire_subset hh).subset hd)
  · obtain ⟨c', hdom', hq', hvq'⟩ := exists_dom_rewire hh hid hroot hedge hv hdom hq hvq
    exact .inr ⟨q, c', hdom', hq', hvq'⟩

end

/-! ### The order of the definitions -/

/-- An instruction of the result and the one it comes from, with what is defined before each. -/
theorem exists_of_insts_rewire (skip : BlockId → Prop)
    (hid : ∀ {i : BlockId} {b : MirBlock}, f.block? i = some b → b.id = i) (hh : ∀ x, PhiMap (h x))
    {pre' post' : List MirInst} {i' : MirInst}
    (hsplit : (f.rewire keep h t).insts = pre' ++ i' :: post') :
    ∃ x blk pre i post, f.block? x = some blk ∧ i ∈ blk.insts ∧ keep x i = true ∧ h x i = i' ∧
      f.insts = pre ++ i :: post ∧ (∀ v ∈ pre'.flatMap MirInst.dests, v ∈ pre.flatMap MirInst.dests) ∧
      ∀ v, ¬f.Lost keep skip v → v ∈ pre.flatMap MirInst.dests → v ∈ pre'.flatMap MirInst.dests := by
  rw [MirFunc.insts, MirFunc.rewire, List.flatMap_map] at hsplit
  obtain ⟨l₁, blk, l₂, u, w, hblocks, hblk, rfl⟩ := exists_of_flatMap_eq hsplit
  obtain ⟨pre, i, post, hinsts, hki, rfl, rfl⟩ := map_filter_split hblk
  have hmem : ∀ {c}, c ∈ f.blocks → f.block? c.id = some c := fun {c} hc ↦ by
    obtain ⟨k, hk⟩ := List.mem_iff_getElem?.1 hc
    rw [hid hk]
    exact hk
  have hb := hmem (hblocks ▸ List.mem_append_right l₁ List.mem_cons_self : blk ∈ f.blocks)
  have hpre : ∀ j ∈ pre, j ∈ blk.insts := fun j hj ↦ by simp [hinsts, hj]
  refine ⟨blk.id, blk, l₁.flatMap MirBlock.insts ++ pre, i, post ++ l₂.flatMap MirBlock.insts, hb,
    by simp [hinsts], hki, rfl, ?_, fun v hv ↦ ?_, fun v hv hvp ↦ ?_⟩
  · rw [MirFunc.insts, hblocks, List.flatMap_append, List.flatMap_cons, hinsts]
    simp
  · rw [List.flatMap_append, List.mem_append, (hh blk.id).flatMap_dests] at hv
    rw [List.flatMap_append, List.mem_append]
    rcases hv with hv | hv
    · obtain ⟨j, hj, hvj⟩ := List.mem_flatMap.1 hv
      obtain ⟨c, hc, hj⟩ := List.mem_flatMap.1 hj
      obtain ⟨k, hk, rfl⟩ := List.mem_map.1 hj
      rw [(hh c.id).dests] at hvj
      exact .inl (List.mem_flatMap.2
        ⟨k, List.mem_flatMap.2 ⟨c, hc, (List.mem_filter.1 hk).1⟩, hvj⟩)
    · exact .inr ((List.filter_sublist.flatMap _).subset hv)
  · rw [List.flatMap_append, List.mem_append] at hvp ⊢
    rcases hvp with hvp | hvp
    · obtain ⟨j, hj, hvj⟩ := List.mem_flatMap.1 hvp
      obtain ⟨c, hc, hj⟩ := List.mem_flatMap.1 hj
      have hc' := hmem (hblocks ▸ List.mem_append_left _ hc : c ∈ f.blocks)
      have hvc := mem_dests_rewire hh hv hc' (fun _ hi ↦ hi) (List.mem_flatMap.2 ⟨j, hj, hvj⟩)
      obtain ⟨k, hk, hvk⟩ := List.mem_flatMap.1 hvc
      exact .inl (List.mem_flatMap.2 ⟨k, List.mem_flatMap.2 ⟨c, hc, hk⟩, hvk⟩)
    · exact .inr (mem_dests_rewire hh hv hb hpre hvp)

/-! ### What rewiring keeps -/

/-- φs stay first. -/
theorem phisFirst_rewire {k : MirInst → MirInst} (hk : PhiMap k) (c : MirInst → Bool) {is : List MirInst}
    (his : is = is.filter MirInst.isPhi ++ is.filter fun i ↦ !i.isPhi) :
    (is.filter c).map k = ((is.filter c).map k).filter MirInst.isPhi ++
      ((is.filter c).map k).filter fun i ↦ !i.isPhi := by
  have hbody : ((is.filter c).filter fun i ↦ !i.isPhi).map k = (is.filter c).filter fun i ↦ !i.isPhi :=
    (List.map_congr_left fun i hi ↦ hk.other i (by simpa using (List.mem_filter.1 hi).2)).trans
      (List.map_id _)
  have hfilter : is.filter c =
      (is.filter c).filter MirInst.isPhi ++ (is.filter c).filter fun i ↦ !i.isPhi := by
    have := congrArg (List.filter c) his
    rwa [List.filter_append, List.filter_comm c, List.filter_comm c] at this
  rw [hk.filter_phi, hk.filter_not_phi, ← hbody, ← List.map_append, ← hfilter]

/-- **When rewiring keeps a function accepted.** -/
theorem AcceptedIn.rewire (skip : BlockId → Prop) (hf : AcceptedIn R f) (hh : ∀ x, PhiMap (h x))
    (hroot : ∀ a, R' a → ∃ l, Walk R f.Edge a l ∧ ∀ x ∈ l, x = a ∨ skip x)
    (hedge : ∀ a b, (f.rewire keep h t).Edge a b → f.Edge a b ∨ ∃ s, skip s ∧ f.Edge a s ∧ f.Edge s b)
    (hused : ∀ {x blk i}, f.block? x = some blk → i ∈ blk.insts → keep x i = true → i.isPhi = false →
      ∀ o ∈ i.operands, ¬f.Lost keep skip o)
    (hphi : ∀ {x blk d ty args}, f.block? x = some blk → MirInst.phi d ty args ∈ blk.insts →
      keep x (.phi d ty args) = true → ∃ args', h x (.phi d ty args) = .phi d ty args' ∧
        (∀ p, (args'.map Prod.fst).count p = ((f.rewire keep h t).succsOf p).count x) ∧
        ∀ a ∈ args', f.ty a.2 = ty ∧ (f.rewire keep h t).AvailEndIn R' a.1 a.2)
    (hterm : ∀ {x blk}, f.block? x = some blk → ∃ t', t x blk.term = some t' ∧ f.verifyTerm t' = .ok () ∧
      (∀ s ∈ t'.succs, s < f.blocks.length) ∧ ∀ o ∈ t'.operands, (f.rewire keep h t).AvailEndIn R' x o) :
    AcceptedIn R' (f.rewire keep h t) := by
  have hid : ∀ {i : BlockId} {b : MirBlock}, f.block? i = some b → b.id = i := fun hb ↦ hf.wf.id hb
  have hblock : ∀ {x blk'}, (f.rewire keep h t).block? x = some blk' → ∃ blk, f.block? x = some blk ∧
      ⟨blk.id, (blk.insts.filter (keep x)).map (h x), t x blk.term⟩ = blk' := fun {x blk'} hb ↦ by
    rw [block?_rewire hid] at hb
    exact Option.map_eq_some_iff.1 hb
  have hmem : ∀ {blk'}, blk' ∈ (f.rewire keep h t).blocks → ∃ x blk, f.block? x = some blk ∧
      ⟨blk.id, (blk.insts.filter (keep x)).map (h x), t x blk.term⟩ = blk' := fun hb ↦ by
    obtain ⟨x, hx⟩ := List.mem_iff_getElem?.1 hb
    exact ⟨x, hblock hx⟩
  have hid' : ∀ {i : ℕ} {b : MirBlock}, (f.rewire keep h t).blocks[i]? = some b → b.id = i := fun hb ↦ by
    obtain ⟨blk, hblk, rfl⟩ := hblock hb
    exact (hid hblk : blk.id = _)
  have hlen : (f.rewire keep h t).blocks.length = f.blocks.length := List.length_map _
  have htype : ∀ v, (f.rewire keep h t).ty v = f.ty v := fun _ ↦ rfl
  have hwf : WellFormed (f.rewire keep h t) := by
    refine ⟨hlen ▸ hf.wf.entry, hid', fun c hc ↦ ?_, fun c hc ↦ ?_,
      hf.wf.defsNodup.sublist (defs_rewire_subset hh),
      fun d hd ↦ hf.wf.defsLt d ((defs_rewire_subset hh).subset hd),
      fun c hc i hi ↦ ?_, fun c hc s hs ↦ ?_⟩
    · obtain ⟨x, blk, hb, rfl⟩ := hmem hc
      obtain ⟨t', ht', -⟩ := hterm hb
      exact ⟨t', ht'⟩
    · obtain ⟨x, blk, hb, rfl⟩ := hmem hc
      exact phisFirst_rewire (hh x) (keep x) (hf.wf.insts blk (List.mem_of_getElem? hb))
    · obtain ⟨x, blk, hb, rfl⟩ := hmem hc
      obtain ⟨j, hj, rfl⟩ := List.mem_map.1 hi
      obtain ⟨hj, hk⟩ := List.mem_filter.1 hj
      have hcheck := hf.wf.checked blk (List.mem_of_getElem? hb) j hj
      rw [hid hb] at hcheck ⊢
      refine checkInst_withBlocks.trans ?_
      cases j with
      | phi d ty args =>
        obtain ⟨args', hargs, hcount, hargs'⟩ := hphi hb hj hk
        rw [hargs]
        obtain ⟨hty, hspec, -⟩ := checkPhi_eq_ok.1 hcheck
        refine checkPhi_eq_ok.2 ⟨hty, hspec, List.perm_iff_count.2 fun p ↦ ?_, fun a ha ↦ (hargs' a ha).1⟩
        rw [hcount, count_preds hid']
      | _ =>
        rw [(hh x).other _ rfl]
        exact hcheck
    · obtain ⟨x, blk, hb, rfl⟩ := hmem hc
      obtain ⟨t', ht', -, hsucc, -⟩ := hterm hb
      rw [hlen]
      refine hsucc s ?_
      simpa [MirBlock.succs, ht'] using hs
  refine ⟨hwf, ⟨fun hsplit d hd hseen ↦ ?_, fun hsplit hnphi o ho ↦ ?_⟩, ?_, fun c hc ↦ ?_,
    ⟨fun {x blk' pre' i' post'} hb' hsplit hnphi o ho ↦ ?_, fun {x blk' d ty args} hb' hi a ha ↦ ?_,
      fun {x blk' t'} hb' ht' o ho ↦ ?_⟩⟩
  · obtain ⟨x, blk, pre, i, post, -, -, -, rfl, hsplit', hsub, -⟩ :=
      exists_of_insts_rewire skip hid hh hsplit
    rw [(hh x).dests] at hd
    refine hf.ordered.fresh hsplit' d hd ?_
    exact List.mem_append.2 ((List.mem_append.1 hseen).imp_right (hsub d))
  · obtain ⟨x, blk, pre, i, post, hb, hi, hk, rfl, hsplit', -, hkeep⟩ :=
      exists_of_insts_rewire skip hid hh hsplit
    rw [(hh x).isPhi] at hnphi
    rw [(hh x).other i hnphi] at ho
    have hseen := hf.ordered.operands hsplit' hnphi o ho
    have hlost := hused hb hi hk hnphi o ho
    exact List.mem_append.2 ((List.mem_append.1 hseen).imp_right (hkeep o hlost))
  · exact (verifyParams_withBlocks _).trans hf.params
  · obtain ⟨x, blk, hb, rfl⟩ := hmem hc
    obtain ⟨t', ht', hok, -⟩ := hterm hb
    rw [ht']
    exact verifyTerm_withBlocks.trans hok
  · obtain ⟨blk, hb, rfl⟩ := hblock hb'
    obtain ⟨pre, i, post, hinsts, hk, rfl, rfl⟩ := map_filter_split hsplit
    have hi : i ∈ blk.insts := by simp [hinsts]
    rw [(hh x).isPhi] at hnphi
    rw [(hh x).other i hnphi] at ho
    refine avail_rewire hh hid hroot hedge (hused hb hi hk hnphi o ho) hb (fun j hj ↦ by simp [hinsts, hj]) ?_
    exact hf.dom.inst hb hinsts hnphi o ho
  · obtain ⟨blk, hb, rfl⟩ := hblock hb'
    obtain ⟨j, hj, hji⟩ := List.mem_map.1 hi
    obtain ⟨hj, hk⟩ := List.mem_filter.1 hj
    have hjphi : j.isPhi = true := by rw [← (hh x).isPhi, hji]; rfl
    cases j with
    | phi d₀ ty₀ args₀ =>
      obtain ⟨args', hargs, -, hargs'⟩ := hphi hb hj hk
      rw [hargs] at hji
      obtain ⟨-, -, rfl⟩ := MirInst.phi.inj hji
      exact (hargs' a ha).2
    | _ => cases hjphi
  · obtain ⟨blk, hb, rfl⟩ := hblock hb'
    obtain ⟨t₀, ht₀, -, -, hops⟩ := hterm hb
    obtain rfl : t₀ = t' := Option.some.inj (ht₀.symm.trans ht')
    exact hops o ho

/-! ### Changing incomings and blocks -/

theorem count_dropArg (args : List (BlockId × ValueId)) (p q : BlockId) :
    ((args.filter (·.1 ≠ p)).map Prod.fst).count q = if q = p then 0 else (args.map Prod.fst).count q := by
  have hmap : (args.filter (·.1 ≠ p)).map Prod.fst = (args.map Prod.fst).filter (· ≠ p) :=
    (List.filter_map (p := fun q ↦ decide (q ≠ p)) (f := Prod.fst)).symm
  rw [hmap]
  by_cases hq : q = p
  · rw [if_pos hq, List.count_eq_zero]
    exact fun h ↦ of_decide_eq_true (List.mem_filter.1 h).2 hq
  · rw [if_neg hq, List.count_filter (by simpa using hq)]

theorem count_pushArg (args : List (BlockId × ValueId)) (p q : BlockId) (v : ValueId) :
    ((sortArgs (args ++ [(p, v)])).map Prod.fst).count q =
      (args.map Prod.fst).count q + if q = p then 1 else 0 := by
  have hperm : ((sortArgs (args ++ [(p, v)])).map Prod.fst).Perm (args.map Prod.fst ++ [p]) := by
    refine ((List.perm_insertionSort _ _).map _).trans ?_
    rw [List.map_append]
    rfl
  rw [hperm.count_eq, List.count_append, List.count_singleton]
  by_cases hq : q = p
  · simp [hq]
  · simp [hq, Ne.symm hq]

/-- The same change in each of some blocks. -/
theorem foldl_modifyBlock (k : MirBlock → MirBlock) (f : MirFunc) {l : List BlockId} (hl : l.Nodup) :
    (l.foldl (fun f c ↦ f.modifyBlock c k) f =
      { f with blocks := (l.foldl (fun f c ↦ f.modifyBlock c k) f).blocks }) ∧
    ∀ x, (l.foldl (fun f c ↦ f.modifyBlock c k) f).block? x =
      if x ∈ l then (f.block? x).map k else f.block? x := by
  induction l generalizing f with
  | nil => exact ⟨rfl, fun x ↦ by simp⟩
  | cons c l ih =>
    obtain ⟨hc, hl⟩ := List.nodup_cons.1 hl
    obtain ⟨hfields, hblock⟩ := ih (f.modifyBlock c k) hl
    refine ⟨hfields, fun x ↦ ?_⟩
    rw [List.foldl_cons, hblock, MirFunc.block?_modifyBlock]
    by_cases hx : c = x
    · subst hx
      simp [hc]
    · simp [hx, Ne.symm hx]

/-! ### Taking out a block -/

/-- Block `b` loses its instructions and its edges, and the φs forget it. -/
def MirFunc.detach (f : MirFunc) (b : BlockId) : MirFunc :=
  f.rewire (fun x _ ↦ x ≠ b) (fun _ ↦ dropArg b) fun x t ↦ if x = b then some .unreachable else t

section
variable {bb : MirBlock}

theorem block?_detach (hid : Tidied f) (x : BlockId) : (f.detach b).block? x = (f.block? x).map fun q ↦
    if x = b then ⟨q.id, [], some .unreachable⟩ else ⟨q.id, q.insts.map (dropArg b), q.term⟩ := by
  rw [MirFunc.detach, block?_rewire hid.id]
  by_cases hx : x = b
  · simp [hx]
  · simp [hx]

theorem succsOf_detach (hid : Tidied f) (x : BlockId) :
    (f.detach b).succsOf x = if x = b then [] else f.succsOf x := by
  unfold MirFunc.succsOf
  rw [block?_detach hid]
  by_cases hx : x = b
  · cases f.block? x with
    | none => simp [hx]
    | some q => simp [hx, MirBlock.succs, Terminator.succs]
  · cases f.block? x with
    | none => simp [hx]
    | some q => simp [hx, MirBlock.succs]

/-- **A block whose values nothing else reads can be taken out.** -/
theorem AcceptedIn.detach (hf : AcceptedIn R f) (hb : f.block? b = some bb)
    (hinsts : ∀ {x blk i}, x ≠ b → f.block? x = some blk → i ∈ blk.insts → ∀ o ∈ i.operands, o ∉ bb.defs)
    (hterms : ∀ {x blk t}, x ≠ b → f.block? x = some blk → blk.term = some t → ∀ o ∈ t.operands, o ∉ bb.defs)
    (hroot : ∀ a, R' a → ∃ l, Walk R f.Edge a l ∧ ∀ x ∈ l, x = a ∨ x = b) : AcceptedIn R' (f.detach b) := by
  have hid := hf.wf.tidied
  have hlost : ∀ {o}, o ∉ bb.defs → ¬f.Lost (fun x _ ↦ decide (x ≠ b)) (· = b) o := by
    rintro o ho ⟨x, blk, i, hx, hi, hoi, hk⟩
    have hxb : x = b := hk.elim (fun h ↦ by simpa using h) id
    subst hxb
    obtain rfl : bb = blk := Option.some.inj (hb.symm.trans hx)
    exact ho (List.mem_flatMap.2 ⟨i, hi, hoi⟩)
  have hedge : ∀ a c, (f.detach b).Edge a c → f.Edge a c ∨ ∃ s, s = b ∧ f.Edge a s ∧ f.Edge s c := by
    intro a c hac
    rw [edge_iff, succsOf_detach hid] at hac
    by_cases ha : a = b
    · rw [if_pos ha] at hac
      cases hac
    · rw [if_neg ha] at hac
      exact .inl (edge_iff.2 hac)
  have hend : ∀ {x o}, o ∉ bb.defs → f.AvailEndIn R x o → (f.detach b).AvailEndIn R' x o := fun ho hav ↦
    availEnd_rewire (fun _ ↦ phiMap_dropArg b) hid.id hroot hedge (hlost ho) hav
  have hne : ∀ {x : BlockId}, decide (x ≠ b) = true → x ≠ b := fun h ↦ of_decide_eq_true h
  refine AcceptedIn.rewire (· = b) hf (fun _ ↦ phiMap_dropArg b) hroot hedge ?_ ?_ ?_
  · intro x blk i hx hi hk _ o ho
    exact hlost (hinsts (hne hk) hx hi o ho)
  · intro x blk d ty args hx hi hk
    refine ⟨args.filter (·.1 ≠ b), rfl, fun q ↦ ?_, fun a ha ↦ ?_⟩
    · show _ = ((f.detach b).succsOf q).count x
      rw [count_dropArg, hf.wf.count_args hx hi, succsOf_detach hid]
      by_cases hq : q = b
      · rw [if_pos hq, if_pos hq, List.count_nil]
      · rw [if_neg hq, if_neg hq]
    · have ha' := (List.mem_filter.1 ha).1
      refine ⟨(hf.wf.phi (List.mem_of_getElem? hx) hi).2.2 a ha', ?_⟩
      exact hend (hinsts (hne hk) hx hi _ (List.mem_map_of_mem ha')) (hf.dom.phi hx hi a ha')
  · intro x blk hx
    by_cases hxb : x = b
    · refine ⟨.unreachable, if_pos hxb, rfl, fun s hs ↦ ?_, fun o ho ↦ ?_⟩
      · cases hs
      · cases ho
    · obtain ⟨t, ht⟩ := hf.wf.term blk (List.mem_of_getElem? hx)
      have hok := hf.terms blk (List.mem_of_getElem? hx)
      rw [ht] at hok
      refine ⟨t, by rw [if_neg hxb, ht], hok, fun s hs ↦ ?_, fun o ho ↦ ?_⟩
      · refine hf.wf.succs blk (List.mem_of_getElem? hx) s ?_
        rwa [MirBlock.succs, ht]
      · exact hend (hterms hxb hx ht o ho) (hf.dom.term hx ht o ho)

/-- New roots are blocks that only `b` led to. -/
theorem walk_of_detach_root (hid : Tidied f) (hno : ∀ q, b ∉ f.succsOf q) (hb : f.block? b = some bb)
    (a : BlockId)
    (ha : (f.detach b).DomRoot a) : ∃ l, Walk f.DomRoot f.Edge a l ∧ ∀ x ∈ l, x = a ∨ x = b := by
  have hroot : ∀ {x}, f.DomRoot x → ∃ l, Walk f.DomRoot f.Edge x l ∧ ∀ y ∈ l, y = x ∨ y = b := fun hx ↦
    ⟨_, .start hx, fun _ hy ↦ .inl (List.mem_singleton.1 hy)⟩
  rcases ha with ha | ⟨hlt, hpreds⟩
  · exact hroot (.inl ha)
  · have hlt' : a < f.blocks.length := by
      rw [MirFunc.detach, MirFunc.rewire, List.length_map] at hlt
      exact hlt
    have hid' : ∀ {i : BlockId} {c : MirBlock}, (f.detach b).block? i = some c → c.id = i := by
      intro i c hc
      rw [block?_detach hid] at hc
      obtain ⟨q, hq, rfl⟩ := Option.map_eq_some_iff.1 hc
      have hqi : q.id = i := hid.id hq
      split
      · exact hqi
      · exact hqi
    by_cases hedge : a ∈ f.succsOf b
    · have hbroot : f.DomRoot b := by
        refine .inr ⟨(List.getElem?_eq_some_iff.1 hb).1, List.eq_nil_iff_forall_not_mem.2 fun q hq ↦ ?_⟩
        rw [← List.count_pos_iff, count_preds hid.id, List.count_pos_iff] at hq
        exact hno q hq
      exact ⟨_, (Walk.start hbroot).step (edge_iff.2 hedge), fun x hx ↦ by simpa using hx⟩
    · refine hroot (.inr ⟨hlt', List.eq_nil_iff_forall_not_mem.2 fun q hq ↦ ?_⟩)
      rw [← List.count_pos_iff, count_preds hid.id, List.count_pos_iff] at hq
      have hqb : q ≠ b := fun h ↦ hedge (h ▸ hq)
      have hmem : a ∈ (f.detach b).succsOf q := by rwa [succsOf_detach hid, if_neg hqb]
      rw [← List.count_pos_iff, ← count_preds hid', hpreds] at hmem
      cases hmem

/-- **A block that nothing leads to can be taken out of the runs.** -/
theorem detach_preserves (hid : Tidied f) (hentry : b ≠ f.entry) (hno : ∀ q, b ∉ f.succsOf q) :
    Preserves f (f.detach b) := by
  refine Preserves.of_lockstep fun σ π W env w ↦
    ⟨fun s u ↦ s = u ∧ s.block ≠ b ∧ s.pred ≠ some b, ⟨rfl, hentry.symm, by simp [start]⟩, ?_⟩
  rintro s u ⟨rfl, hsb, hsp⟩
  refine ⟨rfl, fun hs ↦ ?_⟩
  obtain ⟨blk, hblk, hready⟩ := exists_ready hs
  have hg : (f.detach b).block? s.block = some ⟨blk.id, blk.insts.map (dropArg b), blk.term⟩ := by
    rw [block?_detach hid, hblk, Option.map_some, if_neg hsb]
  have hstep : step W (f.detach b) s = step W f s := by
    rw [step_eq_leave_of_phiMap (phiMap_dropArg b) hg rfl hready (fun i _ ↦ phiArg_dropArg hsp i) rfl,
      step_eq_leave hblk hready]
  rw [hstep]
  cases hst : step W f s with
  | inr r => rfl
  | inl s' =>
    obtain ⟨hpred, blk', hblk', hsucc⟩ := step_onEdge hst
    refine ⟨rfl, fun h ↦ hno s.block ?_, fun h ↦ hsb (Option.some.inj (hpred.symm.trans h))⟩
    rw [MirFunc.succsOf_eq hblk', ← h]
    exact hsucc

/-- φs without an incoming from `b` stay. -/
theorem map_dropArg_eq (hf : WellFormed f) (hb : f.block? q = some blk) (hq : q ∉ f.succsOf b) :
    blk.insts.map (dropArg b) = blk.insts := by
  refine (List.map_congr_left fun i hi ↦ ?_).trans (List.map_id _)
  cases i with
  | phi d ty args =>
    have hnot : b ∉ args.map Prod.fst := by
      rw [← List.count_pos_iff, hf.count_args hb hi, List.count_pos_iff]
      exact hq
    have hall : args.filter (·.1 ≠ b) = args := List.filter_eq_self.2 fun a ha ↦
      decide_eq_true fun h ↦ hnot (List.mem_map.2 ⟨a, ha, h⟩)
    rw [dropArg, hall, id]
  | _ => rfl

end

end CoilLang.Mir
