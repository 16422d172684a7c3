import CoilLang.Mir.Relayout
import CoilLang.Mir.Rewire

/-!
# Tidying keeps a function accepted

Each rewrite of `tidy` is a rewiring: a branch that becomes a jump has an edge less, a threaded edge is a
shortcut through an empty block, and an unlinked block is taken out. So each keeps what the checks accept, and
reaches no block that was not reached (`Shrunk`).

Renumbering drops the blocks that are not reached. **What a reached block reads is defined in a block that is
reached too**, since it is dominated by it, and the blocks keep their order; so the result is accepted, and
all its blocks are reached (`accepted_relayout`).
-/

namespace CoilLang.Mir

/-- An accepted function that reaches no more than `f`. -/
structure Shrunk (f g : MirFunc) : Prop where
  accepted : Accepted g
  reached : ∀ b, g.Reached b → f.Reached b
  length : g.blocks.length = f.blocks.length

theorem Shrunk.refl {f : MirFunc} (hf : Accepted f) : Shrunk f f := ⟨hf, fun _ ↦ id, rfl⟩

theorem Shrunk.trans {f g h : MirFunc} (hfg : Shrunk f g) (hgh : Shrunk g h) : Shrunk f h :=
  ⟨hgh.accepted, fun b hb ↦ hfg.reached b (hgh.reached b hb), hgh.length.trans hfg.length⟩

theorem walk_entry {f : MirFunc} {skip : BlockId → Prop} (a : BlockId) (ha : a = f.entry) :
    ∃ l, Walk (· = f.entry) f.Edge a l ∧ ∀ x ∈ l, x = a ∨ skip x :=
  ⟨[a], .start ha, fun _ hx ↦ .inl (List.mem_singleton.1 hx)⟩

variable {f : MirFunc} {b c p i : BlockId} {h : BlockId → MirInst → MirInst}
  {t : BlockId → Option Terminator → Option Terminator}

/-- A rewiring that leaves nothing out and skips empty blocks only: the φs have to fit the edges, and the
terminators to read what they did. -/
theorem Accepted.shortcut (skip : BlockId → Prop) (hf : Accepted f) (hh : ∀ x, PhiMap (h x))
    (hskip : ∀ {x blk}, skip x → f.block? x = some blk → blk.insts = [])
    (hedge : ∀ a b, (f.rewire (fun _ _ ↦ true) h t).Edge a b →
      f.Edge a b ∨ ∃ s, skip s ∧ f.Edge a s ∧ f.Edge s b)
    (hphi : ∀ {x blk d ty args}, f.block? x = some blk → MirInst.phi d ty args ∈ blk.insts →
      ∃ args', h x (.phi d ty args) = .phi d ty args' ∧
        (∀ p, (args'.map Prod.fst).count p = ((f.rewire (fun _ _ ↦ true) h t).succsOf p).count x) ∧
        ∀ a ∈ args', f.ty a.2 = ty ∧ f.AvailEndIn (· = f.entry) a.1 a.2)
    (hterm : ∀ {x blk t₀}, f.block? x = some blk → blk.term = some t₀ → ∃ t', t x (some t₀) = some t' ∧
      f.verifyTerm t' = .ok () ∧ ∀ o ∈ t'.operands, o ∈ t₀.operands) :
    Shrunk f (f.rewire (fun _ _ ↦ true) h t) := by
  have hid := hf.wf.tidied
  have hlost : ∀ v, ¬f.Lost (fun _ _ ↦ true) skip v := by
    rintro v ⟨x, blk, i, hx, hi, -, hk | hs⟩
    · cases hk
    · rw [hskip hs hx] at hi
      cases hi
  have hend : ∀ {x o}, f.AvailEndIn (· = f.entry) x o →
      (f.rewire (fun _ _ ↦ true) h t).AvailEndIn (· = f.entry) x o := fun hav ↦
    availEnd_rewire hh hid.id walk_entry hedge (hlost _) hav
  refine ⟨AcceptedIn.rewire skip hf hh (walk_entry (f := f)) hedge (fun _ _ _ _ o _ ↦ hlost o)
    (fun hx hi _ ↦ ?_) (fun {x blk} hx ↦ ?_), fun x hx ↦ reached_of_rewire hedge hx, List.length_map _⟩
  · obtain ⟨args', hargs, hcount, hav⟩ := hphi hx hi
    exact ⟨args', hargs, hcount, fun a ha ↦ ⟨(hav a ha).1, hend (hav a ha).2⟩⟩
  · obtain ⟨t₀, ht₀⟩ := hf.wf.term blk (List.mem_of_getElem? hx)
    obtain ⟨t', ht', hok, hops⟩ := hterm hx ht₀
    refine ⟨t', by rw [ht₀, ht'], hok, fun s hs ↦ ?_, fun o ho ↦ hend (hf.dom.term hx ht₀ o (hops o ho))⟩
    have hsucc : (f.rewire (fun _ _ ↦ true) h t).Edge x s := by
      refine ⟨_, by rw [block?_rewire hid.id, hx]; rfl, ?_⟩
      rw [MirBlock.succs]
      dsimp only
      rw [ht₀, ht']
      exact hs
    have hlt : ∀ {a}, f.Edge a s → s < f.blocks.length := by
      rintro a ⟨q, hq, hs⟩
      exact hf.wf.succs q (List.mem_of_getElem? hq) s hs
    rcases hedge x s hsucc with he | ⟨y, -, -, he⟩
    · exact hlt he
    · exact hlt he

/-- A φ that keeps its incomings. -/
theorem Accepted.phi_same (hf : Accepted f) {x : BlockId} {blk : MirBlock} {d : ValueId} {ty : MirTy}
    {args : List (BlockId × ValueId)} (hx : f.block? x = some blk) (hi : MirInst.phi d ty args ∈ blk.insts) :
    ∀ a ∈ args, f.ty a.2 = ty ∧ f.AvailEndIn (· = f.entry) a.1 a.2 := fun a ha ↦
  ⟨(hf.wf.phi (List.mem_of_getElem? hx) hi).2.2 a ha, hf.dom.phi hx hi a ha⟩

theorem Accepted.verifyTerm (hf : Accepted f) {x : BlockId} {blk : MirBlock} {t₀ : Terminator}
    (hx : f.block? x = some blk) (ht : blk.term = some t₀) : f.verifyTerm t₀ = .ok () := by
  have := hf.terms blk (List.mem_of_getElem? hx)
  rwa [ht] at this

/-! ### Branches whose arms end alike -/

theorem Accepted.tidyArms (hf : Accepted f) (i : BlockId) : Shrunk f (tidyArms f i) := by
  unfold Mir.tidyArms
  split
  swap
  · exact .refl hf
  rename_i cond t n hbr
  split
  swap
  · exact .refl hf
  rename_i hcond
  obtain ⟨-, -, hn, -⟩ := hcond
  obtain ⟨-, nb, hnb, hnempty⟩ := MirFunc.isEmptyBlock_iff.1 hn
  obtain ⟨bi, hbi, hterm⟩ := Option.bind_eq_some_iff.1 hbr
  have hid := hf.wf.tidied
  have heq : f.modifyBlock i (MirBlock.setTerm (.jump t)) =
      f.rewire (fun _ _ ↦ true) (fun _ ↦ id) fun x t₀ ↦ if x = i then some (.jump t) else t₀ := by
    refine eq_rewire hid.id rfl fun x ↦ ?_
    rw [MirFunc.block?_modifyBlock]
    by_cases hx : i = x
    · cases f.block? x with
      | none => simp
      | some q => simp [hx, MirBlock.setTerm]
    · cases f.block? x with
      | none => simp
      | some q => simp [hx, Ne.symm hx]
  have hsuccs : ∀ q, (f.modifyBlock i (MirBlock.setTerm (.jump t))).succsOf q =
      if q = i then [t] else f.succsOf q := fun q ↦ succsOf_modifyBlock_setTerm hbi _ q
  have hsuccsi : f.succsOf i = [t, n] := by rw [MirFunc.succsOf_eq hbi, MirBlock.succs, hterm]; rfl
  rw [heq] at hsuccs ⊢
  refine Accepted.shortcut (fun _ ↦ False) hf (fun _ ↦ phiMap_id) (fun h ↦ h.elim) (fun a b hab ↦ .inl ?_)
    (fun {x blk d ty args} hx hi ↦ ⟨args, rfl, fun q ↦ ?_, hf.phi_same hx hi⟩) fun {x blk t₀} hx ht₀ ↦ ?_
  · rw [edge_iff, hsuccs] at hab
    rw [edge_iff]
    by_cases ha : a = i
    · rw [if_pos ha, List.mem_singleton] at hab
      rw [ha, hsuccsi, hab]
      exact List.mem_cons_self
    · rwa [if_neg ha] at hab
  · -- the edge that goes led into an empty block
    have hxn : n ≠ x := by
      rintro rfl
      obtain rfl := Option.some.inj (hnb.symm.trans hx)
      rw [hnempty] at hi
      cases hi
    rw [hf.wf.count_args hx hi, hsuccs]
    by_cases hq : q = i
    · rw [if_pos hq, hq, hsuccsi, List.count_cons, List.count_singleton]
      simp [List.count_singleton, hxn]
    · rw [if_neg hq]
  · by_cases hxi : x = i
    · exact ⟨.jump t, if_pos hxi, rfl, fun o ho ↦ (by cases ho)⟩
    · exact ⟨t₀, if_neg hxi, hf.verifyTerm hx ht₀, fun _ ho ↦ ho⟩

/-! ### Threading -/

theorem count_map_redirect {l : List BlockId} {x : BlockId} (hb : x ≠ b) (hc : x ≠ c) :
    (l.map (redirect b c)).count x = l.count x := by
  induction l with
  | nil => rfl
  | cons s l ih =>
    rw [List.map_cons, List.count_cons, List.count_cons, ih]
    unfold redirect
    by_cases hs : s = b
    · subst hs
      simp [Ne.symm hb, Ne.symm hc]
    · rw [if_neg hs]

theorem Terminator.operands_retarget (t : Terminator) : (t.retarget b c).operands = t.operands := by
  cases t <;> rfl

theorem verifyTerm_retarget (t : Terminator) : f.verifyTerm (t.retarget b c) = f.verifyTerm t := by
  cases t <;> rfl

theorem Accepted.threadEdge (hf : Accepted f) (hb : hop f b = some c) (hp : b ∈ f.succsOf p)
    (hkeep : keepsEdge f c p = false) : Shrunk f (threadEdge f b c p) := by
  have hid := hf.wf.tidied
  obtain ⟨hempty, hsuccsb, hcb⟩ := hop_iff_succsOf.1 hb
  obtain ⟨-, -, eb, heb, hnil, -⟩ := hop_eq_some hb
  have hnot : c ∉ f.succsOf p := fun h ↦ by
    rw [keepsEdge_iff.2 (.inl h)] at hkeep
    cases hkeep
  have hshort : f.phisOf c ≠ [] → f.succsOf p = [b] := fun hphis ↦ by
    have hle : (f.succsOf p).length ≤ 1 := by
      by_contra hlt
      rw [keepsEdge_iff.2 (.inr ⟨not_le.1 hlt, hphis⟩)] at hkeep
      cases hkeep
    cases hl : f.succsOf p with
    | nil =>
      rw [hl] at hp
      cases hp
    | cons s l =>
      rw [hl, List.length_cons] at hle
      obtain rfl : l = [] := List.eq_nil_of_length_eq_zero (by omega)
      rw [hl, List.mem_singleton] at hp
      rw [hp]
  have heq : Mir.threadEdge f b c p = f.rewire (fun _ _ ↦ true) (fun x ↦ if x = c then pushArg b p else id)
      fun x t₀ ↦ if x = p then t₀.map (Terminator.retarget b c) else t₀ := by
    refine eq_rewire hid.id rfl fun x ↦ ?_
    rw [threadEdge_block?]
    cases f.block? x with
    | none => rfl
    | some q => by_cases hx : x = c <;> simp [hx]
  have hsuccs := succsOf_threadEdge f b c p
  rw [heq] at hsuccs ⊢
  have hbempty : ∀ {x blk i}, f.block? x = some blk → i ∈ blk.insts → x ≠ b := by
    rintro x blk i hx hi rfl
    obtain rfl := Option.some.inj (heb.symm.trans hx)
    rw [hnil] at hi
    cases hi
  refine Accepted.shortcut (· = b) hf (fun x ↦ ?_) (fun hs hx ↦ ?_) (fun a e hae ↦ ?_)
    (fun {x blk d ty args} hx hi ↦ ?_) fun {x blk t₀} hx ht₀ ↦ ?_
  · split
    · exact phiMap_pushArg b p
    · exact phiMap_id
  · subst hs
    obtain rfl := Option.some.inj (heb.symm.trans hx)
    exact hnil
  · rw [edge_iff, hsuccs] at hae
    by_cases ha : a = p
    · rw [if_pos ha] at hae
      obtain ⟨s, hs, hse⟩ := List.mem_map.1 hae
      unfold redirect at hse
      by_cases hsb : s = b
      · rw [if_pos hsb] at hse
        subst hse
        exact .inr ⟨b, rfl, edge_iff.2 (hsb ▸ hs),
          edge_iff.2 (by rw [hsuccsb]; exact List.mem_singleton_self _)⟩
      · rw [if_neg hsb] at hse
        exact .inl (edge_iff.2 (hse ▸ hs))
    · rw [if_neg ha] at hae
      exact .inl (edge_iff.2 hae)
  · have hxb := hbempty hx hi
    have hcount := hf.wf.count_args hx hi
    by_cases hxc : x = c
    · -- the φs of the target get the incoming they have from `b`
      subst hxc
      have hphis : f.phisOf x ≠ [] := by
        rw [MirFunc.phisOf_eq hx]
        exact List.ne_nil_of_mem (List.mem_filter.2 ⟨hi, rfl⟩)
      obtain ⟨a, hfind⟩ : ∃ a, args.find? (·.1 = b) = some a := by
        have hmem : b ∈ args.map Prod.fst := by
          rw [← List.count_pos_iff, hcount, hsuccsb]
          simp
        obtain ⟨a, ha, hab⟩ := List.mem_map.1 hmem
        exact Option.isSome_iff_exists.1 (List.find?_isSome.2 ⟨a, ha, by simpa using hab⟩)
      have hamem := List.mem_of_find?_eq_some hfind
      have hab : a.1 = b := by simpa using List.find?_some hfind
      refine ⟨sortArgs (args ++ [(p, a.2)]), ?_, fun q ↦ ?_, fun e he ↦ ?_⟩
      · rw [if_pos rfl, pushArg, hfind]
      · rw [count_pushArg, hcount, hsuccs]
        by_cases hq : q = p
        · rw [if_pos hq, if_pos hq, hq, hshort hphis]
          simp [redirect, Ne.symm hcb]
        · rw [if_neg hq, if_neg hq, Nat.add_zero]
      · rw [sortArgs, List.mem_insertionSort, List.mem_append, List.mem_singleton] at he
        rcases he with he | rfl
        · exact hf.phi_same hx hi e he
        · obtain ⟨hty, hav⟩ := hf.phi_same hx hi a hamem
          refine ⟨hty, hav.imp_right ?_⟩
          rintro ⟨q, blk', hdom, hq, hv⟩
          rw [hab] at hdom
          refine ⟨q, blk', hdom.pred ?_ (edge_iff.2 hp), hq, hv⟩
          rintro rfl
          obtain rfl := Option.some.inj (heb.symm.trans hq)
          rw [MirBlock.defs, hnil] at hv
          cases hv
    · refine ⟨args, by rw [if_neg hxc, id], fun q ↦ ?_, hf.phi_same hx hi⟩
      rw [hcount, hsuccs]
      by_cases hq : q = p
      · rw [if_pos hq, count_map_redirect hxb hxc]
      · rw [if_neg hq]
  · by_cases hxp : x = p
    · refine ⟨t₀.retarget b c, by rw [if_pos hxp]; rfl, ?_, fun o ho ↦ ?_⟩
      · rw [verifyTerm_retarget]
        exact hf.verifyTerm hx ht₀
      · rwa [Terminator.operands_retarget] at ho
    · exact ⟨t₀, if_neg hxp, hf.verifyTerm hx ht₀, fun _ ho ↦ ho⟩

theorem unlink_eq (hf : WellFormed f) (hb : hop f b = some c) : unlink f b c = f.detach b := by
  have hid := hf.tidied
  obtain ⟨-, hsuccsb, hcb⟩ := hop_iff_succsOf.1 hb
  obtain ⟨-, -, eb, heb, hnil, -⟩ := hop_eq_some hb
  refine eq_rewire hid.id rfl fun x ↦ ?_
  have hdetach := block?_detach (b := b) hid x
  rw [MirFunc.detach, block?_rewire hid.id] at hdetach
  rw [hdetach, unlink_block?]
  cases hx : f.block? x with
  | none => rfl
  | some q =>
    by_cases hxb : x = b
    · subst hxb
      obtain rfl := Option.some.inj (heb.symm.trans hx)
      simp [hnil, Ne.symm hcb]
    · by_cases hxc : x = c
      · simp [hxc, hcb]
      · have hdrop := map_dropArg_eq (b := b) hf hx (by rw [hsuccsb]; simpa using hxc)
        simp [hxb, hxc, hdrop]

theorem Accepted.unlink (hf : Accepted f) (hb : hop f b = some c) : Shrunk f (unlink f b c) := by
  obtain ⟨-, -, eb, heb, hnil, -⟩ := hop_eq_some hb
  have hdefs : ∀ o, o ∉ eb.defs := fun o ho ↦ by
    rw [MirBlock.defs, hnil] at ho
    cases ho
  have hedge : ∀ a e, (f.detach b).Edge a e → f.Edge a e ∨ ∃ s, False ∧ f.Edge a s ∧ f.Edge s e := by
    intro a e hae
    rw [edge_iff, succsOf_detach hf.wf.tidied] at hae
    by_cases ha : a = b
    · rw [if_pos ha] at hae
      cases hae
    · rw [if_neg ha] at hae
      exact .inl (edge_iff.2 hae)
  rw [unlink_eq hf.wf hb]
  refine ⟨hf.detach heb (fun _ _ _ o _ ↦ hdefs o) (fun _ _ _ o _ ↦ hdefs o) (walk_entry (f := f)),
    fun x hx ↦ reached_of_rewire hedge hx, List.length_map _⟩

/-! ### All of the threading -/

theorem Shrunk.foldl_threadPred {ch : Bool} {rest : List BlockId} {st : Threading}
    (hb : hop f b = some c) (h : ThreadInv f ch b c rest st) (hnd : rest.Nodup) (hst : Shrunk f st.func) :
    Shrunk f (rest.foldl (threadPred b c) st).func := by
  induction rest generalizing st with
  | nil => exact hst
  | cons p rest ih =>
    obtain ⟨hp, hnd'⟩ := List.nodup_cons.1 hnd
    refine ih (threadPred_inv hb h hp) hnd' ?_
    obtain ⟨hpb, hsame⟩ := h.todo p List.mem_cons_self
    unfold threadPred
    cases hkeep : keepsEdge st.func c p with
    | true => exact hst
    | false => exact hst.trans (hst.accepted.threadEdge (h.hop hb) (hsame ▸ hpb) hkeep)

theorem Accepted.threadBlock (hf : Accepted f) (ch : Bool) (b : BlockId) :
    Shrunk f (threadBlock (f, ch) b).1 := by
  cases hb : hop f b with
  | none =>
    simp only [Mir.threadBlock, hb]
    exact .refl hf
  | some c =>
    simp only [Mir.threadBlock, hb]
    have hid := hf.wf.tidied
    have hnd := nodup_predBlocks (b := b) hid
    have hstart : ThreadInv f ch b c _ _ := threadInv_start hid hf.wf.trapTyped
    have hinv := foldl_threadPred_inv hb hstart hnd
    have hst := Shrunk.foldl_threadPred hb hstart hnd (.refl hf)
    split
    · exact hst
    · exact hst.trans (hst.accepted.unlink (hinv.hop hb))

theorem Accepted.threadSweep (hf : Accepted f) : Shrunk f (threadSweep f).1 := by
  unfold Mir.threadSweep
  have hstart : Shrunk f (f, false).1 := .refl hf
  generalize (f, false) = st at hstart
  generalize List.range f.blocks.length = l
  induction l generalizing st with
  | nil => exact hstart
  | cons b l ih => exact ih _ (hstart.trans (hstart.accepted.threadBlock st.2 b))

/-! ### Renumbering -/

/-- The blocks laid out are those that are reached, in their order. -/
structure LaysOutReached (f : MirFunc) (layout : List BlockId) : Prop where
  sublist : layout.Sublist (List.range f.blocks.length)
  reached : ∀ b, b ∈ layout ↔ f.Reached b

namespace LaysOutReached

variable {layout : List BlockId} {k k' q : BlockId} {blk blk' : MirBlock} {l : List BlockId}

theorem nodup (hl : LaysOutReached f layout) : layout.Nodup := hl.sublist.nodup List.nodup_range

theorem exists_block (hl : LaysOutReached f layout) (hb : b ∈ layout) : ∃ blk, f.block? b = some blk :=
  ⟨_, List.getElem?_eq_getElem (List.mem_range.1 (hl.sublist.subset hb))⟩

theorem succ_mem (hl : LaysOutReached f layout) (hb : b ∈ layout) (he : f.Edge b c) : c ∈ layout :=
  (hl.reached c).2 (Reached.of_edge ((hl.reached b).1 hb) he)

theorem entry_mem (hl : LaysOutReached f layout) : f.entry ∈ layout := (hl.reached _).2 ⟨_, .start rfl⟩

theorem idxOf_lt (hb : b ∈ layout) : layout.idxOf b < (relayout f layout).blocks.length := by
  rw [relayout, List.length_map]
  exact List.idxOf_lt_length_iff.2 hb

theorem exists_of_block? (hl : LaysOutReached f layout) (h : (relayout f layout).block? k = some blk') :
    ∃ b blk, b ∈ layout ∧ layout.idxOf b = k ∧ f.block? b = some blk ∧ relayoutBlock layout blk = blk' := by
  have hmap : (layout.map fun b ↦ relayoutBlock layout ((f.block? b).getD ⟨b, [], none⟩))[k]? = some blk' := h
  rw [List.getElem?_map] at hmap
  obtain ⟨b, hb, rfl⟩ := Option.map_eq_some_iff.1 hmap
  obtain ⟨blk, hblk⟩ := hl.exists_block (List.mem_of_getElem? hb)
  obtain ⟨hlt, hget⟩ := List.getElem?_eq_some_iff.1 hb
  refine ⟨b, blk, List.mem_of_getElem? hb, ?_, hblk, by rw [hblk]; rfl⟩
  rw [← hget]
  exact hl.nodup.idxOf_getElem k hlt

theorem succs_relayoutBlock (blk : MirBlock) :
    (relayoutBlock layout blk).succs = blk.succs.map layout.idxOf := by
  unfold relayoutBlock MirBlock.succs
  rcases blk.term with _ | _ | _ | _ | _ <;> rfl

theorem edge (hb : b ∈ layout) (he : f.Edge b c) :
    (relayout f layout).Edge (layout.idxOf b) (layout.idxOf c) := by
  obtain ⟨blk, hblk, hc⟩ := he
  refine ⟨_, relayout_block? hb hblk, ?_⟩
  rw [succs_relayoutBlock]
  exact List.mem_map_of_mem hc

theorem exists_of_edge (hl : LaysOutReached f layout) (he : (relayout f layout).Edge k k') :
    ∃ b c, b ∈ layout ∧ c ∈ layout ∧ layout.idxOf b = k ∧ layout.idxOf c = k' ∧ f.Edge b c := by
  obtain ⟨blk', hblk', hk'⟩ := he
  obtain ⟨b, blk, hb, hidx, hblk, rfl⟩ := hl.exists_of_block? hblk'
  rw [succs_relayoutBlock] at hk'
  obtain ⟨c, hc, rfl⟩ := List.mem_map.1 hk'
  exact ⟨b, c, hb, hl.succ_mem hb ⟨blk, hblk, hc⟩, hidx, rfl, blk, hblk, hc⟩

/-- A walk of the renumbered blocks is one of the blocks. -/
theorem exists_of_walk (hl : LaysOutReached f layout)
    (hw : Walk (· = (relayout f layout).entry) (relayout f layout).Edge k l) :
    ∃ b l', b ∈ layout ∧ layout.idxOf b = k ∧ l = l'.map layout.idxOf ∧ Walk (· = f.entry) f.Edge b l' := by
  induction hw with
  | start ha => exact ⟨f.entry, [f.entry], hl.entry_mem, ha.symm, by rw [ha]; rfl, .start rfl⟩
  | step _ he ih =>
    obtain ⟨b, l', hb, rfl, rfl, hw'⟩ := ih
    obtain ⟨b', c, hb', hc, hidx, rfl, he'⟩ := hl.exists_of_edge he
    obtain rfl := (List.idxOf_inj hb').1 hidx
    exact ⟨c, c :: l', hc, rfl, rfl, hw'.step he'⟩

theorem dom (hl : LaysOutReached f layout) (hb : b ∈ layout) (hd : Dominates (· = f.entry) f.Edge q b) :
    Dominates (· = (relayout f layout).entry) (relayout f layout).Edge (layout.idxOf q) (layout.idxOf b) := by
  intro l hw
  obtain ⟨b', l', hb', hidx, rfl, hw'⟩ := hl.exists_of_walk hw
  obtain rfl := (List.idxOf_inj hb').1 hidx
  exact List.mem_map_of_mem (hd l' hw')

/-- A dominator of a reached block is reached. -/
theorem dom_mem (hl : LaysOutReached f layout) (hb : b ∈ layout) (hd : Dominates (· = f.entry) f.Edge q b) :
    q ∈ layout := by
  obtain ⟨l, hw⟩ := (hl.reached b).1 hb
  obtain ⟨u, v, rfl⟩ := List.append_of_mem (hd l hw)
  exact (hl.reached q).2 ⟨_, hw.of_append⟩

theorem reached_relayout (hl : LaysOutReached f layout) (hb : f.Reached b) :
    (relayout f layout).Reached (layout.idxOf b) := by
  obtain ⟨l, hw⟩ := hb
  induction hw with
  | start ha =>
    subst ha
    exact ⟨_, .start rfl⟩
  | step hw he ih => exact Reached.of_edge ih (edge ((hl.reached _).2 ⟨_, hw⟩) he)

end LaysOutReached

/-! ### The order of the definitions -/

/-- Splitting a list at an element of a sublist of it. -/
theorem exists_of_sublist_append_cons {α : Type} {l₁ l₂ r : List α} {x : α} (h : (l₁ ++ x :: l₂).Sublist r) :
    ∃ r₁ r₂, r = r₁ ++ x :: r₂ ∧ l₁.Sublist r₁ ∧ l₂.Sublist r₂ := by
  obtain ⟨r₁, r', rfl, h₁, h'⟩ := List.append_sublist_iff.1 h
  obtain ⟨u, v, rfl, hx, h₂⟩ := List.cons_sublist_iff.1 h'
  obtain ⟨s, w, rfl⟩ := List.append_of_mem hx
  exact ⟨r₁ ++ s, w ++ v, by simp, h₁.trans (List.sublist_append_left _ _),
    h₂.trans (List.sublist_append_right _ _)⟩

/-- The block with an id, empty if there is none. -/
def blockAt (f : MirFunc) (b : BlockId) : MirBlock := (f.block? b).getD ⟨b, [], none⟩

theorem blocks_eq_map (f : MirFunc) : f.blocks = (List.range f.blocks.length).map (blockAt f) := by
  refine List.ext_getElem (by simp) fun i hi _ ↦ ?_
  rw [List.getElem_map, List.getElem_range, blockAt, MirFunc.block?, List.getElem?_eq_getElem hi,
    Option.getD_some]

theorem insts_eq_flatMap (f : MirFunc) :
    f.insts = (List.range f.blocks.length).flatMap fun b ↦ (blockAt f b).insts := by
  rw [MirFunc.insts]
  conv_lhs => rw [blocks_eq_map f]
  rw [List.flatMap_map]

theorem insts_relayout (f : MirFunc) (layout : List BlockId) : (relayout f layout).insts =
    layout.flatMap fun b ↦ (blockAt f b).insts.map (relayoutInst layout) := by
  rw [MirFunc.insts, relayout, List.flatMap_map]
  rfl

theorem mem_dests_blockAt {v : ValueId} (hv : v ∈ (blockAt f b).insts.flatMap MirInst.dests) :
    ∃ blk, f.block? b = some blk ∧ v ∈ blk.defs := by
  unfold blockAt at hv
  cases hb : f.block? b with
  | none =>
    rw [hb] at hv
    cases hv
  | some blk =>
    rw [hb] at hv
    exact ⟨blk, rfl, hv⟩

namespace LaysOutReached

variable {layout : List BlockId}

/-- An instruction of the result and the one it comes from, with what is defined before each. -/
theorem exists_of_insts (hf : WellFormed f) (hl : LaysOutReached f layout) {pre' post' : List MirInst}
    {i' : MirInst} (hsplit : (relayout f layout).insts = pre' ++ i' :: post') :
    ∃ b blk u i w pre post, b ∈ layout ∧ f.block? b = some blk ∧ blk.insts = u ++ i :: w ∧
      relayoutInst layout i = i' ∧ f.insts = pre ++ i :: post ∧
      (∀ v ∈ pre'.flatMap MirInst.dests, v ∈ pre.flatMap MirInst.dests) ∧
      (∀ v ∈ u.flatMap MirInst.dests, v ∈ pre'.flatMap MirInst.dests) ∧
      ∀ q blk' v, q ∈ layout → q ≠ b → f.block? q = some blk' → v ∈ blk'.defs →
        v ∈ pre.flatMap MirInst.dests → v ∈ pre'.flatMap MirInst.dests := by
  have hphi := phiMap_relayoutInst layout
  rw [insts_relayout] at hsplit
  obtain ⟨l₁, b, l₂, u', w', rfl, hblk, rfl⟩ := exists_of_flatMap_eq hsplit
  have hb : b ∈ l₁ ++ b :: l₂ := List.mem_append_right _ List.mem_cons_self
  obtain ⟨blk, hblock⟩ := hl.exists_block hb
  have hat : blockAt f b = blk := by rw [blockAt, hblock]; rfl
  rw [hat] at hblk
  obtain ⟨u, iw, hinsts, rfl, hiw⟩ := List.map_eq_append_iff.1 hblk
  obtain ⟨i, w, rfl, rfl, rfl⟩ := List.map_eq_cons_iff.1 hiw
  obtain ⟨r₁, r₂, hrange, hl₁, hl₂⟩ := exists_of_sublist_append_cons hl.sublist
  have hdests : ∀ {v} {l : List BlockId},
      v ∈ (l.flatMap fun b ↦ (blockAt f b).insts).flatMap MirInst.dests ↔
        ∃ q ∈ l, v ∈ (blockAt f q).insts.flatMap MirInst.dests := by
    intro v l
    rw [List.flatMap_assoc, List.mem_flatMap]
  have hdests' : ∀ {v} {l l' : List BlockId},
      v ∈ (l.flatMap fun b ↦ (blockAt f b).insts.map (relayoutInst l')).flatMap MirInst.dests ↔
        ∃ q ∈ l, v ∈ (blockAt f q).insts.flatMap MirInst.dests := by
    intro v l l'
    rw [List.flatMap_assoc, List.mem_flatMap]
    simp only [(phiMap_relayoutInst l').flatMap_dests]
  refine ⟨b, blk, u, i, w, (r₁.flatMap fun b ↦ (blockAt f b).insts) ++ u,
    w ++ r₂.flatMap fun b ↦ (blockAt f b).insts, hb, hblock, hinsts, rfl, ?_, fun v hv ↦ ?_, fun v hv ↦ ?_,
    fun q blk' v hq hqb hblk' hvq hv ↦ ?_⟩
  · rw [insts_eq_flatMap, hrange, List.flatMap_append, List.flatMap_cons, hat, hinsts]
    simp
  · rw [List.flatMap_append, List.mem_append, hdests', hphi.flatMap_dests] at hv
    rw [List.flatMap_append, List.mem_append, hdests]
    exact hv.imp_left fun ⟨q, hq, hvq⟩ ↦ ⟨q, hl₁.subset hq, hvq⟩
  · rw [List.flatMap_append, List.mem_append, hphi.flatMap_dests]
    exact .inr hv
  · rw [List.flatMap_append, List.mem_append, hdests] at hv
    rw [List.flatMap_append, List.mem_append, hdests']
    rcases hv with ⟨x, hx, hvx⟩ | hv
    · obtain ⟨blkx, hblkx, hvx'⟩ := mem_dests_blockAt hvx
      obtain rfl := hf.eq_of_mem_defs hblkx hblk' hvx' hvq
      -- the blocks of the layout after `b` come after it in the function
      refine .inl ⟨x, ?_, hvx⟩
      have hnd : (r₁ ++ b :: r₂).Nodup := hrange ▸ List.nodup_range
      rcases List.mem_append.1 hq with hq | hq
      · exact hq
      · rcases List.mem_cons.1 hq with rfl | hq
        · exact absurd rfl hqb
        · have hdisj := (List.nodup_append.1 hnd).2.2 x hx x (List.mem_cons_of_mem _ (hl₂.subset hq))
          exact absurd rfl hdisj
    · refine absurd ?_ hqb
      have hvb : v ∈ blk.defs := by
        rw [MirBlock.defs, hinsts, List.flatMap_append]
        exact List.mem_append_left _ hv
      exact hf.eq_of_mem_defs hblk' hblock hvq hvb

end LaysOutReached

/-! ### The checks after renumbering -/

section
variable {layout : List BlockId} {v : ValueId} {pre : List MirInst} {blk : MirBlock}

theorem checkInst_relayout {preds : List BlockId} {i : MirInst} :
    (relayout f layout).checkInst preds i = f.checkInst preds i := by
  cases i <;> rfl

theorem verifyParams_relayout (ps : List ValueId) :
    (relayout f layout).verifyParams ps = f.verifyParams ps := by
  induction ps with
  | nil => rfl
  | cons p ps ih =>
    simp only [MirFunc.verifyParams, ih]
    rfl

theorem verifyTerm_mapTargets (k : BlockId → BlockId) (t : Terminator) :
    (relayout f layout).verifyTerm (t.mapTargets k) = f.verifyTerm t := by
  cases t <;> rfl

theorem Terminator.operands_mapTargets (k : BlockId → BlockId) (t : Terminator) :
    (t.mapTargets k).operands = t.operands := by
  cases t <;> rfl

theorem defs_relayoutBlock : (relayoutBlock layout blk).defs = blk.defs :=
  (phiMap_relayoutInst layout).flatMap_dests _

theorem defs_relayout_sublist (hl : LaysOutReached f layout) : (relayout f layout).defs.Sublist f.defs := by
  have hdefs : (relayout f layout).defs =
      layout.flatMap fun b ↦ (blockAt f b).insts.flatMap MirInst.dests := by
    rw [MirFunc.defs, relayout, List.flatMap_map]
    exact List.flatMap_congr fun b _ ↦ (phiMap_relayoutInst layout).flatMap_dests _
  have hdefs' : f.defs =
      (List.range f.blocks.length).flatMap fun b ↦ (blockAt f b).insts.flatMap MirInst.dests := by
    rw [MirFunc.defs]
    conv_lhs => rw [blocks_eq_map f]
    rw [List.flatMap_map]
  rw [hdefs, hdefs']
  exact hl.sublist.flatMap _

theorem availEndIn_relayout (hl : LaysOutReached f layout) (hb : b ∈ layout)
    (h : f.AvailEndIn (· = f.entry) b v) :
    (relayout f layout).AvailEndIn (· = (relayout f layout).entry) (layout.idxOf b) v := by
  rcases h with hv | ⟨q, blk, hdom, hq, hv⟩
  · exact .inl fun hd ↦ hv ((defs_relayout_sublist hl).subset hd)
  · exact .inr ⟨_, _, hl.dom hb hdom, relayout_block? (hl.dom_mem hb hdom) hq, by rwa [defs_relayoutBlock]⟩

theorem availIn_relayout (hl : LaysOutReached f layout) (hb : b ∈ layout)
    (h : f.AvailIn (· = f.entry) b pre v) :
    (relayout f layout).AvailIn (· = (relayout f layout).entry) (layout.idxOf b)
      (pre.map (relayoutInst layout)) v := by
  rcases h with hv | hv | ⟨q, blk, hqb, hdom, hq, hv⟩
  · exact .inl fun hd ↦ hv ((defs_relayout_sublist hl).subset hd)
  · exact .inr (.inl (by rwa [(phiMap_relayoutInst layout).flatMap_dests]))
  · have hmem := hl.dom_mem hb hdom
    refine .inr (.inr ⟨_, _, fun h ↦ hqb ((List.idxOf_inj hmem).1 h), hl.dom hb hdom,
      relayout_block? hmem hq, ?_⟩)
    rwa [defs_relayoutBlock]

theorem count_map_idxOf {l : List BlockId} (hl : ∀ x ∈ l, x ∈ layout) (b : BlockId) :
    (l.map layout.idxOf).count (layout.idxOf b) = l.count b := by
  induction l with
  | nil => rfl
  | cons x l ih =>
    rw [List.map_cons, List.count_cons, List.count_cons, ih fun y hy ↦ hl y (List.mem_cons_of_mem _ hy)]
    have hx := hl x List.mem_cons_self
    by_cases hxb : x = b
    · simp [hxb]
    · have hne : layout.idxOf x ≠ layout.idxOf b := fun h ↦ hxb ((List.idxOf_inj hx).1 h)
      simp [hxb, hne]

/-- The incomings kept are the edges kept. -/
theorem count_relayoutInst (hf : WellFormed f) (hl : LaysOutReached f layout)
    (hblk : f.block? b = some blk) {d : ValueId} {ty : MirTy} {args : List (BlockId × ValueId)}
    (hi : MirInst.phi d ty args ∈ blk.insts) (k : BlockId) :
    ((sortArgs ((args.filter (·.1 ∈ layout)).map fun a ↦ (layout.idxOf a.1, a.2))).map Prod.fst).count k =
      ((relayout f layout).succsOf k).count (layout.idxOf b) := by
  have hfst : ((args.filter (·.1 ∈ layout)).map fun a ↦ (layout.idxOf a.1, a.2)).map Prod.fst =
      ((args.map Prod.fst).filter (· ∈ layout)).map layout.idxOf := by
    rw [List.filter_map, List.map_map, List.map_map]
    rfl
  have hperm : ((sortArgs ((args.filter (·.1 ∈ layout)).map fun a ↦ (layout.idxOf a.1, a.2))).map Prod.fst).Perm
      (((args.map Prod.fst).filter (· ∈ layout)).map layout.idxOf) :=
    hfst ▸ (List.perm_insertionSort _ _).map Prod.fst
  have hmem : ∀ x ∈ (args.map Prod.fst).filter (· ∈ layout), x ∈ layout := fun x hx ↦
    of_decide_eq_true (List.mem_filter.1 hx).2
  rw [hperm.count_eq]
  by_cases hk : ∃ q ∈ layout, layout.idxOf q = k
  · obtain ⟨q, hq, rfl⟩ := hk
    obtain ⟨qb, hqb⟩ := hl.exists_block hq
    rw [count_map_idxOf hmem, List.count_filter (by simpa using hq), hf.count_args hblk hi,
      MirFunc.succsOf_eq hqb, MirFunc.succsOf_eq (relayout_block? hq hqb), LaysOutReached.succs_relayoutBlock,
      count_map_idxOf fun x hx ↦ hl.succ_mem hq ⟨qb, hqb, hx⟩]
  · have hnone : (relayout f layout).succsOf k = [] := by
      unfold MirFunc.succsOf
      cases hkb : (relayout f layout).block? k with
      | none => rfl
      | some blk' =>
        obtain ⟨q, -, hq, hidx, -⟩ := hl.exists_of_block? hkb
        exact absurd ⟨q, hq, hidx⟩ hk
    rw [hnone, List.count_nil, List.count_eq_zero]
    intro hx
    obtain ⟨q, hq, hidx⟩ := List.mem_map.1 hx
    exact hk ⟨q, hmem q hq, hidx⟩

theorem wellFormed_relayout (hf : WellFormed f) (hl : LaysOutReached f layout) :
    WellFormed (relayout f layout) := by
  have hmem : ∀ {blk'}, blk' ∈ (relayout f layout).blocks → ∃ b blk, b ∈ layout ∧ f.block? b = some blk ∧
      relayoutBlock layout blk = blk' := fun hb ↦ by
    obtain ⟨k, hk⟩ := List.mem_iff_getElem?.1 hb
    obtain ⟨b, blk, hbl, -, hblk, heq⟩ := hl.exists_of_block? hk
    exact ⟨b, blk, hbl, hblk, heq⟩
  refine ⟨LaysOutReached.idxOf_lt hl.entry_mem, fun {k blk'} hk ↦ ?_, fun c hc ↦ ?_, fun c hc ↦ ?_,
    hf.defsNodup.sublist (defs_relayout_sublist hl),
    fun d hd ↦ hf.defsLt d ((defs_relayout_sublist hl).subset hd), fun c hc i hi ↦ ?_, fun c hc s hs ↦ ?_⟩
  · obtain ⟨b, blk, -, hidx, hblk, rfl⟩ := hl.exists_of_block? hk
    have hid : blk.id = b := hf.id hblk
    rw [← hidx, ← hid]
    rfl
  · obtain ⟨b, blk, -, hblk, rfl⟩ := hmem hc
    obtain ⟨t, ht⟩ := hf.term blk (List.mem_of_getElem? hblk)
    exact ⟨t.mapTargets layout.idxOf, by rw [relayoutBlock, ht]; rfl⟩
  · obtain ⟨b, blk, -, hblk, rfl⟩ := hmem hc
    have h := phisFirst_rewire (phiMap_relayoutInst layout) (fun _ ↦ true)
      (hf.insts blk (List.mem_of_getElem? hblk))
    rw [List.filter_true] at h
    exact h
  · obtain ⟨b, blk, hb, hblk, rfl⟩ := hmem hc
    obtain ⟨j, hj, rfl⟩ := List.mem_map.1 hi
    have hcheck := hf.checked blk (List.mem_of_getElem? hblk) j hj
    have hid : blk.id = b := hf.id hblk
    rw [checkInst_relayout]
    cases j with
    | phi d ty args =>
      obtain ⟨hty, hspec, -, hargs⟩ := checkPhi_eq_ok.1 hcheck
      refine checkPhi_eq_ok.2 ⟨hty, hspec, List.perm_iff_count.2 fun k ↦ ?_, fun a ha ↦ ?_⟩
      · rw [count_relayoutInst hf hl hblk hj, count_preds]
        · rw [relayoutBlock, hid]
        · intro k' c' hc'
          obtain ⟨b', blk', -, hidx, hblk', rfl⟩ := hl.exists_of_block? hc'
          have hid' : blk'.id = b' := hf.id hblk'
          rw [← hidx, ← hid']
          rfl
      · rw [sortArgs, List.mem_insertionSort] at ha
        obtain ⟨e, he, rfl⟩ := List.mem_map.1 ha
        exact hargs e (List.mem_filter.1 he).1
    | _ => exact hcheck
  · obtain ⟨b, blk, hb, hblk, rfl⟩ := hmem hc
    rw [LaysOutReached.succs_relayoutBlock] at hs
    obtain ⟨x, hx, rfl⟩ := List.mem_map.1 hs
    exact LaysOutReached.idxOf_lt (hl.succ_mem hb ⟨blk, hblk, hx⟩)

theorem ordered_relayout (hf : Accepted f) (hl : LaysOutReached f layout) : (relayout f layout).Ordered := by
  have hphi := phiMap_relayoutInst layout
  refine ⟨fun {pre' i' post'} hsplit d hd hseen ↦ ?_, fun {pre' i' post'} hsplit hnphi o ho ↦ ?_⟩
  · obtain ⟨b, blk, u, i, w, pre, post, -, -, -, rfl, hsplit', hsub, -⟩ := hl.exists_of_insts hf.wf hsplit
    rw [hphi.dests] at hd
    refine hf.ordered.fresh hsplit' d hd ?_
    exact List.mem_append.2 ((List.mem_append.1 hseen).imp_right (hsub d))
  · obtain ⟨b, blk, u, i, w, pre, post, hb, hblk, hinsts, rfl, hsplit', -, hu, hkeep⟩ :=
      hl.exists_of_insts hf.wf hsplit
    rw [hphi.isPhi] at hnphi
    rw [hphi.other i hnphi] at ho
    have hseen := hf.ordered.operands hsplit' hnphi o ho
    refine List.mem_append.2 ((List.mem_append.1 hseen).imp_right fun hpre ↦ ?_)
    -- what is read is defined in a block that dominates, and so is laid out
    rcases hf.dom.inst hblk hinsts hnphi o ho with hno | hou | ⟨q, blk', hqb, hdom, hq, hoq⟩
    · refine absurd ?_ hno
      obtain ⟨j, hj, hoj⟩ := List.mem_flatMap.1 hpre
      have hj' : j ∈ f.insts := hsplit' ▸ List.mem_append_left _ hj
      obtain ⟨c, hc, hjc⟩ := List.mem_flatMap.1 hj'
      exact List.mem_flatMap.2 ⟨c, hc, List.mem_flatMap.2 ⟨j, hjc, hoj⟩⟩
    · exact hu o hou
    · exact hkeep q blk' o (hl.dom_mem hb hdom) hqb hq hoq hpre

/-- **Renumbering keeps a function accepted.** -/
theorem accepted_relayout (hf : Accepted f) (hl : LaysOutReached f layout) :
    Accepted (relayout f layout) := by
  have hphi := phiMap_relayoutInst layout
  refine ⟨wellFormed_relayout hf.wf hl, ordered_relayout hf hl, (verifyParams_relayout _).trans hf.params,
    fun c hc ↦ ?_, fun {k blk' pre' i' post'} hk hsplit hnphi o ho ↦ ?_,
    fun {k blk' d ty args'} hk hi a ha ↦ ?_,
    fun {k blk' t'} hk ht' o ho ↦ ?_⟩
  · obtain ⟨k, hk⟩ := List.mem_iff_getElem?.1 hc
    obtain ⟨b, blk, -, -, hblk, rfl⟩ := hl.exists_of_block? hk
    obtain ⟨t, ht⟩ := hf.wf.term blk (List.mem_of_getElem? hblk)
    rw [relayoutBlock, ht]
    exact (verifyTerm_mapTargets layout.idxOf t).trans (hf.verifyTerm hblk ht)
  · obtain ⟨b, blk, hb, rfl, hblk, rfl⟩ := hl.exists_of_block? hk
    obtain ⟨u, iw, hinsts, rfl, hiw⟩ := List.map_eq_append_iff.1 hsplit
    obtain ⟨i, w, rfl, rfl, rfl⟩ := List.map_eq_cons_iff.1 hiw
    rw [hphi.isPhi] at hnphi
    rw [hphi.other i hnphi] at ho
    exact availIn_relayout hl hb (hf.dom.inst hblk hinsts hnphi o ho)
  · obtain ⟨b, blk, hb, rfl, hblk, rfl⟩ := hl.exists_of_block? hk
    obtain ⟨j, hj, hji⟩ := List.mem_map.1 hi
    cases j with
    | phi d₀ ty₀ args =>
      obtain ⟨-, -, rfl⟩ := MirInst.phi.inj hji
      rw [sortArgs, List.mem_insertionSort] at ha
      obtain ⟨e, he, rfl⟩ := List.mem_map.1 ha
      obtain ⟨he, hel⟩ := List.mem_filter.1 he
      exact availEndIn_relayout hl (of_decide_eq_true hel) (hf.dom.phi hblk hj e he)
    | _ => cases hji
  · obtain ⟨b, blk, hb, rfl, hblk, rfl⟩ := hl.exists_of_block? hk
    obtain ⟨t, ht, rfl⟩ := Option.map_eq_some_iff.1 ht'
    rw [Terminator.operands_mapTargets] at ho
    exact availEndIn_relayout hl hb (hf.dom.term hblk ht o ho)

end

/-! ### All of it -/

section
variable {fuel : ℕ} {order reach stack out : List BlockId} {g : MirFunc}

/-- What the search finds is reached. -/
theorem reachLoop_sound (h : reachLoop f fuel stack reach = some out) (hstack : ∀ b ∈ stack, f.Reached b)
    (hreach : ∀ b ∈ reach, f.Reached b) : ∀ b ∈ out, f.Reached b := by
  induction fuel generalizing stack reach with
  | zero =>
    cases stack with
    | nil =>
      rw [reachLoop] at h
      cases h
      exact hreach
    | cons b stack => cases h
  | succ n ih =>
    cases stack with
    | nil =>
      rw [reachLoop] at h
      cases h
      exact hreach
    | cons b stack =>
      obtain ⟨hb, hrest⟩ := List.forall_mem_cons.1 hstack
      unfold reachLoop at h
      split at h
      · exact ih h hrest hreach
      · refine ih h (fun x hx ↦ ?_) (List.forall_mem_cons.2 ⟨hb, hreach⟩)
        rcases List.mem_append.1 hx with hx | hx
        · exact Reached.of_edge hb (edge_iff.2 (List.mem_reverse.1 hx))
        · exact hrest x hx

/-- An order that lists what is reached is the layout, without the rest. -/
theorem laysOutReached_layoutOf (hreach : reachLoop f fuel [f.entry] [] = some reach)
    (horder : order.Sublist (List.range f.blocks.length)) (hall : ∀ b, f.Reached b → b ∈ order) :
    LaysOutReached f (layoutOf f order reach) := by
  obtain ⟨hstart, hclosed⟩ := reachLoop_closed hreach (by simp)
  have hsound : ∀ b ∈ reach, f.Reached b := reachLoop_sound hreach
    (fun b hb ↦ by rw [List.mem_singleton.1 hb]; exact ⟨_, .start rfl⟩) (by simp)
  have hcomplete : ∀ b, f.Reached b → b ∈ reach := by
    rintro b ⟨l, hw⟩
    induction hw with
    | start ha => exact hstart _ (.inr (by rw [ha]; exact List.mem_singleton_self _))
    | step _ he ih => exact hclosed _ ih _ (edge_iff.1 he)
  have hfold : ∀ bs : List MirBlock, bs.foldl (fun layout b ↦
      if b.id ∈ reach ∧ b.id ∉ layout then layout ++ [b.id] else layout) (order.filter (· ∈ reach)) =
        order.filter (· ∈ reach) := by
    intro bs
    induction bs with
    | nil => rfl
    | cons b bs ih =>
      have hmem : ¬(b.id ∈ reach ∧ b.id ∉ order.filter (· ∈ reach)) := fun h ↦
        h.2 (List.mem_filter.2 ⟨hall _ (hsound _ h.1), decide_eq_true h.1⟩)
      rw [List.foldl_cons, if_neg hmem, ih]
  rw [layoutOf, hfold]
  refine ⟨List.filter_sublist.trans horder, fun b ↦ ?_⟩
  rw [List.mem_filter, decide_eq_true_eq]
  exact ⟨fun h ↦ hsound b h.2, fun h ↦ ⟨hall b h, hcomplete b h⟩⟩

theorem Accepted.foldl_tidyArms (hf : Accepted f) (l : List BlockId) : Shrunk f (l.foldl Mir.tidyArms f) := by
  induction l generalizing f with
  | nil => exact .refl hf
  | cons b l ih =>
    have hb := hf.tidyArms b
    exact hb.trans (ih hb.accepted)

/-- **A tidied function is accepted, and all its blocks are reached.** -/
theorem accepted_of_tidy (hf : Accepted f) (h : tidy fuel f order = some g)
    (horder : order.Sublist (List.range f.blocks.length)) (hall : ∀ b, f.Reached b → b ∈ order) :
    Accepted g ∧ ∀ b < g.blocks.length, g.Reached b := by
  obtain ⟨f₂, hf₂, hg⟩ := Option.bind_eq_some_iff.1 h
  obtain ⟨reach, hreach, rfl⟩ := Option.map_eq_some_iff.1 hg
  have harms := hf.foldl_tidyArms (List.range f.blocks.length)
  have hI : ∀ g, Shrunk f g → Shrunk f (threadSweep g).1 := fun g hg ↦ hg.trans hg.accepted.threadSweep
  obtain ⟨s, hs, -, rfl⟩ := repeatUntil_spec hI harms hf₂
  have hshrunk := hI s hs
  have horder' : order.Sublist (List.range (threadSweep s).1.blocks.length) := by rwa [hshrunk.length]
  have hl := laysOutReached_layoutOf hreach horder' fun b hb ↦ hall b (hshrunk.reached b hb)
  refine ⟨accepted_relayout hshrunk.accepted hl, fun k hk ↦ ?_⟩
  obtain ⟨b, blk, hb, rfl, -, -⟩ := hl.exists_of_block? (List.getElem?_eq_getElem hk)
  exact hl.reached_relayout ((hl.reached b).1 hb)

end

end CoilLang.Mir
