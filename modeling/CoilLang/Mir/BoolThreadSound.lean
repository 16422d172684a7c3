import CoilLang.Mir.BoolThread
import CoilLang.Mir.Rewire
import CoilLang.Mir.Visits

/-!
# Threading jumps over bool φs is correct

Threading one edge is a step of its own. The new run goes from the predecessor to the arm that the join would
choose; the old one goes there through the join, and has then written its φ. Nobody else reads that value, so
**the runs agree but for this one word** (`EqOff`, `ThreadRel`).

The checks of the compiler still pass: the join is skipped, but it defines nothing that is read outside, and
what its arms take from the join is there at the end of every predecessor.
-/

namespace CoilLang.Mir

variable {σ π : Type}

/-! ### Memories that differ in one word -/

/-- The same memory but for the word of `c`. -/
structure EqOff (c : ValueId) (m m' : Mem σ) : Prop where
  world : m.world = m'.world
  trace : m.trace = m'.trace
  env : ∀ v, v ≠ c → m.env v = m'.env v

namespace EqOff

variable {c : ValueId} {m m' : Mem σ} {W : World σ π} {is phis : List MirInst} {pred : Option BlockId}
  {env env' : Env} {b : BlockId} {t : Option Terminator}

theorem trans {m'' : Mem σ} (h : EqOff c m m') (h' : EqOff c m' m'') : EqOff c m m'' :=
  ⟨h.world.trans h'.world, h.trace.trans h'.trace, fun v hv ↦ (h.env v hv).trans (h'.env v hv)⟩

theorem finish (hm : EqOff c m m') (o : Outcome π) : m.finish o = m'.finish o := by
  rw [Mem.finish, Mem.finish, hm.world, hm.trace]

theorem execBody (his : ∀ i ∈ is, c ∉ i.operands) (hm : EqOff c m m') :
    ResRel (EqOff c) (execBody W is m) (execBody W is m') := by
  induction is generalizing m m' with
  | nil => exact hm
  | cons i is ih =>
    have heval : evalInst W i m'.env m'.world m'.trace = evalInst W i m.env m.world m.trace := by
      rw [← hm.world, ← hm.trace]
      refine evalInst_congr fun v hv ↦ (hm.env v ?_).symm
      rintro rfl
      exact his i List.mem_cons_self hv
    simp only [Mir.execBody, execInst, heval]
    cases hev : evalInst W i m.env m.world m.trace with
    | error r => rfl
    | ok p =>
      refine ih (fun j hj ↦ his j (List.mem_cons_of_mem _ hj)) ⟨rfl, rfl, fun v hv ↦ ?_⟩
      by_cases hd : v ∈ i.dests
      · exact Env.write_of_mem hd
      · show m.env.write i.dest i.hi p.1 v = m'.env.write i.dest i.hi p.1 v
        rw [Env.write_of_notMem hd, Env.write_of_notMem hd]
        exact hm.env v hv

/-- The φs write the same words; theirs agree even if `c` did not before. -/
theorem enter (hphis : ∀ i ∈ phis, c ∉ i.operands) (hready : ready pred phis = true)
    (henv : ∀ v, v ≠ c → env v = env' v) {v : ValueId} (hv : v ≠ c ∨ ∃ i ∈ phis, i.dest = v) :
    enter pred phis env v = enter pred phis env' v := by
  unfold Mir.enter
  cases hf : phis.find? (·.dest = v) with
  | none =>
    refine henv v (hv.resolve_right ?_)
    rintro ⟨i, hi, hiv⟩
    have := List.find?_eq_none.1 hf i hi
    simp [hiv] at this
  | some i =>
    have hi := List.mem_of_find?_eq_some hf
    obtain ⟨a, ha⟩ := Option.isSome_iff_exists.1 (List.all_eq_true.1 hready i hi)
    simp only [Option.bind_some, ha]
    refine henv a ?_
    rintro rfl
    exact hphis i hi (phiArg_mem_operands ha)

theorem execTerm (hm : EqOff c m m') (ht : ∀ t', t = some t' → c ∉ t'.operands) :
    StepRel (fun s u ↦ s.block = u.block ∧ s.pred = u.pred ∧ EqOff c s.mem u.mem)
      (execTerm (π := π) b m t) (execTerm b m' t) := by
  rcases t with _ | d | ⟨x, t, n⟩ | ⟨lo, hi⟩ | _
  · exact hm.finish _
  · exact ⟨rfl, rfl, hm⟩
  · have hx : m.env x = m'.env x := hm.env x fun h ↦ ht _ rfl (by simp [Terminator.operands, h])
    exact ⟨by rw [hx], rfl, hm⟩
  · have hlo : lo.map m.env = lo.map m'.env :=
      Option.map_congr fun v hv ↦ hm.env v fun h ↦ ht _ rfl (by simp [Terminator.operands, ← h, hv])
    have hhi : hi.map m.env = hi.map m'.env :=
      Option.map_congr fun v hv ↦ hm.env v fun h ↦ ht _ rfl (by simp [Terminator.operands, ← h, hv])
    show m.finish _ = m'.finish _
    rw [hlo, hhi, hm.finish]
  · exact hm.finish _

end EqOff

/-! ### Where a predecessor goes instead -/

namespace BoolJoin

variable {J : BoolJoin} {f : MirFunc} {known : Option Bool} {v : ValueId} {t₀ t : Terminator}
  {targets : List BlockId}

/-- The arm for a word of the φ. -/
def armOf (J : BoolJoin) (w : Word) : BlockId := if w = 0 then J.notTaken else J.taken

theorem armOf_word (J : BoolJoin) (k : Bool) : J.armOf (MirConst.bool k).word = J.arm k := by
  cases k <;> rfl

theorem armOf_mem_singleton (J : BoolJoin) {k : Bool} (w : Word)
    (h : ∀ k', some k = some k' → w = (MirConst.bool k').word) : J.armOf w ∈ [J.arm k] := by
  rw [h k rfl, armOf_word]
  exact List.mem_singleton_self _

/-- The terminator `t` goes where `t₀` went, and past the join to its arm for the word of `v`. -/
structure Rerouted (J : BoolJoin) (known : Option Bool) (v : ValueId) (t₀ t : Terminator)
    (targets : List BlockId) : Prop where
  arms : ∀ x ∈ targets, x = J.taken ∨ x = J.notTaken
  nodup : targets.Nodup
  lands : ∀ w, (∀ k, known = some k → w = (MirConst.bool k).word) → J.armOf w ∈ targets
  fresh : ∀ x ∈ targets, x ∉ t₀.succs
  join : t₀.succs.count J.block = 1
  leaves : J.block ∉ t.succs
  count : ∀ x, x ≠ J.block → t.succs.count x = t₀.succs.count x + targets.count x
  operands : ∀ o ∈ t.operands, o ∈ t₀.operands ∨ o = v
  verify : ∀ f : MirFunc, f.ty v = .bool → f.verifyTerm t₀ = .ok () → f.verifyTerm t = .ok ()
  exec : ∀ {σ π : Type} {p : BlockId} {m : Mem σ},
    (∀ k, known = some k → m.env v = (MirConst.bool k).word) →
      execTerm (π := π) p m (some t) = (execTerm p m (some t₀)).map
        (fun s ↦ { s with block := if s.block = J.block then J.armOf (m.env v) else s.block }) id

theorem arm_ne (J : BoolJoin) (k : Bool) : J.arm k ≠ J.block := by
  cases k
  · exact J.notTaken_ne
  · exact J.taken_ne

theorem arm_eq (J : BoolJoin) (k : Bool) : J.arm k = J.taken ∨ J.arm k = J.notTaken := by
  cases k
  · exact .inr rfl
  · exact .inl rfl

theorem rerouted_jump_known (k : Bool) :
    J.Rerouted (some k) v (.jump J.block) (.jump (J.arm k)) [J.arm k] := by
  have hne := J.arm_ne k
  refine ⟨fun x hx ↦ List.mem_singleton.1 hx ▸ J.arm_eq k, List.nodup_singleton _,
    J.armOf_mem_singleton, fun x hx ↦ ?_, by simp [Terminator.succs], ?_, fun x hx ↦ ?_,
    fun o ho ↦ (by cases ho),
    fun f _ _ ↦ rfl, fun hk ↦ ?_⟩
  · rw [List.mem_singleton.1 hx, Terminator.succs, List.mem_singleton]
    exact hne
  · rw [Terminator.succs, List.mem_singleton]
    exact hne.symm
  · simp [Terminator.succs, List.count_singleton, Ne.symm hx]
  · simp [execTerm, hk k rfl, armOf_word]

theorem rerouted_jump :
    J.Rerouted none v (.jump J.block) (.br v J.taken J.notTaken) [J.taken, J.notTaken] := by
  refine ⟨fun x hx ↦ by simpa using hx, by simpa using J.ne, fun w _ ↦ ?_, fun x hx ↦ ?_,
    by simp [Terminator.succs], ?_, fun x hx ↦ ?_,
    fun o ho ↦ .inr (by simpa [Terminator.operands] using ho), fun f hv _ ↦ ?_, fun _ ↦ ?_⟩
  · unfold armOf
    split <;> simp
  · rw [Terminator.succs, List.mem_singleton]
    rcases List.mem_pair.1 hx with rfl | rfl
    · exact J.taken_ne
    · exact J.notTaken_ne
  · simp [Terminator.succs, J.taken_ne.symm, J.notTaken_ne.symm]
  · simp [Terminator.succs, List.count_cons, Ne.symm hx]
  · rw [MirFunc.verifyTerm, ensure_eq_ok]
    exact decide_eq_true hv
  · simp [execTerm, armOf]

/-- A branch with one arm into the join, on a value the join knows. -/
theorem rerouted_br {c : ValueId} {a n : BlockId} (k : Bool) (hone : (a = J.block) ≠ (n = J.block))
    (hother : (if a = J.block then n else a) ≠ J.arm k) :
    J.Rerouted (some k) v (.br c a n)
      (if a = J.block then .br c (J.arm k) n else .br c a (J.arm k)) [J.arm k] := by
  have hne := J.arm_ne k
  by_cases ha : a = J.block
  · have hn : n ≠ J.block := fun hn ↦ hone (by simp [ha, hn])
    rw [if_pos ha] at hother ⊢
    subst ha
    refine ⟨fun x hx ↦ List.mem_singleton.1 hx ▸ J.arm_eq k, List.nodup_singleton _,
      J.armOf_mem_singleton, fun x hx ↦ ?_, ?_, ?_, fun x hx ↦ ?_, fun o ho ↦ .inl ho, fun f _ h ↦ h,
      fun hk ↦ ?_⟩
    · rw [List.mem_singleton.1 hx]
      simp [Terminator.succs, hne, hother.symm]
    · simp [Terminator.succs, hn]
    · simp [Terminator.succs, hne.symm, hn.symm]
    · simp [Terminator.succs, List.count_cons, Ne.symm hx]
    · simp only [execTerm, Sum.map_inl]
      split
      · simp
      · simp [hk k rfl, armOf_word]
  · have hn : n = J.block := by
      by_contra hn
      exact hone (by simp [ha, hn])
    rw [if_neg ha] at hother ⊢
    subst hn
    refine ⟨fun x hx ↦ List.mem_singleton.1 hx ▸ J.arm_eq k, List.nodup_singleton _,
      J.armOf_mem_singleton, fun x hx ↦ ?_, ?_, ?_, fun x hx ↦ ?_, fun o ho ↦ .inl ho, fun f _ h ↦ h,
      fun hk ↦ ?_⟩
    · rw [List.mem_singleton.1 hx]
      simp [Terminator.succs, hne, hother.symm]
    · simp [Terminator.succs, ha]
    · simp [Terminator.succs, hne.symm, Ne.symm ha]
    · simp [Terminator.succs, List.count_cons, Ne.symm hx, Nat.add_comm]
    · simp only [execTerm, Sum.map_inl]
      split
      · simp [hk k rfl, armOf_word]
      · simp

/-- **What a predecessor does instead of going into the join.** -/
theorem reroute_eq_some {t? : Option Terminator} (h : J.reroute f known v t? = some (t, targets)) :
    ∃ t₀, t? = some t₀ ∧ J.Rerouted known v t₀ t targets := by
  rcases t? with _ | d | ⟨c, a, n⟩ | ⟨lo, hi⟩ | _
  · cases h
  · unfold reroute at h
    dsimp only at h
    by_cases hd : d = J.block
    · rw [if_pos hd] at h
      subst hd
      refine ⟨_, rfl, ?_⟩
      cases known with
      | some k =>
        obtain ⟨rfl, rfl⟩ := Prod.mk.inj (Option.some.inj h)
        exact rerouted_jump_known k
      | none =>
        dsimp only at h
        by_cases hphis : f.phisOf J.taken ≠ [] ∨ f.phisOf J.notTaken ≠ []
        · rw [if_pos hphis] at h
          cases h
        · rw [if_neg hphis] at h
          obtain ⟨rfl, rfl⟩ := Prod.mk.inj (Option.some.inj h)
          exact rerouted_jump
    · rw [if_neg hd] at h
      cases h
  · unfold reroute at h
    cases known with
    | none => cases h
    | some k =>
      dsimp only at h
      by_cases hone : (a = J.block) ≠ (n = J.block)
      · rw [if_pos hone] at h
        by_cases hother : (if a = J.block then n else a) = J.arm k ∨ f.phisOf (J.arm k) ≠ []
        · rw [if_pos hother] at h
          cases h
        · rw [if_neg hother] at h
          obtain ⟨rfl, rfl⟩ := Prod.mk.inj (Option.some.inj h)
          exact ⟨_, rfl, rerouted_br k hone fun e ↦ hother (.inl e)⟩
      · rw [if_neg hone] at h
        cases h
  · cases h
  · cases h

/-! ### The join -/

/-- The join with the incomings of its φ, whose value nothing else reads. -/
structure JoinAt (J : BoolJoin) (f : MirFunc) (args : List (BlockId × ValueId)) : Prop where
  block : f.block? J.block =
    some ⟨J.block, [.phi J.cond .bool args], some (.br J.cond J.taken J.notTaken)⟩
  entry : J.block ≠ f.entry
  insts : ∀ {x blk i}, f.block? x = some blk → i ∈ blk.insts → J.cond ∉ i.operands
  terms : ∀ {x blk t}, f.block? x = some blk → x ≠ J.block → blk.term = some t → J.cond ∉ t.operands

/-- How the instructions of block `x` change. -/
def redirectInst (J : BoolJoin) (p : BlockId) (targets : List BlockId) (x : BlockId) : MirInst → MirInst :=
  if x ∈ targets then pushArg J.block p else if x = J.block then dropArg p else id

theorem Rerouted.notMem (hr : J.Rerouted known v t₀ t targets) : J.block ∉ targets := fun h ↦ by
  rcases hr.arms _ h with h | h
  · exact J.taken_ne h.symm
  · exact J.notTaken_ne h.symm

theorem phiMap_redirectInst (J : BoolJoin) (p : BlockId) (targets : List BlockId) (x : BlockId) :
    PhiMap (J.redirectInst p targets x) := by
  unfold redirectInst
  split
  · exact phiMap_pushArg _ _
  · split
    · exact phiMap_dropArg _
    · exact phiMap_id

/-- The redirected function as a rewiring. -/
def rewired (J : BoolJoin) (p : BlockId) (t : Terminator) (targets : List BlockId) (f : MirFunc) : MirFunc :=
  f.rewire (fun _ _ ↦ true) (J.redirectInst p targets) fun x t₀ ↦ if x = p then some t else t₀

theorem redirect_eq {args : List (BlockId × ValueId)} {p : BlockId} (hid : Tidied f) (hJ : J.JoinAt f args)
    (hr : J.Rerouted known v t₀ t targets) (hp : p ≠ J.block) :
    J.redirect p t targets f = J.rewired p t targets f := by
  obtain ⟨hfields, hblock⟩ := foldl_modifyBlock (MirBlock.mapInsts (pushArg J.block p))
    (f.modifyBlock p (MirBlock.setTerm t)) hr.nodup
  refine eq_rewire hid.id ?_ fun x ↦ ?_
  · unfold redirect
    rw [hfields]
    rfl
  · unfold redirect
    rw [MirFunc.block?_modifyBlock, hblock, MirFunc.block?_modifyBlock]
    simp only [List.filter_true]
    by_cases hxJ : x = J.block
    · subst hxJ
      rw [if_pos rfl, if_neg hr.notMem, if_neg hp, hJ.block]
      simp [redirectInst, hr.notMem, hp.symm]
    · rw [if_neg (Ne.symm hxJ)]
      cases hx : f.block? x with
      | none => simp
      | some q =>
        by_cases hxt : x ∈ targets <;> by_cases hxp : p = x
        · simp [redirectInst, hxt, hxp, MirBlock.mapInsts, MirBlock.setTerm]
        · simp [redirectInst, hxt, hxp, Ne.symm hxp, MirBlock.mapInsts]
        · simp [redirectInst, hxt, hxJ, hxp, MirBlock.setTerm]
        · simp [redirectInst, hxt, hxJ, hxp, Ne.symm hxp]

section
variable {args : List (BlockId × ValueId)} {p : BlockId} {pb : MirBlock}

theorem block?_rewired (hid : Tidied f) (x : BlockId) : (J.rewired p t targets f).block? x =
    (f.block? x).map fun q ↦
      ⟨q.id, q.insts.map (J.redirectInst p targets x), if x = p then some t else q.term⟩ := by
  rw [rewired, block?_rewire hid.id]
  simp only [List.filter_true]

theorem succsOf_rewired (hid : Tidied f) (hpb : f.block? p = some pb) (x : BlockId) :
    (J.rewired p t targets f).succsOf x = if x = p then t.succs else f.succsOf x := by
  unfold MirFunc.succsOf
  rw [block?_rewired hid]
  by_cases hx : x = p
  · subst hx
    simp [hpb, MirBlock.succs]
  · cases f.block? x with
    | none => simp [hx]
    | some q => simp [hx, MirBlock.succs]

/-- No incoming of the join brings its own value. -/
theorem JoinAt.ne_cond (hJ : J.JoinAt f args) (ha : (p, v) ∈ args) : v ≠ J.cond := fun h ↦
  hJ.insts hJ.block (List.mem_singleton_self _) (h ▸ List.mem_map_of_mem (f := Prod.snd) ha)

/-- The predecessor has one incoming. -/
theorem JoinAt.count_pred (hf : WellFormed f) (hJ : J.JoinAt f args) (hpb : f.block? p = some pb)
    (ht : pb.term = some t₀) (hr : J.Rerouted known v t₀ t targets) : (args.map Prod.fst).count p = 1 := by
  rw [hf.count_args hJ.block (List.mem_singleton_self _), MirFunc.succsOf_eq hpb, MirBlock.succs, ht]
  exact hr.join

/-- Only the value of the join is lost. -/
theorem JoinAt.not_lost (hJ : J.JoinAt f args) {o : ValueId} (ho : o ≠ J.cond) :
    ¬f.Lost (fun _ _ ↦ true) (· = J.block) o := by
  rintro ⟨x, blk, i, hx, hi, hoi, hk | rfl⟩
  · cases hk
  · obtain rfl := Option.some.inj (hJ.block.symm.trans hx)
    obtain rfl := List.mem_singleton.1 hi
    exact ho (List.mem_singleton.1 hoi)

/-- What an arm takes from the join is there in front of it. -/
theorem JoinAt.availEnd_pred {R : BlockId → Prop} (hJ : J.JoinAt f args) (hp : f.Edge p J.block) {o : ValueId}
    (ho : o ≠ J.cond) (h : f.AvailEndIn R J.block o) : f.AvailEndIn R p o := by
  refine h.imp_right ?_
  rintro ⟨q, blk, hdom, hq, hoq⟩
  refine ⟨q, blk, hdom.pred ?_ hp, hq, hoq⟩
  rintro rfl
  obtain rfl := Option.some.inj (hJ.block.symm.trans hq)
  exact ho (List.mem_singleton.1 hoq)

/-- **The redirected function is accepted.** -/
theorem accepted_rewired (hf : Accepted f) (hJ : J.JoinAt f args) (ha : (p, v) ∈ args) (hp : p ≠ J.block)
    (hpb : f.block? p = some pb) (ht : pb.term = some t₀) (hr : J.Rerouted known v t₀ t targets) :
    Accepted (J.rewired p t targets f) := by
  have hid := hf.wf.tidied
  have hsuccs : f.succsOf p = t₀.succs := by rw [MirFunc.succsOf_eq hpb, MirBlock.succs, ht]; rfl
  have hsuccsJ : f.succsOf J.block = [J.taken, J.notTaken] := MirFunc.succsOf_eq hJ.block
  have hpJ : f.Edge p J.block :=
    edge_iff.2 (hsuccs ▸ List.count_pos_iff.1 (by rw [hr.join]; exact Nat.one_pos))
  have harm : ∀ x ∈ targets, f.Edge J.block x := fun x hx ↦ edge_iff.2 <| by
    rw [hsuccsJ]
    simpa using hr.arms x hx
  have hcond : ∀ {x blk i o}, f.block? x = some blk → i ∈ blk.insts → o ∈ i.operands → o ≠ J.cond :=
    fun hx hi ho h ↦ hJ.insts hx hi (h ▸ ho)
  have hedge : ∀ a b, (J.rewired p t targets f).Edge a b →
      f.Edge a b ∨ ∃ s, s = J.block ∧ f.Edge a s ∧ f.Edge s b := by
    intro a b hab
    rw [edge_iff, succsOf_rewired hid hpb] at hab
    by_cases hap : a = p
    · rw [if_pos hap] at hab
      subst hap
      have hbJ : b ≠ J.block := fun h ↦ hr.leaves (h ▸ hab)
      have hcount : 0 < t₀.succs.count b + targets.count b := hr.count b hbJ ▸ List.count_pos_iff.2 hab
      rcases Nat.eq_zero_or_pos (targets.count b) with h0 | hpos
      · rw [h0, Nat.add_zero] at hcount
        exact .inl (edge_iff.2 (hsuccs ▸ List.count_pos_iff.1 hcount))
      · exact .inr ⟨_, rfl, hpJ, harm b (List.count_pos_iff.1 hpos)⟩
    · rw [if_neg hap] at hab
      exact .inl (edge_iff.2 hab)
  have hroot : ∀ a, a = f.entry → ∃ l, Walk (· = f.entry) f.Edge a l ∧ ∀ x ∈ l, x = a ∨ x = J.block :=
    fun a ha ↦ ⟨[a], .start ha, fun _ hx ↦ .inl (List.mem_singleton.1 hx)⟩
  have hend : ∀ {x o}, o ≠ J.cond → f.AvailEndIn (· = f.entry) x o →
      (J.rewired p t targets f).AvailEndIn (· = f.entry) x o := fun ho hav ↦
    availEnd_rewire (J.phiMap_redirectInst p targets) hid.id hroot hedge (hJ.not_lost ho) hav
  refine AcceptedIn.rewire (· = J.block) hf (J.phiMap_redirectInst p targets) hroot hedge ?_ ?_ ?_
  · intro x blk i hx hi _ _ o ho
    exact hJ.not_lost (hcond hx hi ho)
  · intro x blk d ty args' hx hi _
    have hcount := hf.wf.count_args hx hi
    have hty : ∀ a ∈ args', f.ty a.2 = ty := (hf.wf.phi (List.mem_of_getElem? hx) hi).2.2
    have hold : ∀ a ∈ args', f.ty a.2 = ty ∧
        (J.rewired p t targets f).AvailEndIn (· = f.entry) a.1 a.2 := fun a ha ↦
      ⟨hty a ha, hend (hcond hx hi (List.mem_map_of_mem ha)) (hf.dom.phi hx hi a ha)⟩
    have hsame : ∀ q, q ≠ p → (J.rewired p t targets f).succsOf q = f.succsOf q := fun q hq ↦ by
      rw [succsOf_rewired hid hpb, if_neg hq]
    have hself : (J.rewired p t targets f).succsOf p = t.succs := by
      rw [succsOf_rewired hid hpb, if_pos rfl]
    by_cases hxt : x ∈ targets
    · -- an arm: its φs have an incoming from the join, and get the same one from `p`
      have hxJ : x ≠ J.block := fun h ↦ hr.notMem (h ▸ hxt)
      obtain ⟨a, hfind⟩ := hf.wf.exists_incoming hx hi (harm x hxt)
      have hamem := List.mem_of_find?_eq_some hfind
      have haJ : a.1 = J.block := by simpa using List.find?_some hfind
      refine ⟨sortArgs (args' ++ [(p, a.2)]), ?_, fun q ↦ ?_, fun e he ↦ ?_⟩
      · rw [redirectInst, if_pos hxt, pushArg, hfind]
      · show _ = ((J.rewired p t targets f).succsOf q).count x
        rw [count_pushArg, hcount]
        by_cases hq : q = p
        · subst hq
          rw [hself, hr.count x hxJ, hsuccs, if_pos rfl, List.count_eq_one_of_mem hr.nodup hxt]
        · rw [hsame q hq, if_neg hq, Nat.add_zero]
      · rw [sortArgs, List.mem_insertionSort, List.mem_append, List.mem_singleton] at he
        rcases he with he | rfl
        · exact hold e he
        · have hne := hcond hx hi (List.mem_map_of_mem hamem)
          have hav := hf.dom.phi hx hi a hamem
          rw [haJ] at hav
          exact ⟨hty a hamem, hend hne (hJ.availEnd_pred hpJ hne hav)⟩
    · by_cases hxJ : x = J.block
      · -- the join loses the incoming
        subst hxJ
        refine ⟨args'.filter (·.1 ≠ p), ?_, fun q ↦ ?_, fun e he ↦ hold e (List.mem_filter.1 he).1⟩
        · rw [redirectInst, if_neg hxt, if_pos rfl, dropArg]
        · show _ = ((J.rewired p t targets f).succsOf q).count J.block
          rw [count_dropArg, hcount]
          by_cases hq : q = p
          · subst hq
            rw [hself, if_pos rfl, List.count_eq_zero.2 hr.leaves]
          · rw [hsame q hq, if_neg hq]
      · refine ⟨args', ?_, fun q ↦ ?_, hold⟩
        · rw [redirectInst, if_neg hxt, if_neg hxJ, id]
        · show _ = ((J.rewired p t targets f).succsOf q).count x
          rw [hcount]
          by_cases hq : q = p
          · subst hq
            rw [hself, hr.count x hxJ, hsuccs, List.count_eq_zero.2 hxt, Nat.add_zero]
          · rw [hsame q hq]
  · intro x blk hx
    obtain ⟨t₁, ht₁⟩ := hf.wf.term blk (List.mem_of_getElem? hx)
    have hok : f.verifyTerm t₁ = .ok () := by
      have := hf.terms blk (List.mem_of_getElem? hx)
      rwa [ht₁] at this
    have hmem : ∀ {y s}, s ∈ f.succsOf y → s < f.blocks.length := by
      intro y s hs
      obtain ⟨c, hc, hsc⟩ := edge_iff.2 hs
      exact hf.wf.succs c (List.mem_of_getElem? hc) s hsc
    by_cases hxp : x = p
    · subst hxp
      obtain rfl : pb = blk := Option.some.inj (hpb.symm.trans hx)
      obtain rfl : t₀ = t₁ := Option.some.inj (ht.symm.trans ht₁)
      have hjphi : MirInst.phi J.cond .bool args ∈
          (⟨J.block, [.phi J.cond .bool args], some (.br J.cond J.taken J.notTaken)⟩ : MirBlock).insts :=
        List.mem_singleton_self _
      have hbool : f.ty v = .bool :=
        (hf.wf.phi (List.mem_of_getElem? hJ.block) hjphi).2.2 (x, v) ha
      refine ⟨t, if_pos rfl, hr.verify f hbool hok, fun s hs ↦ ?_, fun o ho ↦ ?_⟩
      · have hsg : s ∈ (J.rewired x t targets f).succsOf x := by rwa [succsOf_rewired hid hpb, if_pos rfl]
        rcases hedge x s (edge_iff.2 hsg) with he | ⟨y, -, -, he⟩
        · exact hmem (edge_iff.1 he)
        · exact hmem (edge_iff.1 he)
      · rcases hr.operands o ho with ho | rfl
        · exact hend (fun h ↦ hJ.terms hpb hp ht (h ▸ ho)) (hf.dom.term hpb ht o ho)
        · exact hend (hcond hJ.block hjphi (List.mem_map_of_mem (f := Prod.snd) ha))
            (hf.dom.phi hJ.block hjphi (x, o) ha)
    · refine ⟨t₁, by rw [if_neg hxp, ht₁], hok, fun s hs ↦ ?_, fun o ho ↦ ?_⟩
      · refine hmem (y := x) ?_
        rwa [MirFunc.succsOf_eq hx, MirBlock.succs, ht₁]
      · by_cases hoc : o = J.cond
        · -- only the join reads its value, and there it is still defined
          have hxJ : x = J.block := by
            by_contra hne
            exact hJ.terms hx hne ht₁ (hoc ▸ ho)
          subst hxJ hoc
          have hself : (J.rewired p t targets f).block? J.block = _ := block?_rewired hid J.block
          rw [hJ.block, Option.map_some] at hself
          refine .inr ⟨J.block, _, .refl _, hself, ?_⟩
          have hdest := (J.phiMap_redirectInst p targets J.block).flatMap_dests [.phi J.cond .bool args]
          rw [MirBlock.defs, hdest]
          exact List.mem_singleton_self _
        · exact hend hoc (hf.dom.term hx ht₁ o ho)

end

/-! ### The runs -/

/-- The new run has come to an arm straight from `p`, the old one through the join. -/
structure ThreadRel (J : BoolJoin) (f : MirFunc) (p : BlockId) (targets : List BlockId) (s u : State σ) :
    Prop where
  visits : Visits f s
  block : s.block = u.block
  mem : EqOff J.cond s.mem u.mem
  pred : (s.pred = u.pred ∧ ¬(s.block = J.block ∧ s.pred = some p)) ∨
    (s.block ∈ targets ∧ s.pred = some J.block ∧ u.pred = some p)

theorem find?_of_count_eq_one {args : List (BlockId × ValueId)} {p : BlockId} (ha : (p, v) ∈ args)
    (hone : (args.map Prod.fst).count p = 1) : args.find? (·.1 = p) = some (p, v) := by
  obtain ⟨l₁, l₂, rfl⟩ := List.append_of_mem ha
  rw [List.map_append, List.count_append, List.map_cons, List.count_cons_self] at hone
  have hnot : p ∉ l₁.map Prod.fst := List.count_eq_zero.1 (by omega)
  have hnone : l₁.find? (·.1 = p) = none := List.find?_eq_none.2 fun a ha hap ↦
    hnot (List.mem_map.2 ⟨a, ha, of_decide_eq_true hap⟩)
  rw [List.find?_append, hnone, Option.none_or, List.find?_cons_of_pos (by simp)]

section
variable {args : List (BlockId × ValueId)} {p : BlockId} {pb blk : MirBlock} {s u : State σ} {W : World σ π}
  (hf : Accepted f) (hJ : J.JoinAt f args) (hpb : f.block? p = some pb) (ht : pb.term = some t₀)
  (hr : J.Rerouted known v t₀ t targets)

include hf hpb ht hr in
/-- The φs read the same in both runs. -/
theorem ThreadRel.phiArg (h : ThreadRel J f p targets s u) (hb : f.block? s.block = some blk) :
    ∀ i ∈ blk.phis, Mir.phiArg u.pred (J.redirectInst p targets s.block i) = Mir.phiArg s.pred i := by
  have hfresh : s.block ∈ targets → s.block ∉ f.succsOf p := fun hmem ↦ by
    rw [MirFunc.succsOf_eq hpb, MirBlock.succs, ht]
    exact hr.fresh _ hmem
  intro i hi
  unfold redirectInst
  rcases h.pred with ⟨heq, hnot⟩ | ⟨hmem, hs, hu⟩
  · rw [← heq]
    split
    · -- there was no edge from `p` into an arm
      rename_i hmem
      refine phiArg_pushArg_of_ne (fun hp ↦ hfresh hmem ?_) i
      exact edge_iff.1 (h.visits.edge hp).1
    · split
      · rename_i hj
        exact phiArg_dropArg (fun hp ↦ hnot ⟨hj, hp⟩) i
      · rfl
  · rw [if_pos hmem, hs, hu]
    refine phiArg_pushArg_self hf.wf.tidied (hfresh hmem) ?_
    rw [MirFunc.phisOf_eq hb]
    exact hi

include hJ in
/-- The bodies do the same, and in the join its value is the same too. -/
theorem ThreadRel.body (h : ThreadRel J f p targets s u) (hb : f.block? s.block = some blk)
    (hready : ready s.pred blk.phis = true) :
    ResRel (fun m m' ↦ EqOff J.cond m m' ∧ (s.block = J.block → m.env J.cond = m'.env J.cond))
      (bodyOf W blk s) (bodyOf W blk ⟨s.block, s.pred, u.mem⟩) := by
  have hphis : ∀ i ∈ blk.phis, J.cond ∉ i.operands := fun i hi ↦ hJ.insts hb (List.mem_filter.1 hi).1
  have henter : ∀ {w}, (w ≠ J.cond ∨ ∃ i ∈ blk.phis, i.dest = w) →
      enter s.pred blk.phis s.mem.env w = enter s.pred blk.phis u.mem.env w := fun hw ↦
    EqOff.enter hphis hready h.mem.env hw
  have hstart : EqOff J.cond (⟨enter s.pred blk.phis s.mem.env, s.mem.world, s.mem.trace⟩ : Mem σ)
      ⟨enter s.pred blk.phis u.mem.env, u.mem.world, u.mem.trace⟩ :=
    ⟨h.mem.world, h.mem.trace, fun w hw ↦ henter (.inl hw)⟩
  by_cases hj : s.block = J.block
  · have hblk := hJ.block
    rw [← hj, hb] at hblk
    obtain rfl := Option.some.inj hblk
    exact ⟨hstart, fun _ ↦ henter (.inr ⟨_, List.mem_singleton_self _, rfl⟩)⟩
  · have hbody : ResRel (EqOff J.cond) (execBody W blk.body _) (execBody W blk.body _) :=
      EqOff.execBody (fun i hi ↦ hJ.insts hb (List.mem_filter.1 hi).1) hstart
    unfold bodyOf
    revert hbody
    cases execBody W blk.body ⟨enter s.pred blk.phis s.mem.env, s.mem.world, s.mem.trace⟩ with
    | error r =>
      cases execBody W blk.body ⟨enter s.pred blk.phis u.mem.env, u.mem.world, u.mem.trace⟩ with
      | error r' => exact id
      | ok m' => exact id
    | ok m =>
      cases execBody W blk.body ⟨enter s.pred blk.phis u.mem.env, u.mem.world, u.mem.trace⟩ with
      | error r' => exact id
      | ok m' => exact fun h ↦ ⟨h, fun hj' ↦ absurd hj' hj⟩

/-- Blocks other than the join do not read its value, and in the join it is the same. -/
theorem JoinAt.execTerm (hJ : J.JoinAt f args) {x : BlockId} (hb : f.block? x = some blk) {m m' : Mem σ}
    (hoff : EqOff J.cond m m') (hcond : x = J.block → m.env J.cond = m'.env J.cond) :
    StepRel (fun s u ↦ s.block = u.block ∧ s.pred = u.pred ∧ EqOff J.cond s.mem u.mem)
      (execTerm (π := π) x m blk.term) (execTerm x m' blk.term) := by
  by_cases hj : x = J.block
  · have hblk := hJ.block
    rw [← hj, hb] at hblk
    obtain rfl := Option.some.inj hblk
    exact ⟨by rw [hcond hj], rfl, hoff⟩
  · exact EqOff.execTerm hoff fun t' ht' ↦ hJ.terms hb hj ht'

include hpb ht hr in
/-- The new terminators leave a block as the old ones do, and from `p` past the join. -/
theorem exit_eq {x : BlockId} (hb : f.block? x = some blk) {m : Mem σ}
    (hword : x = p → ∀ k, known = some k → m.env v = (MirConst.bool k).word) :
    execTerm (π := π) x m (if x = p then some t else blk.term) = (execTerm x m blk.term).map
      (fun y ↦ if x = p ∧ y.block = J.block then { y with block := J.armOf (m.env v) } else y) id := by
  by_cases hxp : x = p
  · have hblk : pb = blk := Option.some.inj (hpb.symm.trans (hxp ▸ hb))
    rw [if_pos hxp, ← hblk, ht, hr.exec (hword hxp)]
    congr 1
    funext y
    by_cases hy : y.block = J.block
    · rw [if_pos hy, if_pos ⟨hxp, hy⟩]
    · rw [if_neg hy, if_neg fun h ↦ hy h.2]
  · have hid : (fun y : State σ ↦ if x = p ∧ y.block = J.block then
        { y with block := J.armOf (m.env v) } else y) = id := by
      funext y
      exact if_neg fun h ↦ hxp h.1
    rw [if_neg hxp, hid, Sum.map_id_id]
    rfl

/-- The old run goes through the join. -/
theorem JoinAt.step (hJ : J.JoinAt f args) (hfind : args.find? (·.1 = p) = some (p, v)) {m : Mem σ} :
    ∃ m₁ : Mem σ, Mir.step W f ⟨J.block, some p, m⟩ = .inl ⟨J.armOf (m.env v), some J.block, m₁⟩ ∧
      EqOff J.cond m₁ m := by
  have harg : Mir.phiArg (some p) (.phi J.cond .bool args) = some v := by
    simp only [Mir.phiArg, Option.bind_some, hfind, Option.map_some]
  have henv : ∀ w, enter (some p) [MirInst.phi J.cond .bool args] m.env w =
      if w = J.cond then m.env v else m.env w := by
    intro w
    have hdest : (MirInst.phi J.cond .bool args).dest = J.cond := rfl
    unfold Mir.enter
    by_cases hw : w = J.cond
    · subst hw
      rw [if_pos rfl, List.find?_cons_of_pos (by simp [hdest]), Option.bind_some, harg]
    · rw [if_neg hw, List.find?_cons_of_neg (by simpa [hdest] using Ne.symm hw)]
      rfl
  have hready : ready (some p) [MirInst.phi J.cond .bool args] = true := by
    simp [ready, harg]
  refine ⟨⟨enter (some p) [.phi J.cond .bool args] m.env, m.world, m.trace⟩, ?_, rfl, rfl, fun w hw ↦ ?_⟩
  · have hstep : Mir.step W f ⟨J.block, some p, m⟩ =
        .inl ⟨J.armOf (enter (some p) [.phi J.cond .bool args] m.env J.cond), some J.block,
          ⟨enter (some p) [.phi J.cond .bool args] m.env, m.world, m.trace⟩⟩ := by
      rw [step_eq_leave hJ.block hready]
      rfl
    rw [hstep, henv J.cond, if_pos rfl]
  · show enter (some p) [.phi J.cond .bool args] m.env w = m.env w
    rw [henv, if_neg hw]

include hf hJ hpb ht hr in
/-- **A step of the new run is a step of the old one, or two through the join.** -/
theorem ThreadRel.progress (ha : (p, v) ∈ args)
    (hknown : ∀ k, known = some k → ∃ b ∈ f.blocks, MirInst.const v (.bool k) ∈ b.insts)
    (h : ThreadRel J f p targets s u) (hs : ∀ r, Mir.step W f s = .inr r → r.outcome ≠ .stuck) :
    (∃ r, Mir.step W f s = .inr r ∧ Mir.step W (J.rewired p t targets f) u = .inr r) ∨
    ∃ n s' u', Mir.step W (J.rewired p t targets f) u = .inl u' ∧ (machine W f).stepN (n + 1) s = some s' ∧
      ThreadRel J f p targets s' u' := by
  obtain ⟨blk, hb, hready⟩ := exists_ready hs
  have hid := hf.wf.tidied
  have hsf := step_eq_leave (W := W) hb hready
  have hsg : Mir.step W (J.rewired p t targets f) u = leave s.block (if s.block = p then some t else blk.term)
      (bodyOf W blk ⟨s.block, s.pred, u.mem⟩) := by
    have hg : (J.rewired p t targets f).block? u.block = some
        ⟨blk.id, blk.insts.map (J.redirectInst p targets s.block),
          if s.block = p then some t else blk.term⟩ := by
      rw [← h.block, block?_rewired hid, hb]
      rfl
    have hphi := h.phiArg hf hpb ht hr hb
    have hstep := step_eq_leave_of_phiMap (W := W) (s := ⟨s.block, s.pred, u.mem⟩)
      (J.phiMap_redirectInst p targets s.block) hg rfl hready hphi rfl
    rwa [← h.block] at hstep
  have hbody := h.body (W := W) hJ hb hready
  cases hm : bodyOf W blk s with
  | error r =>
    rw [hm] at hbody hsf
    cases hm' : bodyOf W blk ⟨s.block, s.pred, u.mem⟩ with
    | ok m' =>
      rw [hm'] at hbody
      exact hbody.elim
    | error r' =>
      rw [hm'] at hbody hsg
      obtain rfl : r = r' := hbody
      exact .inl ⟨r, hsf, hsg⟩
  | ok m =>
    rw [hm] at hbody
    cases hm' : bodyOf W blk ⟨s.block, s.pred, u.mem⟩ with
    | error r' =>
      rw [hm'] at hbody
      exact hbody.elim
    | ok m' =>
      rw [hm'] at hbody hsg
      obtain ⟨hoff, hcond⟩ := hbody
      have hterm := hJ.execTerm (π := π) hb hoff hcond
      rw [hm] at hsf
      have hv := hJ.ne_cond ha
      have hword : s.block = p → ∀ k, known = some k → m.env v = (MirConst.bool k).word := fun hsp k hk ↦ by
        obtain ⟨b, hbm, hi⟩ := hknown k hk
        have hav := hf.dom.phi hJ.block (List.mem_singleton_self _) (p, v) ha
        have hsol := h.visits.body hf.wf hf.dominated hb hm
        rw [hsp] at hsol
        exact (Except.ok.inj (hsol b hbm _ hi hav _ rfl)).symm
      have hexit := exit_eq (π := π) hpb ht hr hb fun hsp k hk ↦ (hoff.env v hv).symm.trans (hword hsp k hk)
      rw [leave, hexit] at hsg
      cases hex : execTerm (π := π) s.block m blk.term with
      | inr r =>
        rw [leave, hex] at hsf
        cases hex' : execTerm (π := π) s.block m' blk.term with
        | inl u₁ =>
          rw [hex, hex'] at hterm
          exact hterm.elim
        | inr r' =>
          rw [hex, hex'] at hterm
          obtain rfl : r = r' := hterm
          rw [hex'] at hsg
          exact .inl ⟨r, hsf, hsg⟩
      | inl s₁ =>
        rw [leave, hex] at hsf
        cases hex' : execTerm (π := π) s.block m' blk.term with
        | inr r' =>
          rw [hex, hex'] at hterm
          exact hterm.elim
        | inl u₁ =>
          rw [hex, hex'] at hterm
          obtain ⟨hblock, hpred, hmem⟩ := hterm
          rw [hex', Sum.map_inl] at hsg
          have hvis := h.visits.next hf.wf hf.dominated hsf
          have hp₁ := (step_onEdge hsf).1
          by_cases hthrough : s.block = p ∧ s₁.block = J.block
          · -- the old run goes on through the join
            obtain ⟨hsp, hsj⟩ := hthrough
            have hcount := hJ.count_pred hf.wf hpb ht hr
            have hm₁ : m = s₁.mem := execTerm_trace.1 hex
            have hu₁ : m' = u₁.mem := execTerm_trace.1 hex'
            have harm : m.env v = m'.env v := hoff.env v hv
            obtain ⟨m₂, hstep₂, hm₂⟩ := hJ.step (W := W) (find?_of_count_eq_one ha hcount) (m := s₁.mem)
            have hs₁ : s₁ = ⟨J.block, some p, s₁.mem⟩ := by
              rw [← hsj, ← hsp, ← hp₁]
            rw [← hs₁] at hstep₂
            rw [if_pos ⟨hsp, hblock ▸ hsj⟩] at hsg
            refine .inr ⟨1, _, _, hsg, ?_, hvis.next hf.wf hf.dominated hstep₂, ?_, ?_, ?_⟩
            · rw [Machine.stepN_succ_of_next hsf]
              exact Machine.stepN_one hstep₂
            · rw [← hm₁, harm]
            · exact hm₂.trans hmem
            · refine .inr ⟨hr.lands _ fun k hk ↦ ?_, rfl, ?_⟩
              · rw [← hm₁]
                exact hword hsp k hk
              · rw [← hpred, hp₁, hsp]
          · rw [if_neg (hblock ▸ hthrough)] at hsg
            refine .inr ⟨0, s₁, u₁, hsg, Machine.stepN_one hsf, hvis, hblock, hmem,
              .inl ⟨hpred, fun hnot ↦ ?_⟩⟩
            exact hthrough ⟨Option.some.inj (hp₁.symm.trans hnot.2), hnot.1⟩

include hf hJ hpb ht hr in
/-- **Redirecting a predecessor preserves the runs.** -/
theorem rewired_preserves (ha : (p, v) ∈ args)
    (hknown : ∀ k, known = some k → ∃ b ∈ f.blocks, MirInst.const v (.bool k) ∈ b.insts) :
    Preserves f (J.rewired p t targets f) := by
  refine Preserves.of_plusSim fun σ π W env w ↦ ⟨ThreadRel J f p targets,
    ⟨fun _ ↦ id, fun _ ↦ rfl, fun h ↦ h.mem.trace, ?_, ?_⟩,
    visits_start f env w, rfl, ⟨rfl, rfl, fun _ _ ↦ rfl⟩, .inl ⟨rfl, fun h ↦ (by cases h.2)⟩⟩
  · intro s u u' h hs hu
    rcases h.progress hf hJ hpb ht hr ha hknown fun r hr ↦ hs.step_not_stuck hr with
      ⟨r, -, hend⟩ | ⟨n, s', u'', hstep, hn, hrel⟩
    · cases hend.symm.trans hu
    · obtain rfl := Sum.inl.inj (hstep.symm.trans hu)
      exact ⟨n, s', hn, hrel⟩
  · intro s u r h hs hu
    rcases h.progress hf hJ hpb ht hr ha hknown fun r hr ↦ hs.step_not_stuck hr with
      ⟨r', hend, hend'⟩ | ⟨n, s', u'', hstep, -⟩
    · obtain rfl := Sum.inr.inj (hend'.symm.trans hu)
      exact .of_step hend
    · cases hstep.symm.trans hu

end

end BoolJoin

end CoilLang.Mir
