import CoilLang.Mir.CombineTypes
import CoilLang.Mir.Rewire
import CoilLang.Mir.Sccp

/-!
# What the sweeps settle on

Values only fall in the lattice, so an edge that runs once runs in the end. When a sweep changes nothing,
every value of a block that runs has fallen to what its instruction computes, and **the edges that run are
exactly those of the terminators of the blocks that run** (`Settled`).

In a function with dominated uses and no φ in its entry block, a value available in a block that runs is not
unknown any more (`Solves.avail_ne_top`): along a walk of edges that run, whatever an instruction reads has
been defined on the way.
-/

namespace CoilLang.Mir.Sccp

variable {f : MirFunc} {S S' : Solution} {b p s : BlockId} {blk : MirBlock} {i : MirInst} {v d : ValueId}
  {c : MirConst} {st : Solution × Bool}

/-! ### The lattice -/

namespace Lat

variable {α : Type} {g : α → Lat} {l : List α} {acc : Lat}

theorem meetDown_eq_meet (old new : Lat) : old.meetDown new = old.meet new := by
  cases old <;> cases new <;> rfl

theorem meet_eq_top {a b : Lat} : a.meet b = .top ↔ a = .top ∧ b = .top := by
  cases a <;> cases b <;> simp [meet]
  split <;> simp

theorem meet_eq_const {a b : Lat} :
    a.meet b = .const c ↔ a = .const c ∧ (b = .top ∨ b = .const c) ∨ a = .top ∧ b = .const c := by
  cases a <;> cases b <;> simp [meet]
  rename_i x y
  by_cases h : x = y
  · simp [h]
  · rw [if_neg h]
    simp only [reduceCtorEq, false_iff, not_and]
    rintro rfl rfl
    exact h rfl

theorem foldl_meet_eq_top :
    l.foldl (fun acc a ↦ acc.meet (g a)) acc = .top ↔ acc = .top ∧ ∀ a ∈ l, g a = .top := by
  induction l generalizing acc with
  | nil => simp
  | cons a l ih => rw [List.foldl_cons, ih, meet_eq_top, List.forall_mem_cons, and_assoc]

/-- A constant is what all that is known is. -/
theorem foldl_meet_eq_const (h : l.foldl (fun acc a ↦ acc.meet (g a)) acc = .const c) :
    (acc = .top ∨ acc = .const c) ∧ (∀ a ∈ l, g a = .top ∨ g a = .const c) ∧
      (acc = .const c ∨ ∃ a ∈ l, g a = .const c) := by
  induction l generalizing acc with
  | nil => exact ⟨.inr h, fun _ h ↦ (by cases h), .inl h⟩
  | cons a l ih =>
    obtain ⟨hacc, hl, hone⟩ := ih h
    rw [meet_eq_top, meet_eq_const] at hacc
    rw [meet_eq_const] at hone
    refine ⟨?_, List.forall_mem_cons.2 ⟨?_, hl⟩, ?_⟩
    · rcases hacc with h | h | h
      exacts [.inl h.1, .inr h.1, .inl h.1]
    · rcases hacc with h | h | h
      exacts [.inl h.2, h.2, .inr h.2]
    · rcases hone with (h | h) | ⟨x, hx, hxc⟩
      · exact .inl h.1
      · exact .inr ⟨a, List.mem_cons_self, h.2⟩
      · exact .inr ⟨x, List.mem_cons_of_mem _ hx, hxc⟩

/-- A value falls from unknown, or to varying. -/
def Falls (old next : Lat) : Prop := next = old ∨ old = .top ∨ next = .bottom

theorem falls_meetDown (old new : Lat) : Falls old (old.meetDown new) := by
  cases old <;> cases new <;> simp [Falls, meetDown]
  exact em _

end Lat

/-! ### A sweep lowers values and adds edges -/

theorem get_set (S : Solution) (d : ValueId) (next : Lat) (v : ValueId) :
    ({ S with vals := S.vals.set d next } : Solution).get v =
      if d = v ∧ d < S.vals.length then next else S.get v := by
  unfold Solution.get
  rw [List.getElem?_set]
  by_cases hdv : d = v
  · subst hdv
    by_cases hd : d < S.vals.length
    · simp [hd]
    · simp [hd]
  · simp [hdv]

/-- More edges run when values fall. -/
theorem liveSuccs_mono (h : ∀ v, (S.get v).Falls (S'.get v)) {t : Option Terminator}
    (hs : s ∈ liveSuccs S t) : s ∈ liveSuccs S' t := by
  rcases t with _ | d | ⟨x, t, n⟩ | ⟨lo, hi⟩ | _
  any_goals exact hs
  unfold liveSuccs at hs ⊢
  dsimp only at hs ⊢
  rcases h x with heq | htop | hbot
  · rwa [heq]
  · rw [htop] at hs
    cases hs
  · rw [hbot]
    dsimp only
    split at hs
    · cases hs
    · rename_i k _
      cases k <;> simp_all
    · exact hs

/-- What holds after each step of a sweep. -/
structure Grown (f : MirFunc) (S : Solution) : Prop where
  entry : f.entry ∈ S.reached
  edge : ∀ {p s}, (p, s) ∈ S.edges → p ∈ S.reached ∧ s ∈ S.reached ∧
    ∃ blk, f.block? p = some blk ∧ s ∈ liveSuccs S blk.term
  reach : ∀ b ∈ S.reached, ∃ h, Walk (· = f.entry) (fun p s ↦ (p, s) ∈ S.edges) b h
  undefined : ∀ v, v ∉ f.defs → S.get v = .bottom

theorem liveSuccs_subset {t : Option Terminator} (hs : s ∈ liveSuccs S t) :
    s ∈ (t.map Terminator.succs).getD [] := by
  rcases t with _ | d | ⟨x, t, n⟩ | ⟨lo, hi⟩ | _
  any_goals exact hs
  unfold liveSuccs at hs
  dsimp only at hs
  split at hs
  · cases hs
  · rename_i k _
    cases k <;> simp_all [Terminator.succs]
  · exact hs

/-- An edge that runs is an edge. -/
theorem Grown.edge_of_mem (h : Grown f S) (he : (p, s) ∈ S.edges) : f.Edge p s := by
  obtain ⟨-, -, blk, hblk, hs⟩ := h.edge he
  exact ⟨blk, hblk, liveSuccs_subset hs⟩

/-- What no instruction defines is not unknown. -/
theorem Grown.ne_top (h : Grown f S) (hv : v ∉ f.defs) : S.get v ≠ .top := by
  rw [h.undefined v hv]
  simp

theorem mem_foldl_set {ds : List ValueId} {vals : List Lat} {x : Lat}
    (h : (ds.foldl (fun vals d ↦ vals.set d .top) vals)[v]? = some x) :
    vals[v]? = some x ∨ v ∈ ds ∧ x = .top := by
  induction ds generalizing vals with
  | nil => exact .inl h
  | cons d ds ih =>
    rw [List.foldl_cons] at h
    rcases ih h with hv | ⟨hv, hx⟩
    · rw [List.getElem?_set] at hv
      split at hv
      · rename_i hd
        split at hv
        · exact .inr ⟨hd ▸ List.mem_cons_self, (Option.some.inj hv).symm⟩
        · cases hv
      · exact .inl hv
    · exact .inr ⟨List.mem_cons_of_mem _ hv, hx⟩

/-- At the start a value varies, or is unknown and defined. -/
theorem initial_get (f : MirFunc) (v : ValueId) :
    (initial f).get v = .bottom ∨ v ∈ f.defs ∧ (initial f).get v = .top := by
  unfold Solution.get
  cases hv : (initial f).vals[v]? with
  | none => exact .inl rfl
  | some x =>
    rcases mem_foldl_set hv with h | ⟨h, rfl⟩
    · obtain ⟨-, rfl⟩ : v < f.types.length ∧ Lat.bottom = x := by
        simpa [List.getElem?_replicate] using h
      exact .inl rfl
    · exact .inr ⟨h, rfl⟩

theorem grown_initial (f : MirFunc) : Grown f (initial f) := by
  refine ⟨List.mem_singleton_self _, fun h ↦ (by cases h), fun b hb ↦ ?_, fun v hv ↦ ?_⟩
  · rw [List.mem_singleton.1 hb]
    exact ⟨_, .start rfl⟩
  · exact (initial_get f v).resolve_right fun h ↦ hv h.1

/-- A value that is defined falls. -/
theorem Grown.lower (h : Grown f st.1) {next : Lat} (hd : d ∈ f.defs) (hfall : (st.1.get d).Falls next) :
    Grown f (lower d next st).1 := by
  unfold Sccp.lower
  split
  · exact h
  have hget := get_set st.1 d next
  have hmono : ∀ v, (st.1.get v).Falls (({ st.1 with vals := st.1.vals.set d next } : Solution).get v) :=
    fun v ↦ by
    rw [hget]
    split
    · rename_i hv
      exact hv.1 ▸ hfall
    · exact .inl rfl
  refine ⟨h.entry, fun he ↦ ?_, h.reach, fun v hv ↦ ?_⟩
  · obtain ⟨hp, hs, blk, hblk, hlive⟩ := h.edge he
    exact ⟨hp, hs, blk, hblk, liveSuccs_mono hmono hlive⟩
  · dsimp only
    rw [hget, if_neg fun hdv : d = v ∧ _ ↦ hv (hdv.1 ▸ hd)]
    exact h.undefined v hv

theorem Grown.visitInst (hb : f.block? b = some blk) (hi : i ∈ blk.insts) (h : Grown f st.1) :
    Grown f (visitInst b st i).1 := by
  refine List.foldlRecOn (motive := fun st : Solution × Bool ↦ Grown f st.1) i.dests _ h fun st' h' d hd ↦ ?_
  refine h'.lower (mem_defs_of_block? hb (List.mem_flatMap.2 ⟨i, hi, hd⟩)) ?_
  split
  · exact .inr (.inr rfl)
  · exact Lat.falls_meetDown _ _

theorem Grown.visitEdge (h : Grown f st.1) (hb : f.block? p = some blk) (hp : p ∈ st.1.reached)
    (hs : s ∈ liveSuccs st.1 blk.term) : Grown f (visitEdge p st s).1 := by
  unfold Sccp.visitEdge
  obtain ⟨l, hw⟩ := h.reach p hp
  by_cases he : (p, s) ∈ st.1.edges
  · have hreached := (h.edge he).2.1
    simp only [he, hreached, if_true]
    exact h
  · have hedge : ∀ {R : List BlockId}, (∀ x ∈ st.1.reached, x ∈ R) → s ∈ R → ∀ {q t},
        (q, t) ∈ (p, s) :: st.1.edges → q ∈ R ∧ t ∈ R ∧
          ∃ blk, f.block? q = some blk ∧ t ∈ liveSuccs st.1 blk.term := by
      intro R hsub hsR q t hqt
      rcases List.mem_cons.1 hqt with heq | hqt
      · obtain ⟨rfl, rfl⟩ := Prod.mk.inj heq
        exact ⟨hsub _ hp, hsR, blk, hb, hs⟩
      · obtain ⟨hq, ht, hrest⟩ := h.edge hqt
        exact ⟨hsub _ hq, hsub _ ht, hrest⟩
    have hwalk : ∀ {b l}, Walk (· = f.entry) (fun p s ↦ (p, s) ∈ st.1.edges) b l →
        Walk (· = f.entry) (fun q t ↦ (q, t) ∈ (p, s) :: st.1.edges) b l := fun hw ↦
      hw.mono (fun _ ↦ id) fun _ _ ↦ List.mem_cons_of_mem _
    rw [if_neg he]
    dsimp only
    split
    · rename_i hsr
      exact ⟨h.entry, fun hqt ↦ hedge (fun _ ↦ id) hsr hqt, fun b hb ↦ (h.reach b hb).imp fun _ ↦ hwalk,
        h.undefined⟩
    · refine ⟨List.mem_cons_of_mem _ h.entry,
        fun hqt ↦ hedge (fun _ ↦ List.mem_cons_of_mem _) List.mem_cons_self hqt, fun b hb ↦ ?_, h.undefined⟩
      rcases List.mem_cons.1 hb with rfl | hb
      · exact ⟨_, (hwalk hw).step List.mem_cons_self⟩
      · exact (h.reach b hb).imp fun _ ↦ hwalk

theorem lower_fields (d : ValueId) (next : Lat) (st : Solution × Bool) :
    (lower d next st).1.reached = st.1.reached ∧ (lower d next st).1.edges = st.1.edges := by
  unfold lower
  split <;> exact ⟨rfl, rfl⟩

theorem reached_visitInsts {is : List MirInst} :
    (is.foldl (visitInst b) st).1.reached = st.1.reached ∧
      (is.foldl (visitInst b) st).1.edges = st.1.edges := by
  refine List.foldlRecOn (motive := fun st' : Solution × Bool ↦
    st'.1.reached = st.1.reached ∧ st'.1.edges = st.1.edges) is _ ⟨rfl, rfl⟩ fun st' h i _ ↦ ?_
  refine List.foldlRecOn (motive := fun st' : Solution × Bool ↦
    st'.1.reached = st.1.reached ∧ st'.1.edges = st.1.edges) i.dests _ h fun st' h d _ ↦ ?_
  rw [(lower_fields d _ st').1, (lower_fields d _ st').2]
  exact h

theorem Grown.visitBlock (hf : WellFormed f) (hblk : blk ∈ f.blocks) (h : Grown f st.1) :
    Grown f (visitBlock st blk).1 := by
  unfold Sccp.visitBlock
  split
  swap
  · exact h
  rename_i hreached
  obtain ⟨k, hk⟩ := List.mem_iff_getElem?.1 hblk
  have hb : f.block? blk.id = some blk := by rw [hf.id hk]; exact hk
  have hinsts : Grown f (blk.insts.foldl (Sccp.visitInst blk.id) st).1 :=
    List.foldlRecOn (motive := fun st : Solution × Bool ↦ Grown f st.1) blk.insts _ h
      fun _ h _ hi ↦ h.visitInst hb hi
  have hr : blk.id ∈ (blk.insts.foldl (Sccp.visitInst blk.id) st).1.reached := by
    rwa [reached_visitInsts.1]
  dsimp only
  generalize blk.insts.foldl (Sccp.visitInst blk.id) st = st₁ at hinsts hr
  refine (List.foldlRecOn (motive := fun st : Solution × Bool ↦ Grown f st.1 ∧ blk.id ∈ st.1.reached ∧
    st.1.vals = st₁.1.vals) (liveSuccs st₁.1 blk.term) _ ⟨hinsts, hr, rfl⟩ fun st₂ h₂ s hs ↦ ?_).1
  obtain ⟨hgrown, hr₂, hvals⟩ := h₂
  have hlive : s ∈ liveSuccs st₂.1 blk.term :=
    liveSuccs_mono (fun v ↦ .inl (by rw [Solution.get, hvals]; rfl)) hs
  refine ⟨hgrown.visitEdge hb hr₂ hlive, ?_, ?_⟩
  · unfold Sccp.visitEdge
    dsimp only
    split <;> split <;> first | exact hr₂ | exact List.mem_cons_of_mem _ hr₂
  · unfold Sccp.visitEdge
    dsimp only
    split <;> split <;> exact hvals

theorem Grown.sweep (hf : WellFormed f) (h : Grown f S) : Grown f (sweep f S).1 :=
  List.foldlRecOn (motive := fun st : Solution × Bool ↦ Grown f st.1) f.blocks _ h
    fun _ h _ hb ↦ h.visitBlock hf hb

/-! ### A sweep that changes nothing -/

theorem lower_unchanged {next : Lat} (h : (lower d next st).2 = false) :
    lower d next st = st ∧ next = st.1.get d := by
  unfold lower at h ⊢
  split
  · rename_i hd
    exact ⟨rfl, hd⟩
  · rename_i hd
    rw [if_neg hd] at h
    cases h

theorem visitInst_unchanged (h : (visitInst b st i).2 = false) : visitInst b st i = st ∧ ∀ d ∈ i.dests,
    (if 1 < i.dests.length then .bottom else (st.1.get d).meetDown (eval st.1 b i)) = st.1.get d := by
  obtain ⟨hfold, hall⟩ := foldl_unchanged
    (fun _ _ h ↦ (lower_unchanged h).1) h
  refine ⟨hfold, fun d hd ↦ (lower_unchanged ?_).2⟩
  rw [hall d hd, ← hfold]
  exact h

theorem visitEdge_unchanged (h : (visitEdge p st s).2 = false) :
    visitEdge p st s = st ∧ (p, s) ∈ st.1.edges := by
  unfold visitEdge at h ⊢
  dsimp only at h ⊢
  by_cases he : (p, s) ∈ st.1.edges
  · rw [if_pos he] at h ⊢
    split
    · exact ⟨rfl, he⟩
    · rename_i hs
      rw [if_neg hs] at h
      cases h
  · rw [if_neg he] at h
    split at h <;> cases h

theorem visitBlock_unchanged (h : (visitBlock st blk).2 = false) : visitBlock st blk = st ∧
    (blk.id ∈ st.1.reached → (∀ i ∈ blk.insts, ∀ d ∈ i.dests,
      (if 1 < i.dests.length then .bottom else (st.1.get d).meetDown (eval st.1 blk.id i)) = st.1.get d) ∧
      ∀ s ∈ liveSuccs st.1 blk.term, (blk.id, s) ∈ st.1.edges) := by
  unfold visitBlock at h ⊢
  by_cases hr : blk.id ∈ st.1.reached
  swap
  · rw [if_neg hr]
    exact ⟨rfl, fun h ↦ absurd h hr⟩
  rw [if_pos hr] at h ⊢
  obtain ⟨hfold, hedges⟩ := foldl_unchanged
    (fun _ _ h ↦ (visitEdge_unchanged h).1) h
  dsimp only at h ⊢
  rw [hfold] at h ⊢
  obtain ⟨hinsts, hall⟩ := foldl_unchanged
    (fun _ _ h ↦ (visitInst_unchanged h).1) h
  rw [hinsts] at h hedges
  refine ⟨hinsts, fun _ ↦ ⟨fun i hi ↦ (visitInst_unchanged ?_).2, fun s hs ↦ (visitEdge_unchanged ?_).2⟩⟩
  · rw [hall i hi]
    exact h
  · rw [hedges s hs]
    exact h

/-- Where the sweeps end. -/
structure Settled (f : MirFunc) (S : Solution) : Prop where
  grown : Grown f S
  inst : ∀ {b blk}, f.block? b = some blk → b ∈ S.reached → ∀ i ∈ blk.insts, ∀ d ∈ i.dests,
    (if 1 < i.dests.length then .bottom else (S.get d).meetDown (eval S b i)) = S.get d
  edge : ∀ {b blk}, f.block? b = some blk → b ∈ S.reached → ∀ s, (b, s) ∈ S.edges ↔ s ∈ liveSuccs S blk.term

/-- **The sweeps end settled.** -/
theorem settled_of_solve (hf : WellFormed f) (h : solve f = some S) : Settled f S := by
  obtain ⟨S', hgrown, hflag, rfl⟩ := repeatUntil_spec (fun _ ↦ Grown.sweep hf) (grown_initial f) h
  obtain ⟨hfold, hall⟩ := foldl_unchanged
    (fun _ _ h ↦ (visitBlock_unchanged h).1) hflag
  have hsweep : (sweep f S').1 = S' := congrArg Prod.fst hfold
  rw [hsweep]
  have hblock : ∀ {b blk}, f.block? b = some blk → b ∈ S'.reached → _ := fun {b blk} hb hr ↦ by
    have hmem : blk ∈ f.blocks := List.mem_of_getElem? hb
    have hid : blk.id = b := hf.id hb
    have hflag' : (visitBlock (S', false) blk).2 = false := by rw [hall blk hmem]
    have hun := (visitBlock_unchanged hflag').2 (hid ▸ hr)
    rwa [hid] at hun
  refine ⟨hgrown, fun hb hr ↦ (hblock hb hr).1, fun {b blk} hb hr s ↦ ⟨fun he ↦ ?_, (hblock hb hr).2 s⟩⟩
  obtain ⟨-, -, blk', hb', hs⟩ := hgrown.edge he
  rwa [← Option.some.inj (hb.symm.trans hb')] at hs

/-! ### Nothing that runs is unknown -/

/-- An instruction is known when its operands are, a φ when one incoming is that runs. -/
theorem eval_ne_top (hops : i.isPhi = false → ∀ o ∈ i.operands, S.get o ≠ .top)
    (hphi : ∀ {d ty args}, i = .phi d ty args → ∃ a ∈ args, (a.1, b) ∈ S.edges ∧ S.get a.2 ≠ .top) :
    eval S b i ≠ .top := by
  cases i with
  | const | op => simp [eval, foldable]
  | phi d ty args =>
    obtain ⟨a, ha, he, hne⟩ := hphi rfl
    intro h
    exact hne ((Lat.foldl_meet_eq_top.1 h).2 a (List.mem_filter.2 ⟨ha, decide_eq_true he⟩))
  | bin | cmp | unary | cast =>
    have hany := hops rfl
    simp only [eval, foldable, if_true]
    split
    · rename_i h
      obtain ⟨o, ho, htop⟩ := List.any_eq_true.1 h
      exact absurd (of_decide_eq_true htop) (hany o ho)
    · split <;> simp

theorem phi_notMem (h : blk.phis = []) {d : ValueId} {ty : MirTy} {args : List (BlockId × ValueId)} :
    MirInst.phi d ty args ∉ blk.insts := fun hi ↦ by
  have hmem : MirInst.phi d ty args ∈ blk.phis := List.mem_filter.2 ⟨hi, rfl⟩
  rw [h] at hmem
  cases hmem

/-- A φ has an incoming for each edge, available there. -/
theorem exists_incoming_avail (hf : Accepted f) (hb : f.block? b = some blk) {d : ValueId} {ty : MirTy}
    {args : List (BlockId × ValueId)} (hi : MirInst.phi d ty args ∈ blk.insts) (he : f.Edge p b) :
    ∃ a ∈ args, a.1 = p ∧ f.AvailEndIn (· = f.entry) p a.2 := by
  obtain ⟨a, ha⟩ := hf.wf.exists_incoming hb hi he
  have hmem := List.mem_of_find?_eq_some ha
  obtain rfl : a.1 = p := by simpa using List.find?_some ha
  exact ⟨a, hmem, rfl, hf.dom.phi hb hi a hmem⟩

/-- An accepted function with no φ in its entry block, and what its sweeps settle on. -/
structure Solves (f : MirFunc) (S : Solution) : Prop extends Settled f S where
  acc : Accepted f
  noPhi : ∀ blk, f.block? f.entry = some blk → blk.phis = []

/-- A φ that runs has an incoming that does. -/
theorem Solves.exists_live_arg (h : Solves f S) (hr : b ∈ S.reached) (hb : f.block? b = some blk)
    {d : ValueId} {ty : MirTy} {args : List (BlockId × ValueId)} (hi : MirInst.phi d ty args ∈ blk.insts) :
    ∃ a ∈ args, (a.1, b) ∈ S.edges ∧ f.AvailEndIn (· = f.entry) a.1 a.2 := by
  obtain ⟨l, hw⟩ := h.grown.reach b hr
  cases hw with
  | start ha => exact absurd hi (phi_notMem (h.noPhi _ (ha ▸ hb)))
  | step hw he =>
    obtain ⟨a, ha, rfl, hav⟩ := exists_incoming_avail h.acc hb hi (h.grown.edge_of_mem he)
    exact ⟨a, ha, he, hav⟩

/-- Along a walk of edges that run, the values defined on the way are known. -/
theorem Solves.ne_top_of_walk (h : Solves f S) {l : List BlockId}
    (hw : Walk (· = f.entry) (fun p s ↦ (p, s) ∈ S.edges) b l) :
    ∀ q ∈ l, q ∈ S.reached ∧ ∀ {blk}, f.block? q = some blk → ∀ v ∈ blk.defs, S.get v ≠ .top := by
  -- for the last block of the walk, instruction by instruction
  have hblock : ∀ {b l}, Walk (· = f.entry) f.Edge b l → b ∈ S.reached →
      (∀ q ∈ l, q ≠ b → ∀ {blk}, f.block? q = some blk → ∀ v ∈ blk.defs, S.get v ≠ .top) →
      (∀ {blk d ty args}, f.block? b = some blk → MirInst.phi d ty args ∈ blk.insts →
        ∃ a ∈ args, (a.1, b) ∈ S.edges ∧ S.get a.2 ≠ .top) →
      ∀ {blk}, f.block? b = some blk → ∀ v ∈ blk.defs, S.get v ≠ .top := by
    intro b l hw hr hbefore hphis blk hb
    have hpre : ∀ pre post, blk.insts = pre ++ post → ∀ v ∈ pre.flatMap MirInst.dests, S.get v ≠ .top := by
      intro pre
      induction pre using List.reverseRecOn with
      | nil => exact fun _ _ v hv ↦ (by cases hv)
      | append_singleton pre i ih =>
        intro post hsplit v hv
        rw [List.append_assoc] at hsplit
        have hold := ih _ hsplit
        rw [List.flatMap_append, List.mem_append] at hv
        rcases hv with hv | hv
        · exact hold v hv
        have hvi : v ∈ i.dests := by simpa using hv
        have hi : i ∈ blk.insts := by simp [hsplit]
        have heval : eval S b i ≠ .top := by
          refine eval_ne_top (fun hphi o ho ↦ ?_) fun heq ↦ hphis hb (heq ▸ hi)
          rcases h.acc.dom.inst hb hsplit hphi o ho with hno | hin | ⟨q, c, hqb, hdom, hq, hvq⟩
          · exact h.grown.ne_top hno
          · exact hold o hin
          · exact hbefore q (hdom l hw) hqb hq o hvq
        have hinst := h.inst hb hr i hi v hvi
        intro htop
        rw [htop] at hinst
        split at hinst
        · cases hinst
        · rw [Lat.meetDown_eq_meet, Lat.meet_eq_top] at hinst
          exact heval hinst.2
    exact hpre blk.insts [] (by simp)
  induction hw with
  | start ha =>
    rename_i a
    obtain rfl : a = f.entry := ha
    intro q hq
    obtain rfl := List.mem_singleton.1 hq
    refine ⟨h.grown.entry, hblock (.start rfl) h.grown.entry (fun q hq hne ↦ ?_) fun hb hi ↦ ?_⟩
    · exact absurd (List.mem_singleton.1 hq) hne
    · exact absurd hi (phi_notMem (h.noPhi _ hb))
  | step hw he ih =>
    rename_i p b l
    obtain ⟨-, hr, -⟩ := h.grown.edge he
    have hedge := h.grown.edge_of_mem he
    have hw' := hw.mono (fun _ ↦ id) fun _ _ ↦ h.grown.edge_of_mem
    intro q hq
    rcases List.mem_cons.1 hq with rfl | hq
    · refine ⟨hr, hblock (hw'.step hedge) hr (fun q hq hne ↦ ?_) fun hb hi ↦ ?_⟩
      · exact (ih q ((List.mem_cons.1 hq).resolve_left hne)).2
      · obtain ⟨a, ha, rfl, hav⟩ := exists_incoming_avail h.acc hb hi hedge
        refine ⟨a, ha, he, ?_⟩
        rcases hav with hno | ⟨q', c, hdom, hq', hv⟩
        · exact h.grown.ne_top hno
        · exact (ih q' (hdom l hw')).2 hq' _ hv
    · exact ih q hq

/-- A block that dominates one that runs does run. -/
theorem Solves.reached_of_dominates (h : Solves f S) (hr : b ∈ S.reached) {q : BlockId}
    (hdom : Dominates (· = f.entry) f.Edge q b) :
    q ∈ S.reached ∧ ∀ {blk}, f.block? q = some blk → ∀ v ∈ blk.defs, S.get v ≠ .top := by
  obtain ⟨l, hw⟩ := h.grown.reach b hr
  exact h.ne_top_of_walk hw q (hdom l (hw.mono (fun _ ↦ id) fun _ _ ↦ h.grown.edge_of_mem))

/-- **Nothing available in a block that runs is unknown.** -/
theorem Solves.avail_ne_top (h : Solves f S) (hr : b ∈ S.reached) (hb : f.block? b = some blk)
    {pre : List MirInst} (hpre : ∀ i ∈ pre, i ∈ blk.insts) (hv : f.AvailIn (· = f.entry) b pre v) :
    S.get v ≠ .top := by
  rcases hv with hv | hv | ⟨q, c, -, hdom, hq, hv⟩
  · exact h.grown.ne_top hv
  · obtain ⟨i, hi, hvi⟩ := List.mem_flatMap.1 hv
    exact (h.reached_of_dominates hr (.refl b)).2 hb v (List.mem_flatMap.2 ⟨i, hpre i hi, hvi⟩)
  · exact (h.reached_of_dominates hr hdom).2 hq v hv

/-- What an instruction that runs computes is known. -/
theorem Solves.eval_ne_top (h : Solves f S) (hr : b ∈ S.reached) (hb : f.block? b = some blk)
    (hi : i ∈ blk.insts) : eval S b i ≠ .top := by
  obtain ⟨pre, post, hsplit⟩ := List.append_of_mem hi
  have hpre : ∀ j ∈ pre, j ∈ blk.insts := fun j hj ↦ by simp [hsplit, hj]
  refine Sccp.eval_ne_top (fun hphi o ho ↦ ?_) fun heq ↦ ?_
  · exact h.avail_ne_top hr hb hpre (h.acc.dom.inst hb hsplit hphi o ho)
  · subst heq
    obtain ⟨a, ha, he, hav⟩ := h.exists_live_arg hr hb hi
    refine ⟨a, ha, he, ?_⟩
    rcases hav with hno | ⟨q, c, hdom, hq, hv⟩
    · exact h.grown.ne_top hno
    · exact (h.reached_of_dominates (h.grown.edge he).1 hdom).2 hq _ hv

/-- **A constant is what the instruction computes.** -/
theorem Solves.eval_eq (h : Solves f S) (hr : b ∈ S.reached) (hb : f.block? b = some blk)
    (hi : i ∈ blk.insts) (hd : d ∈ i.dests) (hc : S.get d = .const c) :
    i.dests = [d] ∧ eval S b i = .const c := by
  have hinst := h.inst hb hr i hi d hd
  rw [hc] at hinst
  split at hinst
  · cases hinst
  · rename_i hone
    have hnil : i.hi.toList = [] := by
      simp only [MirInst.dests, List.length_cons] at hone
      exact List.eq_nil_of_length_eq_zero (by omega)
    have hdests : i.dests = [i.dest] := by rw [MirInst.dests, hnil]
    rw [hdests, List.mem_singleton] at hd
    refine ⟨hd ▸ hdests, ?_⟩
    rw [Lat.meetDown_eq_meet, Lat.meet_eq_const] at hinst
    rcases hinst with hinst | hinst
    · exact hinst.2.resolve_left (h.eval_ne_top hr hb hi)
    · cases hinst.1

end CoilLang.Mir.Sccp
