import CoilLang.Mir.Destprop

/-!
# Forwarding trivial φs preserves the runs

The value that stands for a forwarded φ is **available where the φ is, and even at the start of its block**
(`rep_avail`, `rep_avail_start`). For on the first arrival at the block the φ reads an incoming that is
not the φ itself, so the value kept is available at the end of every block that a first arrival comes from;
the block that defines it is on every way and is not the block of the φ.

In a run the value available for a forwarded φ has the word of the value that stands for it
(`Agrees`), since all incomings of the φ do. So the two functions run block by block together, with the
same words in all values that are not forwarded (`RunRel`).
-/

namespace CoilLang.Mir

theorem WellFormed.eq_of_mem_insts {f : MirFunc} (hf : WellFormed f) {i j : MirInst} (hi : i ∈ f.insts)
    (hj : j ∈ f.insts) (h : j.dest = i.dest) : j = i := by
  obtain ⟨c, hc, hi⟩ := List.mem_flatMap.1 hi
  obtain ⟨c', hc', hj⟩ := List.mem_flatMap.1 hj
  obtain ⟨q, hq⟩ := List.mem_iff_getElem?.1 hc
  obtain ⟨q', hq'⟩ := List.mem_iff_getElem?.1 hc'
  exact (hf.eq_of_dest hq hq' hi hj (h ▸ i.dest_mem_dests)).2

theorem dests_of_isPhi {i : MirInst} (h : i.isPhi = true) : i.dests = [i.dest] := by
  cases i with
  | phi => rfl
  | _ => cases h

namespace Destprop

/-- What holds before each round: well formed, dominated uses, no φ in the entry block. -/
structure Regular (f : MirFunc) : Prop where
  wf : WellFormed f
  dom : f.DominatedIn f.DomRoot
  entry : ∀ b, f.block? f.entry = some b → b.phis = []

variable {f : MirFunc} {subst : List (ValueId × ValueId)} {d k v : ValueId} {ty : MirTy}
  {args : List (BlockId × ValueId)} {B b : BlockId} {blk : MirBlock} {pre : List MirInst}

/-! ### The φs that are forwarded -/

namespace Built

theorem isPhi_of_dest (hS : Built f subst) (hf : WellFormed f) {i : MirInst} (hi : i ∈ f.insts)
    (hd : i.dest ∈ subst.map Prod.fst) : i.isPhi = true := by
  obtain ⟨ty, args, hphi⟩ := hS.exists_phi hd
  rw [hf.eq_of_mem_insts hphi hi rfl]
  rfl

/-- What is written and not forwarded is written by an instruction that stays. -/
theorem dest_notMem (hS : Built f subst) (hf : WellFormed f) {i : MirInst} (hi : i ∈ f.insts)
    (hv : v ∈ i.dests) (hk : v ∉ subst.map Prod.fst) : i.dest ∉ subst.map Prod.fst := by
  intro hd
  rw [dests_of_isPhi (hS.isPhi_of_dest hf hi hd), List.mem_singleton] at hv
  exact hk (hv ▸ hd)

/-- A value and the one that stands for it have the same type. -/
theorem rep_ty (hS : Built f subst) (hf : WellFormed f) (v : ValueId) : f.ty (rep subst v) = f.ty v := by
  induction hS with
  | nil => rfl
  | cons h hi hd hk ih =>
    rw [rep]
    split
    · rename_i hv
      obtain ⟨c, hc, hi⟩ := List.mem_flatMap.1 hi
      rw [(h.trivial hk).2.2.2, ← (hf.phi hc hi).1, ← hv, ih]
    · exact ih

/-- **All incomings of a forwarded φ stand for the same value**, and there are some. -/
theorem rep_arg (hS : Built f subst) (hf : WellFormed f) (hd : d ∈ subst.map Prod.fst)
    (hi : MirInst.phi d ty args ∈ f.insts) : args ≠ [] ∧ ∀ a ∈ args, rep subst a.2 = rep subst d := by
  induction hS with
  | nil => cases hd
  | cons h hj hnot hk ih =>
    rename_i e k ty' args' subst
    rcases List.mem_cons.1 hd with rfl | hd
    · obtain ⟨-, rfl⟩ : ty = ty' ∧ args = args' := by simpa using hf.eq_of_mem_insts hj hi rfl
      obtain ⟨hargs, ⟨a₀, ha₀, -⟩, hne, -⟩ := h.trivial hk
      refine ⟨List.ne_nil_of_mem ha₀, fun a ha ↦ ?_⟩
      rw [rep, rep, rep_of_notMem hnot, if_pos rfl]
      rcases hargs a ha with heq | heq
      · rw [heq, if_pos rfl]
      · rw [heq, if_neg hne]
    · obtain ⟨hne, hargs⟩ := ih hd
      exact ⟨hne, fun a ha ↦ by rw [rep, rep, hargs a ha]⟩

end Built

/-! ### The value that stands for a φ is available where the φ is -/

/-- Before the first arrival at the block of a φ. -/
theorem Regular.first_arrival (hf : Regular f) (hb : f.block? B = some blk)
    (hi : MirInst.phi d ty args ∈ blk.insts) (hne : args ≠ []) {h : List BlockId}
    (hw : Walk f.DomRoot f.Edge B h) :
    ∃ u p t, h = u ++ B :: t ∧ B ∉ t ∧ Walk f.DomRoot f.Edge p t ∧ f.Edge p B := by
  have hroot : ¬f.DomRoot B := by
    rintro (rfl | ⟨-, hpreds⟩)
    · have hphi : MirInst.phi d ty args ∈ blk.phis := List.mem_filter.2 ⟨hi, rfl⟩
      rw [hf.entry blk hb] at hphi
      cases hphi
    · have hperm := (hf.wf.phi (List.mem_of_getElem? hb) hi).2.1
      rw [hf.wf.id hb, hpreds] at hperm
      exact hne (List.map_eq_nil_iff.1 hperm.eq_nil)
  obtain ⟨u, t, rfl, ht⟩ := exists_first_visit hw.mem_self
  rcases hw.of_append.cons_cases with ⟨-, hr⟩ | ⟨p, hp, he⟩
  · exact absurd hr hroot
  · exact ⟨u, p, t, rfl, ht, hp, he⟩

/-- **The value kept is available at the start of the block**, when what stands for the incomings is available
where they are. -/
theorem Regular.avail_kept (hf : Regular f) (hb : f.block? B = some blk)
    (hi : MirInst.phi d ty args ∈ blk.insts) {r : ValueId → ValueId}
    (hr : ∀ {p c v}, (∃ h, Walk f.DomRoot f.Edge p h) → f.block? p = some c →
      f.AvailIn f.DomRoot p c.insts v → f.AvailIn f.DomRoot p c.insts (r v))
    (hargs : ∀ a ∈ args, r a.2 = d ∨ r a.2 = k) (hne : args ≠ [])
    (hreach : ∃ h, Walk f.DomRoot f.Edge B h) : f.AvailIn f.DomRoot B [] k := by
  have hdef : d ∈ blk.defs := List.mem_flatMap.2 ⟨_, hi, MirInst.dest_mem_dests _⟩
  -- at the end of a block that a first arrival comes from
  have hfrom : ∀ {p t}, Walk f.DomRoot f.Edge p t → B ∉ t → f.Edge p B → f.AvailEndIn f.DomRoot p k := by
    rintro p t hw hBt ⟨c, hc, hs⟩
    have hs' : blk.id ∈ c.succs := by rwa [hf.wf.id hb]
    obtain ⟨a, ha⟩ := hf.wf.exists_arg (List.mem_of_getElem? hb) (List.mem_of_getElem? hc) hs' hi
    have hmem := List.mem_of_find?_eq_some ha
    have hap : a.1 = p := by simpa [hf.wf.id hc] using List.find?_some ha
    have hav := hf.dom.phi hb hi a hmem (hap ▸ ⟨t, hw⟩)
    rw [hap] at hav
    have hrep := (availEndIn_iff hc).2 (hr ⟨t, hw⟩ hc ((availEndIn_iff hc).1 hav))
    rcases hargs a hmem with heq | heq
    · -- the φ itself is not there yet
      rw [heq] at hrep
      rcases hrep with hrep | ⟨q, c', hdom, hq, hv⟩
      · exact absurd (mem_defs_of_block? hb hdef) hrep
      · obtain rfl := hf.wf.eq_of_mem_defs hq hb hv hdef
        exact absurd (hdom t hw) hBt
    · rwa [heq] at hrep
  by_cases hk : k ∈ f.defs
  · obtain ⟨h, hw⟩ := hreach
    obtain ⟨u, p, t, rfl, ht, hp, he⟩ := hf.first_arrival hb hi hne hw
    obtain hk' | ⟨q, c, hdom, hq, hv⟩ := hfrom hp ht he
    · exact absurd hk hk'
    refine .inr (.inr ⟨q, c, fun hqB ↦ ht (hqB ▸ hdom t hp), fun h' hw' ↦ ?_, hq, hv⟩)
    obtain ⟨u', p', t', rfl, ht', hp', he'⟩ := hf.first_arrival hb hi hne hw'
    obtain hk' | ⟨q', c', hdom', hq', hv'⟩ := hfrom hp' ht' he'
    · exact absurd hk hk'
    · obtain rfl := hf.wf.eq_of_mem_defs hq' hq hv' hv
      exact List.mem_append_right _ (List.mem_cons_of_mem _ (hdom' t' hp'))
  · exact .inl hk

/-- What is available at the start of the block that defines `d` is available where `d` is. -/
theorem Regular.avail_of_start (hf : Regular f) (hB : f.block? B = some blk) (hd : d ∈ blk.defs)
    {c : MirBlock} (hreach : ∃ h, Walk f.DomRoot f.Edge b h) (hb : f.block? b = some c)
    (hpre : ∀ i ∈ pre, i ∈ c.insts) (hav : f.AvailIn f.DomRoot b pre d)
    (hk : (∃ h, Walk f.DomRoot f.Edge B h) → f.AvailIn f.DomRoot B [] k) :
    f.AvailIn f.DomRoot b pre k := by
  obtain ⟨h, hw⟩ := hreach
  rcases hav with hav | hav | ⟨q, c', hqb, hdom, hq, hv⟩
  · exact absurd (mem_defs_of_block? hB hd) hav
  · -- `d` is defined in this block
    obtain ⟨i, hi, hv⟩ := List.mem_flatMap.1 hav
    obtain rfl := hf.wf.eq_of_mem_defs hb hB (List.mem_flatMap.2 ⟨i, hpre i hi, hv⟩) hd
    exact (hk ⟨h, hw⟩).mono_pre fun v hv ↦ (by cases hv)
  · obtain rfl := hf.wf.eq_of_mem_defs hq hB hv hd
    obtain ⟨u, t, rfl⟩ := List.append_of_mem (hdom h hw)
    rcases hk ⟨_, hw.of_append⟩ with hk | hk | ⟨q', c'', hne, hdom', hq', hv'⟩
    · exact .inl hk
    · cases hk
    · refine .inr (.inr ⟨q', c'', ?_, hdom'.trans hdom, hq', hv'⟩)
      rintro rfl
      exact hdom.not_symm hqb hw hdom'

/-- **What stands for a value is available where the value is.** -/
theorem Built.rep_avail (hS : Built f subst) (hf : Regular f) {c : MirBlock}
    (hreach : ∃ h, Walk f.DomRoot f.Edge b h) (hb : f.block? b = some c) (hpre : ∀ i ∈ pre, i ∈ c.insts)
    (hav : f.AvailIn f.DomRoot b pre v) : f.AvailIn f.DomRoot b pre (rep subst v) := by
  induction hS generalizing b c pre v with
  | nil => exact hav
  | cons h hi hd hk ih =>
    have hrep := ih hreach hb hpre hav
    rw [rep]
    split
    · rename_i hv
      rw [hv] at hrep
      obtain ⟨blk, hblk, hi⟩ := List.mem_flatMap.1 hi
      obtain ⟨B, hB⟩ := List.mem_iff_getElem?.1 hblk
      obtain ⟨hargs, ⟨a, ha, -⟩, -⟩ := h.trivial hk
      refine hf.avail_of_start hB (List.mem_flatMap.2 ⟨_, hi, MirInst.dest_mem_dests _⟩) hreach hb hpre hrep ?_
      exact hf.avail_kept hB hi (fun hp hc hv ↦ ih hp hc (fun _ hj ↦ hj) hv) hargs (List.ne_nil_of_mem ha)
    · exact hrep

/-- What stands for a forwarded φ is available at the start of its block. -/
theorem Built.rep_avail_start (hS : Built f subst) (hf : Regular f) (hd : d ∈ subst.map Prod.fst)
    (hb : f.block? B = some blk) (hi : MirInst.phi d ty args ∈ blk.insts)
    (hreach : ∃ h, Walk f.DomRoot f.Edge B h) : f.AvailIn f.DomRoot B [] (rep subst d) := by
  obtain ⟨hne, hargs⟩ := hS.rep_arg hf.wf hd (List.mem_flatMap.2 ⟨blk, List.mem_of_getElem? hb, hi⟩)
  exact hf.avail_kept hb hi (fun hp hc hv ↦ hS.rep_avail hf hp hc (fun _ hj ↦ hj) hv)
    (fun a ha ↦ .inr (hargs a ha)) hne hreach

/-! ### A round keeps the function regular -/

/-- The instruction is not forwarded. -/
def stays (subst : List (ValueId × ValueId)) (i : MirInst) : Bool := i.dest ∉ subst.map Prod.fst

theorem forward_eq_prune (subst : List (ValueId × ValueId)) (f : MirFunc) :
    forward subst f = f.prune (fun _ ↦ stays subst) (resolve subst) := by
  unfold forward MirFunc.prune
  congr 2
  funext b
  unfold forwardBlock MirBlock.prune
  rw [List.filter_map]
  simp only [Function.comp_def, MirInst.rewriteValues_dest]
  rfl

theorem Regular.forward (hf : Regular f) (hS : Built f subst) : Regular (forward subst f) := by
  rw [forward_eq_prune]
  have hrep := hS.fresh.resolve_eq_rep
  refine ⟨hf.wf.prune fun v ↦ by rw [hrep, hS.rep_ty hf.wf], ?_, fun b hb ↦ ?_⟩
  · rw [MirFunc.prune_domRoot]
    have hkept : ∀ c ∈ f.blocks, ∀ i ∈ c.insts, ∀ v ∈ i.dests, v ∉ subst.map Prod.fst →
        stays subst i = true := fun c hc i hi v hv hk ↦
      decide_eq_true (hS.dest_notMem hf.wf (List.mem_flatMap.2 ⟨c, hc, hi⟩) hv hk)
    have hnot : ∀ v, resolve subst v ∉ subst.map Prod.fst := fun v ↦ by
      rw [hrep]
      exact hS.fresh.rep_notMem v
    refine hf.dom.prune hf.wf (fun hw hb hpre hav ↦ ?_) hkept (fun _ _ _ _ _ o _ ↦ hnot o)
      fun _ _ _ _ o _ ↦ hnot o
    rw [hrep]
    exact hS.rep_avail hf hw hb hpre hav
  · rw [MirFunc.block?_prune] at hb
    obtain ⟨c, hc, rfl⟩ := Option.map_eq_some_iff.1 hb
    rw [MirBlock.prune_phis, hf.entry c hc]
    rfl

/-! ### The same runs -/

/-- The values in `D` have the words of those that stand for them. -/
def Agrees (subst : List (ValueId × ValueId)) (D : ValueId → Prop) (env : Env) : Prop :=
  ∀ v, D v → env (rep subst v) = env v

/-- The same memory but for the values that are forwarded. -/
structure MemRel {σ : Type} (subst : List (ValueId × ValueId)) (m m' : Mem σ) : Prop where
  world : m'.world = m.world
  trace : m'.trace = m.trace
  env : ∀ v, v ∉ subst.map Prod.fst → m'.env v = m.env v

section
variable {σ π : Type} {m m' : Mem σ} {s t : State σ}

/-- What an operand is renamed to has the word of the operand. -/
theorem MemRel.resolve (hm : MemRel subst m m') (hS : Built f subst) (hv : m.env (rep subst v) = m.env v) :
    m'.env (resolve subst v) = m.env v := by
  rw [hS.fresh.resolve_eq_rep, hm.env _ (hS.fresh.rep_notMem v), hv]

theorem execBody_forward (hf : Regular f) (hS : Built f subst) (hb : f.block? b = some blk)
    (hreach : ∃ h, Walk f.DomRoot f.Edge b h) (W : World σ π) {is : List MirInst}
    (hblk : blk.insts = pre ++ is) (hphi : ∀ i ∈ is, i.isPhi = false) (hm : MemRel subst m m')
    (hA : Agrees subst (f.AvailIn f.DomRoot b pre) m.env) :
    ResRel (fun n n' ↦ MemRel subst n n' ∧ Agrees subst (f.AvailIn f.DomRoot b blk.insts) n.env)
      (execBody W is m) (execBody W (is.map (MirInst.rewriteValues (resolve subst))) m') := by
  induction is generalizing pre m m' with
  | nil =>
    rw [List.append_nil] at hblk
    exact ⟨hm, hblk ▸ hA⟩
  | cons i is ih =>
    have hi : i.isPhi = false := hphi i List.mem_cons_self
    have hmem : i ∈ blk.insts := by simp [hblk]
    have hpre : ∀ j ∈ pre, j ∈ blk.insts := fun j hj ↦ by simp [hblk, hj]
    have heval : evalInst W (i.rewriteValues (resolve subst)) m'.env m'.world m'.trace =
        evalInst W i m.env m.world m.trace := by
      rw [hm.world, hm.trace]
      exact evalInst_rewriteValues fun o ho ↦ hm.resolve hS (hA o (hf.dom.inst hreach hb hblk hi o ho))
    simp only [List.map_cons, execBody, execInst, heval]
    cases hev : evalInst W i m.env m.world m.trace with
    | error r => rfl
    | ok w =>
      simp only [MirInst.rewriteValues_dest, MirInst.rewriteValues_hi]
      have hblk' : blk.insts = (pre ++ [i]) ++ is := by simp [hblk]
      refine ih hblk' (fun j hj ↦ hphi j (List.mem_cons_of_mem _ hj))
        ⟨rfl, rfl, fun v hv ↦ ?_⟩ fun v hv ↦ ?_
      · by_cases hd : v ∈ i.dests
        · exact Env.write_of_mem hd
        · show m'.env.write i.dest i.hi w.1 v = m.env.write i.dest i.hi w.1 v
          rw [Env.write_of_notMem hd, Env.write_of_notMem hd]
          exact hm.env v hv
      · show m.env.write i.dest i.hi w.1 (rep subst v) = m.env.write i.dest i.hi w.1 v
        by_cases hd : v ∈ i.dests
        · -- only φs are forwarded
          have hk : v ∉ subst.map Prod.fst := fun hk ↦ by
            obtain ⟨ty, args, hj⟩ := hS.exists_phi hk
            obtain ⟨c, hc, hj⟩ := List.mem_flatMap.1 hj
            obtain ⟨q, hq⟩ := List.mem_iff_getElem?.1 hc
            obtain ⟨-, rfl⟩ := hf.wf.eq_of_dest hb hq hmem hj hd
            cases hi
          rw [rep_of_notMem hk]
        · have hv' : f.AvailIn f.DomRoot b pre v := by
            rcases hv with hv | hv | hv
            · exact .inl hv
            · rw [List.flatMap_append, List.mem_append] at hv
              exact .inr (.inl (hv.resolve_right fun h ↦ hd (by simpa using h)))
            · exact .inr (.inr hv)
          have hrep := hf.wf.notMem_dests_of_availIn hb hblk (hS.rep_avail hf hreach hb hpre hv')
          rw [Env.write_of_notMem hd, Env.write_of_notMem hrep]
          exact hA v hv'

/-- The runs are in the same block, entered by the same edge; the values available at the end of the block
left have the words of those that stand for them. -/
structure RunRel (f : MirFunc) (subst : List (ValueId × ValueId)) (s t : State σ) : Prop where
  block : t.block = s.block
  pred : t.pred = s.pred
  mem : MemRel subst s.mem t.mem
  start : s.pred = none → s.block = f.entry
  edge : ∀ {p}, s.pred = some p → (∃ h, Walk f.DomRoot f.Edge p h) ∧ f.Edge p s.block ∧
    Agrees subst (f.AvailEndIn f.DomRoot p) s.mem.env

namespace RunRel

theorem reached (h : RunRel f subst s t) : ∃ l, Walk f.DomRoot f.Edge s.block l := by
  cases hp : s.pred with
  | none => exact ⟨_, .start (.inl (h.start hp))⟩
  | some p =>
    obtain ⟨⟨l, hw⟩, he, -⟩ := h.edge hp
    exact ⟨_, hw.step he⟩

/-- The incoming a φ reads has the word of the value that stands for it. -/
theorem arg (h : RunRel f subst s t) (hf : Regular f) (hb : f.block? s.block = some blk) {i : MirInst}
    (hi : i ∈ blk.phis) {a : ValueId} (ha : phiArg s.pred i = some a) :
    s.mem.env (rep subst a) = s.mem.env a := by
  obtain ⟨d, ty, args, p, rfl, hp, hfind⟩ := phiArg_eq_some ha
  obtain ⟨hreach, -, hA⟩ := h.edge hp
  exact hA a (hf.dom.phi hb (List.mem_filter.1 hi).1 _ (List.mem_of_find?_eq_some hfind) hreach)

/-- What is available at the start of the block is not written by its φs. -/
theorem enter_of_avail (hf : Regular f) (hb : f.block? b = some blk) {p : Option BlockId} {env : Env}
    (hv : f.AvailIn f.DomRoot b [] v) : Mir.enter p blk.phis env v = env v := by
  refine enter_of_notMem fun i hi heq ↦ ?_
  subst heq
  obtain ⟨u, t, hsplit⟩ := List.append_of_mem (List.mem_filter.1 hi).1
  have hav : f.AvailIn f.DomRoot b u i.dest := hv.mono_pre fun w hw ↦ (by cases hw)
  exact hf.wf.notMem_dests_of_availIn hb hsplit hav i.dest_mem_dests

/-- The φs keep the words of values and of what stands for them the same. -/
theorem enter_agrees (h : RunRel f subst s t) (hf : Regular f) (hS : Built f subst)
    (hb : f.block? s.block = some blk) (hready : ready s.pred blk.phis = true) :
    Agrees subst (f.AvailIn f.DomRoot s.block blk.phis) (Mir.enter s.pred blk.phis s.mem.env) := by
  intro v hv
  by_cases hk : v ∈ subst.map Prod.fst
  · rcases hv with hv | hv | ⟨q, c, hqb, hdom, hq, hv⟩
    · obtain ⟨ty, args, hi⟩ := hS.exists_phi hk
      obtain ⟨c, hc, hi⟩ := List.mem_flatMap.1 hi
      refine absurd (List.mem_flatMap.2 ⟨c, hc, ?_⟩) hv
      exact List.mem_flatMap.2 ⟨_, hi, MirInst.dest_mem_dests _⟩
    · -- a forwarded φ of this block reads what stands for it
      obtain ⟨i, hi, hvi⟩ := List.mem_flatMap.1 hv
      obtain ⟨hin, hphi⟩ := List.mem_filter.1 hi
      rw [dests_of_isPhi hphi, List.mem_singleton] at hvi
      have hinsts : ∀ {j}, j ∈ blk.phis → j ∈ f.insts := fun hj ↦
        List.mem_flatMap.2 ⟨blk, List.mem_of_getElem? hb, (List.mem_filter.1 hj).1⟩
      have hfind : blk.phis.find? (·.dest = v) = some i := by
        cases hj : blk.phis.find? (·.dest = v) with
        | none =>
          have := List.find?_eq_none.1 hj i hi
          simp [hvi] at this
        | some j =>
          have hjv : j.dest = v := by simpa using List.find?_some hj
          rw [hf.wf.eq_of_mem_insts (hinsts hi) (hinsts (List.mem_of_find?_eq_some hj)) (hjv.trans hvi)]
      obtain ⟨a, ha⟩ := Option.isSome_iff_exists.1 (List.all_eq_true.1 hready i hi)
      obtain ⟨d, ty, args, p, rfl, hp, hfa⟩ := phiArg_eq_some ha
      obtain rfl : v = d := hvi
      have hstart := hS.rep_avail_start hf hk hb hin h.reached
      have hrep := (hS.rep_arg hf.wf hk (hinsts hi)).2 _ (List.mem_of_find?_eq_some hfa)
      rw [enter_of_avail hf hb hstart, Mir.enter, hfind, Option.bind_some, ha, ← hrep]
      exact h.arg hf hb hi ha
    · -- defined in a block on the way
      have hav : f.AvailIn f.DomRoot s.block [] v := .inr (.inr ⟨q, c, hqb, hdom, hq, hv⟩)
      have hrep := hS.rep_avail hf h.reached hb (fun _ hj ↦ (by cases hj)) hav
      rw [enter_of_avail hf hb hav, enter_of_avail hf hb hrep]
      cases hp : s.pred with
      | none =>
        refine absurd (hdom _ (.start (.inl (h.start hp)))) fun hmem ↦ ?_
        exact hqb (List.mem_singleton.1 hmem)
      | some p =>
        obtain ⟨-, he, hA⟩ := h.edge hp
        exact hA v (.inr ⟨q, c, hdom.pred hqb he, hq, hv⟩)
  · rw [rep_of_notMem hk]

/-- The φs that stay write the same words. -/
theorem enter_kept (h : RunRel f subst s t) (hf : Regular f) (hS : Built f subst)
    (hb : f.block? s.block = some blk) (hk : v ∉ subst.map Prod.fst) :
    Mir.enter t.pred (blk.prune (stays subst) (resolve subst)).phis t.mem.env v =
      Mir.enter s.pred blk.phis s.mem.env v := by
  have hstays : ∀ i ∈ blk.phis, v ∈ i.dests → stays subst i = true := fun i hi hv ↦
    decide_eq_true (hS.dest_notMem hf.wf
      (List.mem_flatMap.2 ⟨blk, List.mem_of_getElem? hb, (List.mem_filter.1 hi).1⟩) hv hk)
  unfold Mir.enter
  rw [MirBlock.find?_prune_phis hstays, h.pred]
  cases hi : blk.phis.find? (·.dest = v) with
  | none => exact h.mem.env v hk
  | some i =>
    simp only [Option.map_some, Option.bind_some, phiArg_rewriteValues]
    cases ha : phiArg s.pred i with
    | none => exact h.mem.env v hk
    | some a => exact h.mem.resolve hS (h.arg hf hb (List.mem_of_find?_eq_some hi) ha)

theorem execTerm (hf : Regular f) (hS : Built f subst) (hb : f.block? b = some blk)
    (hreach : ∃ h, Walk f.DomRoot f.Edge b h) (hm : MemRel subst m m')
    (hA : Agrees subst (f.AvailIn f.DomRoot b blk.insts) m.env) :
    StepRel (RunRel f subst) (Mir.execTerm (π := π) b m blk.term)
      (Mir.execTerm b m' (blk.prune (stays subst) (resolve subst)).term) := by
  obtain ⟨t, ht⟩ := hf.wf.term blk (List.mem_of_getElem? hb)
  have hword : ∀ o ∈ t.operands, m'.env (resolve subst o) = m.env o := fun o ho ↦
    hm.resolve hS (hA o ((availEndIn_iff hb).1 (hf.dom.term hreach hb ht o ho)))
  show StepRel _ (Mir.execTerm b m blk.term) (Mir.execTerm b m' (blk.term.map _))
  rw [ht, Option.map_some, execTerm_rewriteValues hm.world hm.trace hword]
  cases hrun : Mir.execTerm (π := π) b m (some t) with
  | inr r => rfl
  | inl s =>
    obtain ⟨hp, hs, rfl⟩ := execTerm_succ hrun
    refine ⟨rfl, rfl, hm, fun h ↦ ?_, fun h ↦ ?_⟩
    · rw [hp] at h
      cases h
    · obtain rfl := Option.some.inj (hp.symm.trans h)
      refine ⟨hreach, ⟨blk, hb, ?_⟩, fun v hv ↦ hA v ((availEndIn_iff hb).1 hv)⟩
      rw [MirBlock.succs, ht]
      exact hs

end RunRel

end

/-- **Forwarding trivial φs preserves the runs.** -/
theorem forward_preserves (hf : Regular f) (hS : Built f subst) : Preserves f (forward subst f) := by
  rw [forward_eq_prune]
  refine Preserves.of_lockstep fun σ π W env w ↦
    ⟨RunRel f subst, ⟨rfl, rfl, ⟨rfl, rfl, fun _ _ ↦ rfl⟩, fun _ ↦ rfl, fun h ↦ (by cases h)⟩, ?_⟩
  intro s t h
  refine ⟨h.mem.trace.symm, fun hsafe ↦ ?_⟩
  unfold step at hsafe ⊢
  rw [MirFunc.block?_prune, h.block]
  cases hb : f.block? s.block with
  | none => exact (congrArg₂ (Result.mk Outcome.stuck) h.mem.world h.mem.trace).symm
  | some blk =>
    rw [hb] at hsafe
    have hready : ready s.pred blk.phis = true := by
      by_contra hnot
      simp [execBlock, hnot, Mem.finish] at hsafe
    have hbody : blk.body.filter (stays subst) = blk.body := List.filter_eq_self.2 fun i hi ↦ by
      refine decide_eq_true fun hd ↦ ?_
      have hin : i ∈ f.insts := List.mem_flatMap.2 ⟨blk, List.mem_of_getElem? hb, (List.mem_filter.1 hi).1⟩
      have hphi := hS.isPhi_of_dest hf.wf hin hd
      rw [blk.body_not_phi i hi] at hphi
      cases hphi
    show StepRel _ (execBlock W blk s) (execBlock W (blk.prune (stays subst) (resolve subst)) t)
    rw [execBlock, execBlock, if_pos hready, h.pred, if_pos (MirBlock.ready_prune hready),
      MirBlock.prune_body, hbody, h.block]
    have hm : MemRel subst (Mem.mk (enter s.pred blk.phis s.mem.env) s.mem.world s.mem.trace)
        ⟨enter s.pred (blk.prune (stays subst) (resolve subst)).phis t.mem.env, t.mem.world,
          t.mem.trace⟩ :=
      ⟨h.mem.world, h.mem.trace, fun v hk ↦ h.pred ▸ h.enter_kept hf hS hb hk⟩
    have hrun := execBody_forward hf hS hb h.reached W (hf.wf.insts blk (List.mem_of_getElem? hb))
      blk.body_not_phi hm (h.enter_agrees hf hS hb hready)
    exact hrun.leave fun n n' hn ↦ RunRel.execTerm hf hS hb h.reached hn.1 hn.2

/-! ### All the rounds -/

/-- **One round** ends with a regular function of the same runs. -/
theorem Regular.destpropOnce (hf : Regular f) : ∃ N r, (∀ fuel, N ≤ fuel → destpropOnce fuel f = some r) ∧
    Regular r.1 ∧ Preserves f r.1 := by
  obtain ⟨subst, hS, hloop⟩ := exists_subst f
  have hrun : ∀ fuel, waiting f [] + 1 ≤ fuel → Destprop.destpropOnce fuel f =
      some (if subst = [] then (f, 0) else (Destprop.forward subst f, subst.length)) := fun fuel hfuel ↦ by
    rw [Destprop.destpropOnce, hloop fuel hfuel, Option.map_some]
  refine ⟨_, _, hrun, ?_⟩
  split
  · exact ⟨hf, .refl f⟩
  · exact ⟨hf.forward hS, forward_preserves hf hS⟩

/-- **All the rounds**, by induction on their number. -/
theorem Regular.destpropRounds (hf : Regular f) (n : ℕ) :
    ∃ N r, (∀ fuel, N ≤ fuel → destpropRounds fuel n f = some r) ∧ Regular r.1 ∧ Preserves f r.1 := by
  induction n generalizing f with
  | zero => exact ⟨0, (f, 0), fun _ _ ↦ rfl, hf, .refl f⟩
  | succ n ih =>
    obtain ⟨N, r, hN, hr, hp⟩ := hf.destpropOnce
    obtain ⟨N', r', hN', hr', hp'⟩ := ih hr
    by_cases hz : r.2 = 0
    · refine ⟨N, r, fun fuel hfuel ↦ ?_, hr, hp⟩
      rw [Destprop.destpropRounds, hN fuel hfuel, Option.bind_some, if_pos hz]
    · refine ⟨N + N', (r'.1, r.2 + r'.2), fun fuel hfuel ↦ ?_, hr', hp.trans hp'⟩
      rw [Destprop.destpropRounds, hN fuel (by omega), Option.bind_some, if_neg hz, hN' fuel (by omega),
        Option.map_some]

theorem strip_eq_prune (f : MirFunc) (live : List ValueId) :
    strip f live = f.prune (retained f.traps live) id := by
  unfold strip MirFunc.prune
  congr 2
  funext b
  have hinst : MirInst.rewriteValues id = id := funext MirInst.rewriteValues_id
  have hterm : Terminator.rewriteValues id = id := funext Terminator.rewriteValues_id
  rw [stripBlock, MirBlock.prune, hinst, hterm, List.map_id, Option.map_id_fun, id_eq]

/-- Dead code elimination keeps the function regular: what a retained instruction reads is live. -/
theorem Regular.strip (hf : Regular f) {live : List ValueId} (huses : ∀ v ∈ f.termUses, v ∈ live)
    (hcl : Closed f live) : Regular (strip f live) := by
  rw [strip_eq_prune]
  refine ⟨hf.wf.prune fun _ ↦ rfl, ?_, fun b hb ↦ ?_⟩
  · rw [MirFunc.prune_domRoot]
    have hkept : ∀ c ∈ f.blocks, ∀ i ∈ c.insts, ∀ v ∈ i.dests, v ∈ live →
        retained f.traps live c i = true := by
      intro c _ i _ v hv hlive
      rcases List.mem_cons.1 hv with rfl | hv
      · simp [retained, hlive]
      · -- only barriers have a second result
        by_contra hnot
        simp only [retained, decide_eq_true_eq, not_or] at hnot
        rw [hi_of_dead (by simpa using hnot.1)] at hv
        cases hv
    exact hf.dom.prune hf.wf (fun _ _ _ hav ↦ hav) hkept
      (fun _ hc _ hi hr o ho ↦ operands_live hcl hc hi hr o ho)
      fun _ hc _ ht o ho ↦ termUses_live huses hc ht o ho
  · rw [MirFunc.block?_prune] at hb
    obtain ⟨c, hc, rfl⟩ := Option.map_eq_some_iff.1 hb
    rw [MirBlock.prune_phis, hf.entry c hc]
    rfl

/-- **The whole pass** ends with a regular function of the same runs. -/
theorem Regular.destprop (hf : Regular f) : ∃ N r, (∀ fuel, N ≤ fuel → destprop fuel f = some r) ∧
    Regular r.1 ∧ Preserves f r.1 := by
  obtain ⟨N, r, hN, hr, hp⟩ := hf.destpropRounds 8
  by_cases hz : 0 < r.2
  · obtain ⟨live, huses, hcl, hdce⟩ := exists_dce r.1
    refine ⟨N + (dead r.1 r.1.termUses + 1), (Mir.strip r.1 live, r.2), fun fuel hfuel ↦ ?_,
      hr.strip huses hcl, hp.trans (strip_preserves hcl huses hr.wf.trapTyped)⟩
    rw [Destprop.destprop, hN fuel (by omega), Option.bind_some, if_pos hz, hdce fuel (by omega),
      Option.map_some]
  · refine ⟨N, r, fun fuel hfuel ↦ ?_, hr, hp⟩
    rw [Destprop.destprop, hN fuel hfuel, Option.bind_some, if_neg hz]

/-- Following the forwardings from any value ends, by itself, at a value that is not forwarded. -/
def Resolves (subst : List (ValueId × ValueId)) : Prop :=
  ∀ v, subst.lookup (resolve subst v) = none ∧
    ∀ n, subst.length < n → resolveFrom subst n [] v = resolve subst v

theorem Fresh.resolves (h : Fresh subst) : Resolves subst := by
  refine fun v ↦ ⟨h.lookup_resolve v, fun n hn ↦ ?_⟩
  rw [h.resolve_eq_rep]
  refine h.resolveFrom_eq (fun hv ↦ ?_) (by omega) fun s hs ↦ (by cases hs)
  have := List.idxOf_lt_length_of_mem hv
  rw [List.length_map] at this
  omega

/-- Two φs forward each other around a loop. -/
def phiCycle : MirFunc where
  params := [0, 1]
  retTy := some .i64
  retHiTy := none
  retLayout := .word
  entry := 0
  blocks := [
    ⟨0, [], some (.jump 1)⟩,
    ⟨1, [.phi 2 .i64 [(0, 0), (2, 3)]], some (.br 1 2 3)⟩,
    ⟨2, [.phi 3 .i64 [(1, 2)]], some (.jump 1)⟩,
    ⟨3, [], some (.ret (some 2) none)⟩]
  types := [.i64, .bool, .i64, .i64]

/-- A φ in the entry block: at the start it reads nothing. -/
def entryPhi : MirFunc where
  params := [0]
  retTy := none
  retHiTy := none
  retLayout := .word
  entry := 0
  blocks := [
    ⟨0, [.phi 1 .i64 [(1, 2)]], some (.jump 1)⟩,
    ⟨1, [.bin 2 .add .i64 1 0], some (.jump 0)⟩]
  types := [.i64, .i64, .i64]

/-- A loop that nothing enters. -/
def unreachedLoop : MirFunc where
  params := [0]
  retTy := none
  retHiTy := none
  retLayout := .word
  entry := 0
  blocks := [
    ⟨0, [], some (.ret none none)⟩,
    ⟨1, [.phi 1 .i64 [(1, 2)], .bin 2 .add .i64 1 0], some (.jump 1)⟩]
  types := [.i64, .i64, .i64]

end Destprop

end CoilLang.Mir
