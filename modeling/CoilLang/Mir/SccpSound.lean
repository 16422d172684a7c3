import CoilLang.Mir.DestpropSound
import CoilLang.Mir.SccpFold

/-!
# Folding preserves the runs

A run stays on **edges that run**, and every value available in it has the word of the constant it is proven
to be, and that of the value that stands for it (`Known`). A φ reads an incoming of an edge that runs, which
cannot be unknown; an instruction that is constant gives its constant and no trap, whatever the operands not
known are.

So the function and what it is folded to run block by block together, with the same words in all values that
are not forwarded (`FoldRel`).
-/

namespace CoilLang.Mir.Sccp

variable {σ π : Type} {f : MirFunc} {S : Solution} {r : ValueId → ValueId} {b p q : BlockId} {blk : MirBlock}
  {i : MirInst} {v d a : ValueId} {c : MirConst} {pre post is : List MirInst} {env : Env} {W : World σ π}
  {s t : State σ} {m m' : Mem σ}

/-- The word of a value is the constant it is proven to be, and that of what stands for it. -/
def Known (S : Solution) (r : ValueId → ValueId) (env : Env) (v : ValueId) : Prop :=
  (∀ c, S.get v = .const c → env v = c.word) ∧ env (r v) = env v

/-- **An instruction proven constant gives its constant.** -/
theorem Solves.arith_eq (h : Solves f S) (hr : b ∈ S.reached) (hb : f.block? b = some blk)
    (hi : i ∈ blk.insts) (hphi : i.isPhi = false) (hd : d ∈ i.dests) (hc : S.get d = .const c)
    (henv : ∀ o ∈ i.operands, ∀ c, S.get o = .const c → env o = c.word) :
    arith env i = some (.ok c.word) := by
  obtain ⟨-, heval⟩ := h.eval_eq hr hb hi hd hc
  cases i with
  | const d' c' =>
    cases heval
    rfl
  | phi => cases hphi
  | op d' k args => simp [eval, foldable] at heval
  | bin | cmp | unary | cast =>
    simp only [eval, foldable, if_true] at heval
    split at heval
    · cases heval
    · split at heval
      · rename_i hconst
        cases heval
        refine constOf_sound hconst fun o ho c hk ↦ henv o ho c ?_
        rw [known, if_pos ho] at hk
        cases hget : S.get o <;> rw [hget] at hk <;> cases hk
        rfl
      · cases heval

/-! ### What stands for a value is not written after it -/

theorem Stands.self_of_notMem (hS : Stands f S r) (h : Solves f S) (hv : v ∉ f.defs) : r v = v :=
  hS.self fun hk ↦ hv (keys_subset_defs h hk)

theorem known_of_notMem (hS : Stands f S r) (h : Solves f S) (hv : v ∉ f.defs) : Known S r env v := by
  refine ⟨fun c hc ↦ ?_, by rw [hS.self_of_notMem h hv]⟩
  rw [h.grown.undefined v hv] at hc
  cases hc

/-- Only φs are forwarded. -/
theorem notMem_keys (h : Solves f S) (hb : f.block? b = some blk) (hi : i ∈ blk.insts)
    (hphi : i.isPhi = false) (hv : v ∈ i.dests) : v ∉ (forwards f S).map Prod.fst := by
  intro hk
  obtain ⟨⟨d, a⟩, hm, rfl⟩ := List.mem_map.1 hk
  obtain ⟨b', blk', j, hb', -, hj, -, hs⟩ := (mem_forwards h).1 hm
  obtain ⟨ty, args, p, rfl, -⟩ := exists_single hs
  obtain ⟨-, rfl⟩ := h.acc.wf.eq_of_dest hb hb' hi (List.mem_filter.1 hj).1 hv
  cases hphi

theorem Stands.notMem_dests (hS : Stands f S r) (h : Solves f S) (hr : b ∈ S.reached)
    (hb : f.block? b = some blk) (hsplit : blk.insts = pre ++ i :: post) (hv : f.Avail b pre v) :
    r v ∉ i.dests := by
  by_cases hself : r v = v
  · rw [hself]
    exact h.acc.wf.notMem_dests_of_avail hb hsplit hv
  intro hvi
  have hdef : r v ∈ blk.defs := mem_defs_of_append hsplit hvi
  -- what stands for `v` is defined nearer to the entry than `v`, and `v` in a block that dominates
  have hlevel : ∀ {q c}, f.block? q = some c → v ∈ c.defs → level f S q ≤ level f S b → False := by
    intro q c hq hvq hle
    rcases hS.nearer hq hvq with hrv | hno | ⟨q', c', hq', hrv, hlt⟩
    · exact hself hrv
    · exact hno (mem_defs_of_block? hb hdef)
    · obtain rfl := h.acc.wf.eq_of_mem_defs hb hq' hdef hrv
      omega
  rcases hv with hv | hv | ⟨q, c, -, hdom, hq, hv⟩
  · exact hself (hS.self_of_notMem h hv)
  · refine hlevel hb ?_ le_rfl
    rw [MirBlock.defs, hsplit, List.flatMap_append]
    exact List.mem_append_left _ hv
  · exact hlevel hq hv (h.level_le hr hdom)

/-- What is available at the start of the block keeps its word and that of what stands for it. -/
theorem Known.enter_of_avail (hk : Known S r env v) (hS : Stands f S r) (h : Solves f S) (hr : b ∈ S.reached)
    (hb : f.block? b = some blk) (hv : f.Avail b [] v) (pred : Option BlockId) :
    Known S r (Mir.enter pred blk.phis env) v := by
  have hsplit : ∀ j ∈ blk.phis, ∃ u t, blk.insts = u ++ j :: t ∧ f.Avail b u v := fun j hj ↦ by
    obtain ⟨u, t, hsplit⟩ := List.append_of_mem (List.mem_filter.1 hj).1
    exact ⟨u, t, hsplit, hv.mono fun w hw ↦ (by cases hw)⟩
  have hv' : Mir.enter pred blk.phis env v = env v := enter_of_notMem fun j hj heq ↦ by
    obtain ⟨u, t, hsplit, hav⟩ := hsplit j hj
    exact h.acc.wf.notMem_dests_of_avail hb hsplit hav (heq ▸ j.dest_mem_dests)
  have hrv : Mir.enter pred blk.phis env (r v) = env (r v) := enter_of_notMem fun j hj heq ↦ by
    obtain ⟨u, t, hsplit, hav⟩ := hsplit j hj
    exact hS.notMem_dests h hr hb hsplit hav (heq ▸ j.dest_mem_dests)
  exact ⟨fun c hc ↦ hv' ▸ hk.1 c hc, by rw [hv', hrv, hk.2]⟩

/-! ### A run stays on edges that run -/

/-- The run is at the start, or has come by an edge that runs, with the available values known. -/
structure Visited (f : MirFunc) (S : Solution) (r : ValueId → ValueId) (s : State σ) : Prop where
  start : s.pred = none → s.block = f.entry
  edge : ∀ {p}, s.pred = some p → (p, s.block) ∈ S.edges ∧ ∀ v, f.AvailEnd p v → Known S r s.mem.env v

theorem visited_start (f : MirFunc) (S : Solution) (r : ValueId → ValueId) (env : Env) (w : σ) :
    Visited f S r (Mir.start f env w) :=
  ⟨fun _ ↦ rfl, fun h ↦ (by cases h)⟩

theorem Visited.reached (hs : Visited f S r s) (h : Solves f S) : s.block ∈ S.reached := by
  cases hp : s.pred with
  | none =>
    rw [hs.start hp]
    exact h.grown.entry
  | some p => exact (h.grown.edge (hs.edge hp).1).2.1

/-- What a φ reads, and that it is known. -/
theorem Visited.arg (hs : Visited f S r s) (h : Solves f S) (hb : f.block? s.block = some blk)
    (hi : i ∈ blk.phis) (ha : phiArg s.pred i = some a) :
    ∃ d ty args p, i = .phi d ty args ∧ s.pred = some p ∧
      (p, a) ∈ args.filter (fun e ↦ (e.1, s.block) ∈ S.edges) ∧ f.AvailEnd p a ∧ Known S r s.mem.env a := by
  obtain ⟨d, ty, args, p, rfl, hp, hfind⟩ := phiArg_eq_some ha
  obtain ⟨he, hk⟩ := hs.edge hp
  have hmem := List.mem_of_find?_eq_some hfind
  have hav : f.AvailEnd p a := h.acc.dom.phi hb (List.mem_filter.1 hi).1 _ hmem
  exact ⟨d, ty, args, p, rfl, hp, List.mem_filter.2 ⟨hmem, decide_eq_true he⟩, hav, hk a hav⟩

/-- **After the φs the available values are known.** -/
theorem Visited.enter (hs : Visited f S r s) (hS : Stands f S r) (h : Solves f S)
    (hb : f.block? s.block = some blk) (hready : ready s.pred blk.phis = true)
    (hv : f.Avail s.block blk.phis v) : Known S r (Mir.enter s.pred blk.phis s.mem.env) v := by
  have hr := hs.reached h
  rcases hv with hno | hphi | ⟨q, c, hqb, hdom, hq, hvq⟩
  · exact known_of_notMem hS h hno
  · obtain ⟨i, hi, hvi⟩ := List.mem_flatMap.1 hphi
    obtain ⟨hin, hip⟩ := List.mem_filter.1 hi
    rw [dests_of_isPhi hip, List.mem_singleton] at hvi
    have hfind : blk.phis.find? (·.dest = v) = some i := by
      cases hj : blk.phis.find? (·.dest = v) with
      | none =>
        have hne := List.find?_eq_none.1 hj i hi
        simp [hvi] at hne
      | some j =>
        have hjv : j.dest = v := by simpa using List.find?_some hj
        have hjin := (List.mem_filter.1 (List.mem_of_find?_eq_some hj)).1
        rw [(h.acc.wf.eq_of_dest hb hb hin hjin (hjv.trans hvi ▸ i.dest_mem_dests)).2]
    obtain ⟨a, ha⟩ := Option.isSome_iff_exists.1 (List.all_eq_true.1 hready i hi)
    have henter : Mir.enter s.pred blk.phis s.mem.env v = s.mem.env a := by
      rw [Mir.enter, hfind, Option.bind_some, ha]
    obtain ⟨d, ty, args, p, rfl, hp, hlive, hav, hka⟩ := hs.arg h hb hi ha
    obtain rfl : v = d := hvi
    rw [Known, henter]
    refine ⟨fun c hc ↦ hka.1 c ?_, ?_⟩
    · -- an incoming of an edge that runs is not unknown
      obtain ⟨-, hargs, -⟩ := Lat.foldl_meet_eq_const (h.eval_eq hr hb hin (MirInst.dest_mem_dests _) hc).2
      obtain ⟨hpr, -, blk', hblk', -⟩ := h.grown.edge (hs.edge hp).1
      exact (hargs _ hlive).resolve_left
        (h.avail_ne_top hpr hblk' (fun _ hi ↦ hi) ((availEnd_iff hblk').1 hav))
    · by_cases hkey : v ∈ (forwards f S).map Prod.fst
      · obtain ⟨p', a', hargs, hra⟩ := hS.arg h hb hi hkey
        rw [hargs, List.mem_singleton] at hlive
        obtain ⟨rfl, rfl⟩ := Prod.mk.inj hlive
        have hdef : v ∈ blk.defs := List.mem_flatMap.2 ⟨_, hin, MirInst.dest_mem_dests _⟩
        rw [enter_of_notMem fun j hj heq ↦ ?_, hra, hka.2]
        have hrdef : r v ∈ blk.defs :=
          List.mem_flatMap.2 ⟨j, (List.mem_filter.1 hj).1, heq ▸ j.dest_mem_dests⟩
        rcases hS.nearer hb hdef with hrv | hno | ⟨q, c, hq, hrq, hlt⟩
        · exact hS.ends v (by rwa [hrv])
        · exact hno (mem_defs_of_block? hb hrdef)
        · obtain rfl := h.acc.wf.eq_of_mem_defs hb hq hrdef hrq
          omega
      · rw [hS.self hkey, henter]
  · cases hp : s.pred with
    | none =>
      rw [hs.start hp] at hqb hdom
      exact absurd hdom (not_dom_entry hqb)
    | some p =>
      obtain ⟨he, hk⟩ := hs.edge hp
      have hav : f.AvailEnd p v := .inr ⟨q, c, dom_pred (h.grown.edge_of_mem he) hdom hqb, hq, hvq⟩
      exact (hk v hav).enter_of_avail hS h hr hb (.inr (.inr ⟨q, c, hqb, hdom, hq, hvq⟩)) _

/-- **An instruction keeps the available values known** and adds its own. -/
theorem known_execInst (hS : Stands f S r) (h : Solves f S) (hr : b ∈ S.reached) (hb : f.block? b = some blk)
    (hsplit : blk.insts = pre ++ i :: post) (hphi : i.isPhi = false) (hrun : execInst W i m = .ok m')
    (hk : ∀ v, f.Avail b pre v → Known S r m.env v) (hv : f.Avail b (pre ++ [i]) v) : Known S r m'.env v := by
  obtain ⟨res, heval, henv⟩ := execInst_ok.1 hrun
  have hi : i ∈ blk.insts := by simp [hsplit]
  have hold : f.Avail b pre v → Known S r m'.env v := fun hav ↦ by
    rw [Known, henv, Env.write_of_notMem (h.acc.wf.notMem_dests_of_avail hb hsplit hav),
      Env.write_of_notMem (hS.notMem_dests h hr hb hsplit hav)]
    exact hk v hav
  rcases hv with hv | hv | hv
  · exact hold (.inl hv)
  · rw [List.flatMap_append, List.mem_append] at hv
    rcases hv with hv | hv
    · exact hold (.inr (.inl hv))
    have hvi : v ∈ i.dests := by simpa using hv
    refine ⟨fun c hc ↦ ?_, by rw [hS.self (notMem_keys h hb hi hphi hvi)]⟩
    have harith := h.arith_eq hr hb hi hphi hvi hc fun o ho ↦ (hk o (h.acc.dom.inst hb hsplit hphi o ho)).1
    have hop : ∀ d k args, i ≠ .op d k args := by
      rintro d k args rfl
      cases harith
    have hhi : i.hi = none := by
      cases i with
      | op d k args => exact absurd rfl (hop d k args)
      | _ => rfl
    obtain rfl : v = i.dest := by simpa [MirInst.dests, hhi] using hvi
    rw [evalInst_arith hop, harith] at heval
    obtain rfl : (c.word, (0 : Word)) = res := (Prod.mk.inj (Except.ok.inj heval)).1
    rw [henv, Env.write_single hhi, Function.update_self]
  · exact hold (.inr (.inr hv))

/-! ### The same words -/

theorem constant?_eq_some (hc : constant? S i = some c) : i.hi = none ∧ S.get i.dest = .const c := by
  unfold constant? at hc
  split at hc
  · rename_i hone
    obtain ⟨hlen, -⟩ := hone
    refine ⟨?_, ?_⟩
    · simpa [MirInst.dests] using hlen
    · cases hget : S.get i.dest <;> rw [hget] at hc <;> cases hc
      rfl
  · cases hc

theorem constInst_dest (S : Solution) (hi : i.isPhi = false) : (constInst S i).dest = i.dest := by
  cases hc : constant? S i with
  | none => rw [constInst_of_none hc]
  | some c =>
    rw [constInst_of_some hi hc]
    rfl

theorem constInst_hi (S : Solution) (hi : i.isPhi = false) : (constInst S i).hi = i.hi := by
  cases hc : constant? S i with
  | none => rw [constInst_of_none hc]
  | some c =>
    rw [constInst_of_some hi hc, (constant?_eq_some hc).1]
    rfl

theorem rep_word (hm : Destprop.MemRel (forwards f S) m m') (hS : Stands f S r) (hk : Known S r m.env v) :
    m'.env (r v) = m.env v := by
  rw [hm.env _ (hS.ends v), hk.2]

/-- An instruction with its constant in place gives the same words, effects and traps. -/
theorem evalInst_constInst (hS : Stands f S r) (h : Solves f S) (hr : b ∈ S.reached)
    (hb : f.block? b = some blk) (hi : i ∈ blk.insts) (hphi : i.isPhi = false)
    (hm : Destprop.MemRel (forwards f S) m m') (hk : ∀ o ∈ i.operands, Known S r m.env o) :
    evalInst W ((constInst S i).rewriteValues r) m'.env m'.world m'.trace =
      evalInst W i m.env m.world m.trace := by
  rw [hm.world, hm.trace]
  cases hc : constant? S i with
  | none =>
    rw [constInst_of_none hc]
    exact evalInst_rewriteValues fun o ho ↦ rep_word hm hS (hk o ho)
  | some c =>
    have harith := h.arith_eq hr hb hi hphi i.dest_mem_dests (constant?_eq_some hc).2 fun o ho ↦ (hk o ho).1
    have hop : ∀ d k args, i ≠ .op d k args := by
      rintro d k args rfl
      cases harith
    rw [constInst_of_some hphi hc, evalInst_arith hop, harith]
    rfl

/-- The body of a block runs the same with its constants in place. -/
theorem execBody_constInst (hS : Stands f S r) (h : Solves f S) (hr : b ∈ S.reached)
    (hb : f.block? b = some blk) (W : World σ π) (hblk : blk.insts = pre ++ is)
    (hphi : ∀ i ∈ is, i.isPhi = false) (hm : Destprop.MemRel (forwards f S) m m')
    (hk : ∀ v, f.Avail b pre v → Known S r m.env v) :
    ResRel (fun n n' ↦ Destprop.MemRel (forwards f S) n n' ∧ ∀ v, f.AvailEnd b v → Known S r n.env v)
      (execBody W is m) (execBody W ((is.map (constInst S)).map (MirInst.rewriteValues r)) m') := by
  induction is generalizing pre m m' with
  | nil =>
    rw [List.append_nil] at hblk
    exact ⟨hm, fun v hv ↦ hk v (hblk ▸ (availEnd_iff hb).1 hv)⟩
  | cons i is ih =>
    have hi : i.isPhi = false := hphi i List.mem_cons_self
    have hops : ∀ o ∈ i.operands, Known S r m.env o := fun o ho ↦ hk o (h.acc.dom.inst hb hblk hi o ho)
    have heval := evalInst_constInst (W := W) hS h hr hb (by simp [hblk]) hi hm hops
    simp only [List.map_cons, execBody, execInst, heval]
    cases hev : evalInst W i m.env m.world m.trace with
    | error e => rfl
    | ok w =>
      have hrun : execInst W i m = .ok ⟨m.env.write i.dest i.hi w.1, w.2.1, w.2.2⟩ := by rw [execInst, hev]
      refine ih (by simp [hblk]) (fun j hj ↦ hphi j (List.mem_cons_of_mem _ hj)) ⟨rfl, rfl, fun v hv ↦ ?_⟩
        fun v hv ↦ known_execInst hS h hr hb hblk hi hrun hk hv
      simp only [MirInst.rewriteValues_dest, MirInst.rewriteValues_hi, constInst_dest S hi, constInst_hi S hi]
      by_cases hd : v ∈ i.dests
      · exact Env.write_of_mem hd
      · rw [Env.write_of_notMem hd, Env.write_of_notMem hd]
        exact hm.env v hv

/-- Constants that the values have in the end are put in place. -/
theorem execBody_consts (W : World σ π) (m m' : Mem σ)
    (hc : ∀ i ∈ is, ∃ d c, i = .const d c ∧ m.env d = c.word)
    (hworld : m'.world = m.world) (htrace : m'.trace = m.trace)
    (henv : ∀ v, v ∉ (forwards f S).map Prod.fst → v ∉ is.map MirInst.dest → m'.env v = m.env v) :
    ∃ n, Destprop.MemRel (forwards f S) m n ∧ ∀ js, execBody W (is ++ js) m' = execBody W js n := by
  induction is generalizing m' with
  | nil => exact ⟨m', ⟨hworld, htrace, fun v hv ↦ henv v hv (by simp)⟩, fun _ ↦ rfl⟩
  | cons i is ih =>
    obtain ⟨d, c, rfl, hd⟩ := hc i List.mem_cons_self
    obtain ⟨n, hn, hrun⟩ := ih ⟨m'.env.write d none (c.word, 0), m'.world, m'.trace⟩
      (fun j hj ↦ hc j (List.mem_cons_of_mem _ hj)) hworld htrace fun v hv hnot ↦ by
        show Function.update m'.env d c.word v = m.env v
        by_cases hvd : v = d
        · rw [hvd, Function.update_self, hd]
        · rw [Function.update_of_ne hvd]
          refine henv v hv ?_
          rw [List.map_cons, List.mem_cons, not_or]
          exact ⟨hvd, hnot⟩
    exact ⟨n, hn, fun js ↦ hrun js⟩

/-! ### The folded function -/

/-- The function before it is tidied: what runs is folded and reads what stands for each value, the rest is
cleared. -/
def folded (f : MirFunc) (S : Solution) (r : ValueId → ValueId) : MirFunc :=
  { f with blocks := f.blocks.map fun b ↦
      if b.id ∈ S.reached then
        ⟨b.id, (foldBlock S b).1.insts.map (MirInst.rewriteValues r),
          (foldBlock S b).1.term.map (Terminator.rewriteValues r)⟩
      else ⟨b.id, [], some .unreachable⟩ }

/-- The φs of a block with the incomings of edges that run. -/
def livePhis (S : Solution) (b : BlockId) (blk : MirBlock) : MirBlock :=
  ⟨b, blk.phis.map (liveArgs S b), none⟩

theorem phis_livePhis (S : Solution) (b : BlockId) (blk : MirBlock) :
    (livePhis S b blk).phis = blk.phis.map (liveArgs S b) := List.filter_eq_self.2 fun i hi ↦ by
  obtain ⟨j, hj, rfl⟩ := List.mem_map.1 hi
  rw [(phiMap_liveArgs S b).isPhi]
  exact (List.mem_filter.1 hj).2

theorem block?_folded (h : Solves f S) (hb : f.block? b = some blk) (hr : b ∈ S.reached) :
    (folded f S r).block? b = some ⟨b, ((livePhis S b blk).prune (stays S) r).phis ++
      (blk.phis.filterMap (constAfter S) ++ (blk.body.map (constInst S)).map (MirInst.rewriteValues r)),
      (foldTerm S blk.term).map (Terminator.rewriteValues r)⟩ := by
  have hid : blk.id = b := h.acc.wf.id hb
  have hconsts : (blk.phis.filterMap (constAfter S)).map (MirInst.rewriteValues r) =
      blk.phis.filterMap (constAfter S) := by
    refine (List.map_congr_left fun j hj ↦ ?_).trans (List.map_id _)
    obtain ⟨i, -, hi⟩ := List.mem_filterMap.1 hj
    obtain ⟨-, c, -, rfl⟩ := constAfter_eq_some.1 hi
    rfl
  have hblock : (folded f S r).block? b = (f.block? b).map fun b ↦
      if b.id ∈ S.reached then
        ⟨b.id, (foldBlock S b).1.insts.map (MirInst.rewriteValues r),
          (foldBlock S b).1.term.map (Terminator.rewriteValues r)⟩
      else ⟨b.id, [], some .unreachable⟩ := List.getElem?_map
  rw [hblock, hb, Option.map_some, if_pos (hid ▸ hr), foldBlock_eq h hr hb, hid, MirBlock.prune_phis,
    phis_livePhis]
  simp only [List.map_append, hconsts, List.append_assoc]

theorem block?_folded_of_notMem (h : Solves f S) (hb : f.block? b = some blk) (hr : b ∉ S.reached) :
    (folded f S r).block? b = some ⟨b, [], some .unreachable⟩ := by
  have hblock : (folded f S r).block? b = (f.block? b).map fun b ↦
      if b.id ∈ S.reached then
        ⟨b.id, (foldBlock S b).1.insts.map (MirInst.rewriteValues r),
          (foldBlock S b).1.term.map (Terminator.rewriteValues r)⟩
      else ⟨b.id, [], some .unreachable⟩ := List.getElem?_map
  rw [hblock, hb, Option.map_some, h.acc.wf.id hb, if_neg hr]

/-- φs before the other instructions. -/
theorem phis_body_of_append {P B : List MirInst} {t : Option Terminator} (hP : ∀ i ∈ P, i.isPhi = true)
    (hB : ∀ i ∈ B, i.isPhi = false) :
    (MirBlock.mk b (P ++ B) t).phis = P ∧ (MirBlock.mk b (P ++ B) t).body = B := by
  have hnil : B.filter MirInst.isPhi = [] := List.filter_eq_nil_iff.2 fun i hi ↦ by simp [hB i hi]
  have hnil' : (P.filter fun i ↦ !i.isPhi) = [] := List.filter_eq_nil_iff.2 fun i hi ↦ by simp [hP i hi]
  have hself : (B.filter fun i ↦ !i.isPhi) = B := List.filter_eq_self.2 fun i hi ↦ by simp [hB i hi]
  constructor
  · rw [MirBlock.phis, List.filter_append, List.filter_eq_self.2 hP, hnil, List.append_nil]
  · rw [MirBlock.body, List.filter_append, hself, hnil', List.nil_append]

theorem not_phi_folded (S : Solution) (r : ValueId → ValueId) (blk : MirBlock) :
    ∀ i ∈ blk.phis.filterMap (constAfter S) ++ (blk.body.map (constInst S)).map (MirInst.rewriteValues r),
      i.isPhi = false := by
  intro i hi
  rcases List.mem_append.1 hi with hi | hi
  · obtain ⟨j, -, hj⟩ := List.mem_filterMap.1 hi
    obtain ⟨-, c, -, rfl⟩ := constAfter_eq_some.1 hj
    rfl
  · obtain ⟨j, hj, rfl⟩ := List.mem_map.1 hi
    obtain ⟨k, hk, rfl⟩ := List.mem_map.1 hj
    rw [MirInst.rewriteValues_isPhi]
    exact isPhi_constInst S (blk.body_not_phi k hk)

/-! ### One step -/

/-- The runs are in the same block, entered by the same edge, with the same words in all that is not
forwarded. -/
structure FoldRel (f : MirFunc) (S : Solution) (r : ValueId → ValueId) (s t : State σ) : Prop where
  visited : Visited f S r s
  block : t.block = s.block
  pred : t.pred = s.pred
  mem : Destprop.MemRel (forwards f S) s.mem t.mem

theorem phiArg_liveArgs {pred : Option BlockId} (hp : ∀ p, pred = some p → (p, b) ∈ S.edges) (i : MirInst) :
    phiArg pred (liveArgs S b i) = phiArg pred i := by
  cases i with
  | phi d ty args =>
    cases pred with
    | none => rfl
    | some p =>
      have hfind : (args.filter fun a ↦ (a.1, b) ∈ S.edges).find? (·.1 = p) = args.find? (·.1 = p) := by
        rw [List.find?_filter]
        refine List.find?_congr fun a _ ↦ ?_
        by_cases hap : a.1 = p
        · simp [hap, hp p rfl]
        · simp [hap]
      simp only [phiArg, liveArgs, Option.bind_some, hfind]
  | _ => rfl

/-- The φs that stay write the same words. -/
theorem FoldRel.enter (hs : FoldRel f S r s t) (hS : Stands f S r) (h : Solves f S)
    (hb : f.block? s.block = some blk) (hv : v ∉ (forwards f S).map Prod.fst)
    (hconst : v ∉ (blk.phis.filterMap (constAfter S)).map MirInst.dest) :
    Mir.enter s.pred ((livePhis S s.block blk).prune (stays S) r).phis t.mem.env v =
      Mir.enter s.pred blk.phis s.mem.env v := by
  have hlive := phiMap_liveArgs S s.block
  have harg : ∀ i ∈ blk.phis, phiArg s.pred (liveArgs S s.block i) = phiArg s.pred i := fun i _ ↦
    phiArg_liveArgs (fun p hp ↦ (hs.visited.edge hp).1) i
  have hkeep : ∀ i ∈ (livePhis S s.block blk).phis, v ∈ i.dests → stays S i = true := by
    intro i hi hvi
    rw [phis_livePhis] at hi
    obtain ⟨j, hj, rfl⟩ := List.mem_map.1 hi
    have hphi := (List.mem_filter.1 hj).2
    rw [hlive.dests, dests_of_isPhi hphi, List.mem_singleton] at hvi
    have hc : constant? S j = none := by
      by_contra hne
      obtain ⟨c, hc⟩ := Option.ne_none_iff_exists'.1 hne
      refine hconst (List.mem_map.2 ⟨.const j.dest c, List.mem_filterMap.2 ⟨j, hj, ?_⟩, hvi.symm⟩)
      exact constAfter_eq_some.2 ⟨hphi, c, hc, rfl⟩
    have hs' : singleArg (liveArgs S s.block j) = none := by
      by_contra hne
      obtain ⟨⟨d, a⟩, hsingle⟩ := Option.ne_none_iff_exists'.1 hne
      obtain ⟨ty, args, p, rfl, -⟩ := exists_single hsingle
      exact hv (List.mem_map.2 ⟨(d, a), (mem_forwards h).2
        ⟨_, _, _, hb, hs.visited.reached h, hj, hc, hsingle⟩, hvi.symm⟩)
    simp [stays, constant?_liveArgs, hc, hs']
  rw [← hlive.enter_map harg, ← phis_livePhis]
  unfold Mir.enter
  rw [MirBlock.find?_prune_phis hkeep]
  cases hi : (livePhis S s.block blk).phis.find? (·.dest = v) with
  | none => exact hs.mem.env v hv
  | some i =>
    simp only [Option.map_some, Option.bind_some, phiArg_rewriteValues]
    cases ha : phiArg s.pred i with
    | none => exact hs.mem.env v hv
    | some a =>
      have hmem := List.mem_of_find?_eq_some hi
      rw [phis_livePhis] at hmem
      obtain ⟨j, hj, rfl⟩ := List.mem_map.1 hmem
      obtain ⟨-, -, -, -, -, -, -, -, hk⟩ := hs.visited.arg h hb hj ((harg j hj).symm.trans ha)
      exact rep_word hs.mem hS hk

/-- The terminators go the same way, along an edge that runs. -/
theorem execTerm_folded (hS : Stands f S r) (h : Solves f S) (hr : b ∈ S.reached) (hb : f.block? b = some blk)
    (hm : Destprop.MemRel (forwards f S) m m') (hk : ∀ v, f.AvailEnd b v → Known S r m.env v) :
    StepRel (FoldRel f S r) (execTerm (π := π) b m blk.term)
      (execTerm b m' ((foldTerm S blk.term).map (Terminator.rewriteValues r))) := by
  obtain ⟨t, ht⟩ := h.acc.wf.term blk (List.mem_of_getElem? hb)
  have hops : ∀ o ∈ t.operands, Known S r m.env o := fun o ho ↦ hk o (h.acc.dom.term hb ht o ho)
  have hgo : ∀ {x}, x ∈ liveSuccs S (some t) → FoldRel f S r ⟨x, some b, m⟩ ⟨x, some b, m'⟩ := fun {x} hx ↦
    ⟨⟨fun hnone ↦ (by cases hnone), fun {p} hp ↦ by
      obtain rfl := Option.some.inj hp
      exact ⟨(h.edge hb hr x).2 (ht ▸ hx), hk⟩⟩, rfl, rfl, hm⟩
  have hsame : foldTerm S (some t) = some t → (∀ x ∈ t.succs, x ∈ liveSuccs S (some t)) →
      StepRel (FoldRel f S r) (execTerm (π := π) b m (some t))
        (execTerm b m' ((foldTerm S (some t)).map (Terminator.rewriteValues r))) := fun hfold hlive ↦ by
    have hwords : ∀ o ∈ t.operands, m'.env (r o) = m.env o := fun o ho ↦ rep_word hm hS (hops o ho)
    rw [hfold, Option.map_some, execTerm_rewriteValues hm.world hm.trace hwords]
    cases hrun : execTerm (π := π) b m (some t) with
    | inr e => rfl
    | inl s' =>
      obtain ⟨hp, hx, hmem⟩ := execTerm_succ hrun
      obtain ⟨x, p, n⟩ := s'
      obtain rfl : p = some b := hp
      obtain rfl : n = m := hmem
      exact hgo (hlive x hx)
  rw [ht]
  cases t with
  | jump d => exact hsame rfl fun _ hx ↦ hx
  | ret lo hi => exact hsame rfl fun _ hx ↦ hx
  | unreachable => exact hsame rfl fun _ hx ↦ hx
  | br c x y =>
    have hav : f.AvailEnd b c := h.acc.dom.term hb ht c (List.mem_singleton_self c)
    have htop := h.avail_ne_top hr hb (fun _ hi ↦ hi) ((availEnd_iff hb).1 hav)
    cases hget : S.get c with
    | top => exact absurd hget htop
    | bottom =>
      refine hsame (by simp only [foldTerm, hget]) fun z hz ↦ ?_
      simp only [liveSuccs, hget]
      exact hz
    | const k =>
      cases k with
      | i64 n =>
        refine hsame (by simp only [foldTerm, hget]) fun z hz ↦ ?_
        simp only [liveSuccs, hget]
        exact hz
      | bool k =>
        -- the word of the condition is the constant, so the jump goes where the branch does
        have hword := (hops c (List.mem_singleton_self c)).1 _ hget
        have hgo' := @hgo (if k then x else y) (by simp [liveSuccs, hget])
        cases k
        all_goals simpa [foldTerm, hget, execTerm, Terminator.rewriteValues, hword, MirConst.word, StepRel]
          using hgo'

/-- **Folding preserves the runs.** -/
theorem folded_preserves (hS : Stands f S r) (h : Solves f S) : Preserves f (folded f S r) := by
  refine Preserves.of_lockstep fun σ π W env w ↦ ⟨FoldRel f S r,
    ⟨visited_start f S r env w, rfl, rfl, ⟨rfl, rfl, fun _ _ ↦ rfl⟩⟩, ?_⟩
  intro s t hs
  refine ⟨hs.mem.trace.symm, fun hsafe ↦ ?_⟩
  obtain ⟨blk, hb, hready⟩ := exists_ready hsafe
  have hr := hs.visited.reached h
  have hprune : ∀ i ∈ ((livePhis S s.block blk).prune (stays S) r).phis, i.isPhi = true := fun i hi ↦
    (List.mem_filter.1 hi).2
  obtain ⟨hphis, hbody⟩ := phis_body_of_append (b := s.block)
    (t := (foldTerm S blk.term).map (Terminator.rewriteValues r)) hprune (not_phi_folded S r blk)
  have hb' := block?_folded (r := r) h hb hr
  rw [← hs.block] at hb'
  have hready' : ready t.pred ((livePhis S s.block blk).prune (stays S) r).phis = true := by
    refine MirBlock.ready_prune ?_
    have harg : ∀ i ∈ blk.phis, phiArg s.pred (liveArgs S s.block i) = phiArg s.pred i := fun i _ ↦
      phiArg_liveArgs (fun p hp ↦ (hs.visited.edge hp).1) i
    rw [phis_livePhis, hs.pred, PhiMap.ready_map harg]
    exact hready
  rw [step_eq_leave hb hready, step_eq_leave hb' (by rw [hs.block, hphis]; exact hready'), bodyOf, bodyOf,
    hs.block, hphis, hbody, hs.pred]
  -- the constants of φs have the words that the φs give
  have hconst : ∀ i ∈ blk.phis.filterMap (constAfter S), ∃ d c, i = .const d c ∧
      Mir.enter s.pred blk.phis s.mem.env d = c.word := fun i hi ↦ by
    obtain ⟨j, hj, hji⟩ := List.mem_filterMap.1 hi
    obtain ⟨-, c, hc, rfl⟩ := constAfter_eq_some.1 hji
    have hav : f.Avail s.block blk.phis j.dest := .inr (.inl (List.mem_flatMap.2 ⟨j, hj, j.dest_mem_dests⟩))
    exact ⟨_, c, rfl, (hs.visited.enter hS h hb hready hav).1 c (constant?_eq_some hc).2⟩
  obtain ⟨n, hn, hrun⟩ := execBody_consts (S := S) (f := f) W
    ⟨Mir.enter s.pred blk.phis s.mem.env, s.mem.world, s.mem.trace⟩
    ⟨Mir.enter s.pred ((livePhis S s.block blk).prune (stays S) r).phis t.mem.env, t.mem.world, t.mem.trace⟩
    hconst hs.mem.world hs.mem.trace fun v hv hnot ↦ hs.enter hS h hb hv hnot
  rw [hrun]
  have hinsts := h.acc.wf.insts blk (List.mem_of_getElem? hb)
  have hbodies := execBody_constInst hS h hr hb W hinsts blk.body_not_phi hn fun v hv ↦
    hs.visited.enter hS h hb hready hv
  exact hbodies.leave fun n n' hn ↦ execTerm_folded hS h hr hb hn.1 hn.2

end CoilLang.Mir.Sccp
