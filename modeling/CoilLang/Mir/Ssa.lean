import CoilLang.Lib.Dominance
import CoilLang.Mir.Run

/-!
# SSA values satisfy their definitions

In a function whose uses are dominated by their definitions (`Dominated`), **every value available at a
point of a run still satisfies the instruction that defined it**, in the words the registers hold now
(`Solved`): its operands have not been written since, because what writes them dominates the
definition. A pass that replaces one value by another, or by a constant, then has to look at the current
words only, not at how the run came there.
-/

namespace CoilLang.Mir

/-- The values a block defines. -/
def MirBlock.defs (b : MirBlock) : List ValueId := b.insts.flatMap MirInst.dests

namespace MirFunc

variable (f : MirFunc)

def Edge (a b : BlockId) : Prop := ∃ blk, f.block? a = some blk ∧ b ∈ blk.succs

/-- Every way from the entry to `b` goes through `d`. -/
def Dom (d b : BlockId) : Prop := Dominates (· = f.entry) f.Edge d b

/-- `b` is reached from the entry. -/
def Reached (b : BlockId) : Prop := ∃ h, Walk (· = f.entry) f.Edge b h

/-- `v` is there after the instructions `pre` of block `b`, for runs from the roots `R`: without a
definition, defined in `pre`, or in another block that `b` is reached through. -/
def AvailIn (R : BlockId → Prop) (b : BlockId) (pre : List MirInst) (v : ValueId) : Prop :=
  v ∉ f.defs ∨ v ∈ pre.flatMap MirInst.dests ∨
    ∃ q blk, q ≠ b ∧ Dominates R f.Edge q b ∧ f.block? q = some blk ∧ v ∈ blk.defs

/-- `v` is there at the end of block `b`, for runs from the roots `R`. -/
def AvailEndIn (R : BlockId → Prop) (b : BlockId) (v : ValueId) : Prop :=
  v ∉ f.defs ∨ ∃ q blk, Dominates R f.Edge q b ∧ f.block? q = some blk ∧ v ∈ blk.defs

/-- `v` is there after the instructions `pre` of block `b`: a parameter, defined in `pre`, or in a block
that `b` is reached through. -/
def Avail (b : BlockId) (pre : List MirInst) (v : ValueId) : Prop :=
  v ∉ f.defs ∨ v ∈ pre.flatMap MirInst.dests ∨
    ∃ q blk, q ≠ b ∧ f.Dom q b ∧ f.block? q = some blk ∧ v ∈ blk.defs

/-- `v` is there at the end of block `b`. -/
def AvailEnd (b : BlockId) (v : ValueId) : Prop :=
  v ∉ f.defs ∨ ∃ q blk, f.Dom q b ∧ f.block? q = some blk ∧ v ∈ blk.defs

/-- Every use is dominated by its definition: a φ operand at the end of the block it comes from, any
other use at its instruction. -/
structure Dominated : Prop where
  inst : ∀ {b blk pre i post}, f.block? b = some blk → blk.insts = pre ++ i :: post →
    i.isPhi = false → ∀ o ∈ i.operands, f.Avail b pre o
  phi : ∀ {b blk d ty args}, f.block? b = some blk → MirInst.phi d ty args ∈ blk.insts →
    ∀ a ∈ args, f.AvailEnd a.1 a.2
  term : ∀ {b blk t}, f.block? b = some blk → blk.term = some t →
    ∀ o ∈ t.operands, f.AvailEnd b o

/-- The words of the values in `D` satisfy their arithmetic definitions. -/
def Solved (D : ValueId → Prop) (env : Env) : Prop :=
  ∀ b ∈ f.blocks, ∀ i ∈ b.insts, D i.dest → ∀ r, arith env i = some r → r = .ok (env i.dest)

/-- What the values in `D` are computed from is in `D`. -/
def Grounded (D : ValueId → Prop) : Prop :=
  ∀ b ∈ f.blocks, ∀ i ∈ b.insts, i.isPhi = false → D i.dest → ∀ o ∈ i.operands, D o

end MirFunc

variable {f : MirFunc} {b q : BlockId} {blk blk' : MirBlock} {v : ValueId} {pre post : List MirInst}
  {i : MirInst} {R : BlockId → Prop}

/-! ### Definitions are unique -/

theorem mem_defs_of_block? (hb : f.block? b = some blk) (hv : v ∈ blk.defs) : v ∈ f.defs :=
  List.mem_flatMap.2 ⟨blk, List.mem_of_getElem? hb, hv⟩

theorem WellFormed.eq_of_mem_defs (hf : WellFormed f) (hq : f.block? q = some blk)
    (hb : f.block? b = some blk') (hv : v ∈ blk.defs) (hv' : v ∈ blk'.defs) : q = b := by
  obtain ⟨hqlt, hq⟩ := List.getElem?_eq_some_iff.1 hq
  obtain ⟨hblt, hb⟩ := List.getElem?_eq_some_iff.1 hb
  have hdisj := List.pairwise_iff_getElem.1 (List.nodup_flatMap.1 hf.defsNodup).2
  rcases Nat.lt_trichotomy q b with hlt | heq | hlt
  · have := hdisj q b hqlt hblt hlt
    exact absurd (hb ▸ hv') (this (hq ▸ hv))
  · exact heq
  · have := hdisj b q hblt hqlt hlt
    exact absurd (hq ▸ hv) (this (hb ▸ hv'))

theorem WellFormed.nodup_defs (hf : WellFormed f) (hb : f.block? b = some blk) : blk.defs.Nodup :=
  (List.nodup_flatMap.1 hf.defsNodup).1 blk (List.mem_of_getElem? hb)

theorem WellFormed.notMem_pre (hf : WellFormed f) (hb : f.block? b = some blk)
    (hblk : blk.insts = pre ++ i :: post) (hv : v ∈ i.dests) : v ∉ pre.flatMap MirInst.dests := by
  have hnd := hf.nodup_defs hb
  rw [MirBlock.defs, hblk, List.flatMap_append, List.flatMap_cons, List.nodup_append] at hnd
  exact fun hpre ↦ hnd.2.2 v hpre v (List.mem_append_left _ hv) rfl

theorem mem_defs_of_append (hblk : blk.insts = pre ++ i :: post) (hv : v ∈ i.dests) : v ∈ blk.defs :=
  List.mem_flatMap.2 ⟨i, by simp [hblk], hv⟩

/-- What an instruction writes was not available before it. -/
theorem WellFormed.notMem_dests_of_availIn (hf : WellFormed f) (hb : f.block? b = some blk)
    (hblk : blk.insts = pre ++ i :: post) (hv : f.AvailIn R b pre v) : v ∉ i.dests := by
  intro hvi
  have hdef := mem_defs_of_append hblk hvi
  rcases hv with hv | hv | ⟨q, blk', hqb, -, hq, hv⟩
  · exact hv (mem_defs_of_block? hb hdef)
  · exact hf.notMem_pre hb hblk hvi hv
  · exact hqb (hf.eq_of_mem_defs hq hb hv hdef)

theorem WellFormed.notMem_dests_of_avail (hf : WellFormed f) (hb : f.block? b = some blk)
    (hblk : blk.insts = pre ++ i :: post) (hv : f.Avail b pre v) : v ∉ i.dests :=
  hf.notMem_dests_of_availIn (R := (· = f.entry)) hb hblk hv

/-- An instruction is determined by what it defines. -/
theorem WellFormed.eq_of_dest (hf : WellFormed f) {j : MirInst} (hb : f.block? b = some blk)
    (hq : f.block? q = some blk') (hi : i ∈ blk.insts) (hj : j ∈ blk'.insts)
    (h : j.dest ∈ i.dests) : b = q ∧ j = i := by
  have hi' : j.dest ∈ blk.defs := List.mem_flatMap.2 ⟨i, hi, h⟩
  have hj' : j.dest ∈ blk'.defs := List.mem_flatMap.2 ⟨j, hj, j.dest_mem_dests⟩
  obtain rfl := hf.eq_of_mem_defs hb hq hi' hj'
  obtain rfl : blk = blk' := Option.some.inj (hb.symm.trans hq)
  refine ⟨rfl, ?_⟩
  by_contra hne
  have hdisj := (List.nodup_flatMap.1 (hf.nodup_defs hb)).2
  have hsymm : Std.Symm (Function.onFun List.Disjoint MirInst.dests) := ⟨fun _ _ h ↦ h.symm⟩
  exact (hdisj.forall hj hi hne) j.dest_mem_dests h

/-! ### Dominance -/

theorem not_dom_of_dom (hb : f.Reached b) (hqb : f.Dom q b) (hne : q ≠ b) : ¬f.Dom b q := by
  obtain ⟨h, hw⟩ := hb
  exact hqb.not_symm hne hw

/-- A strict dominator of a block dominates the predecessors of it. -/
theorem dom_pred {p : BlockId} (he : f.Edge p b) (hqb : f.Dom q b) (hne : q ≠ b) : f.Dom q p :=
  hqb.pred hne he

theorem not_dom_entry (hne : q ≠ f.entry) : ¬f.Dom q f.entry := by
  intro hd
  have hmem := hd _ (.start rfl)
  exact hne (List.mem_singleton.1 hmem)

/-- Every walk starts at the entry. -/
theorem dom_entry (b : BlockId) : f.Dom f.entry b := .of_root f.entry b

theorem Reached.of_edge {p : BlockId} (hp : f.Reached p) (he : f.Edge p b) : f.Reached b := by
  obtain ⟨h, hw⟩ := hp
  exact ⟨_, hw.step he⟩

/-! ### Where a value is available -/

theorem MirFunc.AvailIn.mono_pre {pre' : List MirInst} (h : f.AvailIn R b pre v)
    (hsub : ∀ v ∈ pre.flatMap MirInst.dests, v ∈ pre'.flatMap MirInst.dests) : f.AvailIn R b pre' v :=
  h.imp_right (Or.imp_left (hsub v))

theorem MirFunc.Avail.mono {pre' : List MirInst} (h : f.Avail b pre v)
    (hsub : ∀ v ∈ pre.flatMap MirInst.dests, v ∈ pre'.flatMap MirInst.dests) : f.Avail b pre' v :=
  MirFunc.AvailIn.mono_pre (R := (· = f.entry)) h hsub

theorem availEndIn_iff (hb : f.block? b = some blk) : f.AvailEndIn R b v ↔ f.AvailIn R b blk.insts v := by
  constructor
  · rintro (hv | ⟨q, blk', hqb, hq, hv⟩)
    · exact .inl hv
    · by_cases hne : q = b
      · subst hne
        obtain rfl : blk = blk' := Option.some.inj (hb.symm.trans hq)
        exact .inr (.inl hv)
      · exact .inr (.inr ⟨q, blk', hne, hqb, hq, hv⟩)
  · rintro (hv | hv | ⟨q, blk', -, hqb, hq, hv⟩)
    · exact .inl hv
    · exact .inr ⟨b, blk, .refl b, hb, hv⟩
    · exact .inr ⟨q, blk', hqb, hq, hv⟩

theorem availEnd_iff (hb : f.block? b = some blk) : f.AvailEnd b v ↔ f.Avail b blk.insts v :=
  availEndIn_iff (R := (· = f.entry)) hb

/-- What is computed in a dominating block, or before in this one, is computed from available values. -/
theorem grounded_avail (hf : WellFormed f) (hd : f.Dominated) (hb : f.block? b = some blk)
    (hr : f.Reached b) (hpre : pre <+: blk.insts) : f.Grounded (f.Avail b pre) := by
  intro c hc i hi hphi hdest o ho
  obtain ⟨q, hq⟩ := List.mem_iff_getElem?.1 hc
  have hq : f.block? q = some c := hq
  have hdef : i.dest ∈ c.defs := List.mem_flatMap.2 ⟨i, hi, i.dest_mem_dests⟩
  obtain ⟨u, t, hsplit⟩ := List.append_of_mem hi
  have hop := hd.inst hq hsplit hphi o ho
  rcases hdest with hv | hv | ⟨q', blk', hne, hdom, hq', hv⟩
  · exact absurd (mem_defs_of_block? hq hdef) hv
  · -- defined before in this block
    obtain ⟨t', ht'⟩ := hpre
    have hvb : i.dest ∈ blk.defs := by
      rw [MirBlock.defs, ← ht', List.flatMap_append]
      exact List.mem_append_left _ hv
    obtain rfl := hf.eq_of_mem_defs hq hb hdef hvb
    obtain rfl : blk = c := Option.some.inj (hb.symm.trans hq)
    refine hop.mono fun w hw ↦ ?_
    -- `u` ends before `i` and `i` is in `pre`
    have hle : u <+: pre := by
      have hu : u <+: blk.insts := ⟨_, hsplit.symm⟩
      have hp : pre <+: blk.insts := ⟨_, ht'⟩
      rcases List.prefix_or_prefix_of_prefix hu hp with h | ⟨w, hw⟩
      · exact h
      · refine absurd ?_ (hf.notMem_pre hb hsplit i.dest_mem_dests)
        rw [← hw, List.flatMap_append]
        exact List.mem_append_left _ hv
    obtain ⟨w', hw'⟩ := hle
    rw [← hw', List.flatMap_append]
    exact List.mem_append_left _ hw
  · obtain rfl := hf.eq_of_mem_defs hq hq' hdef hv
    rcases hop with ho | ho | ⟨q'', blk'', hne', hdom', hq'', ho⟩
    · exact .inl ho
    · refine .inr (.inr ⟨q, c, hne, hdom, hq, ?_⟩)
      rw [MirBlock.defs, hsplit, List.flatMap_append]
      exact List.mem_append_left _ ho
    · refine .inr (.inr ⟨q'', blk'', ?_, hdom'.trans hdom, hq'', ho⟩)
      rintro rfl
      exact not_dom_of_dom hr hdom hne hdom'

/-! ### Running keeps values solved -/

theorem arith_congr {env env' : Env} (h : ∀ o ∈ i.operands, env' o = env o) :
    arith env' i = arith env i := by
  cases i with
  | const | phi | op => rfl
  | bin | cmp | unary | cast =>
    simp only [MirInst.operands, List.mem_cons, List.not_mem_nil, or_false, forall_eq_or_imp,
      forall_eq] at h
    simp only [arith, h]

theorem isPhi_of_arith {env : Env} {r : IntResult} (h : arith env i = some r) : i.isPhi = false := by
  cases i with
  | phi => cases h
  | _ => rfl

/-- **An instruction keeps the available values solved** and adds its own. -/
theorem MirFunc.Solved.execInst (hf : WellFormed f) (hd : f.Dominated) (hb : f.block? b = some blk)
    (hr : f.Reached b) (hblk : blk.insts = pre ++ i :: post) {σ π : Type} {W : World σ π} {m m' : Mem σ}
    (hphi : i.isPhi = false) (hrun : execInst W i m = .ok m') (h : f.Solved (f.Avail b pre) m.env) :
    f.Solved (f.Avail b (pre ++ [i])) m'.env := by
  obtain ⟨r, heval, henv⟩ := execInst_ok.1 hrun
  have hkeep : ∀ v, f.Avail b pre v → m'.env v = m.env v := fun v hv ↦ by
    rw [henv, Env.write_of_notMem (hf.notMem_dests_of_avail hb hblk hv)]
  intro c hc j hj hdest w hw
  obtain ⟨q, hq⟩ := List.mem_iff_getElem?.1 hc
  have hq : f.block? q = some c := hq
  have hi : i ∈ blk.insts := by simp [hblk]
  by_cases hji : j.dest ∈ i.dests
  · obtain ⟨rfl, rfl⟩ := hf.eq_of_dest hb hq hi hj hji
    have hops : arith m'.env j = arith m.env j :=
      arith_congr fun o ho ↦ hkeep o (hd.inst hb hblk hphi o ho)
    have hop : ∀ d k args, j ≠ .op d k args := by
      rintro d k args rfl
      cases hw
    have hhi : j.hi = none := by
      cases j with
      | op d k args => exact absurd rfl (hop d k args)
      | _ => rfl
    rw [hops] at hw
    rw [evalInst_arith hop, hw] at heval
    cases w with
    | error e => cases heval
    | ok w =>
      obtain rfl : (w, (0 : Word)) = r := (Prod.mk.inj (Except.ok.inj heval)).1
      rw [henv, Env.write_single hhi, Function.update_self]
  · have hdest' : f.Avail b pre j.dest := by
      rcases hdest with hv | hv | hv
      · exact .inl hv
      · rw [List.flatMap_append, List.mem_append] at hv
        rcases hv with hv | hv
        · exact .inr (.inl hv)
        · exact absurd (by simpa using hv) hji
      · exact .inr (.inr hv)
    have hops : arith m'.env j = arith m.env j := by
      refine arith_congr fun o ho ↦ hkeep o ?_
      exact grounded_avail hf hd hb hr ⟨_, hblk.symm⟩ c hc j hj (isPhi_of_arith hw) hdest' o ho
    rw [hops] at hw
    rw [hkeep _ hdest']
    exact h c hc j hj hdest' w hw

theorem enter_of_notMem {pred : Option BlockId} {phis : List MirInst} {env : Env}
    (hv : ∀ i ∈ phis, i.dest ≠ v) : enter pred phis env v = env v := by
  have hnone : phis.find? (·.dest = v) = none :=
    List.find?_eq_none.2 fun i hi ↦ by simpa using hv i hi
  rw [enter, hnone]
  rfl

/-- **Entering a block keeps the values solved** that are available at its start. -/
theorem MirFunc.Solved.enter (hf : WellFormed f) (hd : f.Dominated) (hb : f.block? b = some blk)
    (hr : f.Reached b) {D : ValueId → Prop} {env : Env} {pred : Option BlockId}
    (hD : ∀ q blk' v, q ≠ b → f.Dom q b → f.block? q = some blk' → v ∈ blk'.defs → D v)
    (h : f.Solved D env) : f.Solved (f.Avail b blk.phis) (enter pred blk.phis env) := by
  have hphis : blk.insts = blk.phis ++ blk.body := hf.insts blk (List.mem_of_getElem? hb)
  have hpre : blk.phis <+: blk.insts := ⟨_, hphis.symm⟩
  have hkeep : ∀ v, f.Avail b [] v → Mir.enter pred blk.phis env v = env v := by
    intro v hv
    refine enter_of_notMem fun i hi heq ↦ ?_
    subst heq
    obtain ⟨u, t, hsplit⟩ := List.append_of_mem (List.mem_filter.1 hi).1
    have hav : f.Avail b u i.dest := hv.mono (fun w hw ↦ by cases hw)
    exact hf.notMem_dests_of_avail hb hsplit hav i.dest_mem_dests
  intro c hc j hj hdest w hw
  obtain ⟨q, hq⟩ := List.mem_iff_getElem?.1 hc
  have hq : f.block? q = some c := hq
  have hdef : j.dest ∈ c.defs := List.mem_flatMap.2 ⟨j, hj, j.dest_mem_dests⟩
  -- an arithmetic instruction is not among the φs, so it is in a dominating block
  have hdest' : f.Avail b [] j.dest ∧ D j.dest := by
    rcases hdest with hv | hv | ⟨q', blk', hne, hdom, hq', hv⟩
    · exact absurd (mem_defs_of_block? hq hdef) hv
    · obtain ⟨i, hi, hji⟩ := List.mem_flatMap.1 hv
      have hphi := (List.mem_filter.1 hi).2
      obtain ⟨-, rfl⟩ := hf.eq_of_dest hb hq (List.mem_filter.1 hi).1 hj hji
      rw [isPhi_of_arith hw] at hphi
      cases hphi
    · exact ⟨.inr (.inr ⟨q', blk', hne, hdom, hq', hv⟩), hD q' blk' _ hne hdom hq' hv⟩
  have hops : arith (Mir.enter pred blk.phis env) j = arith env j := by
    refine arith_congr fun o ho ↦ hkeep o ?_
    exact grounded_avail hf hd hb hr (List.nil_prefix) c hc j hj (isPhi_of_arith hw) hdest'.1 o ho
  rw [hops] at hw
  rw [hkeep _ hdest'.1]
  exact h c hc j hj hdest'.2 w hw

/-! ### Checking dominance by evaluation -/

namespace MirFunc

/-- `v` is a parameter, defined in `pre`, or defined in the entry block. -/
def entryDefines (f : MirFunc) (b : BlockId) (pre : List MirInst) (v : ValueId) : Bool :=
  v ∉ f.defs ∨ v ∈ pre.flatMap MirInst.dests ∨
    (f.entry ≠ b ∧ v ∈ ((f.block? f.entry).map MirBlock.defs).getD [])

/-- Every use is of a parameter, of a value defined before in its block, or of one of the entry block. -/
def entryDominated (f : MirFunc) : Bool :=
  (List.range f.blocks.length).all fun b ↦ (f.block? b).all fun blk ↦
    ((List.range blk.insts.length).all fun k ↦ (blk.insts[k]?).all fun i ↦
      match i with
      | .phi _ _ args =>
        args.all fun a ↦ (f.block? a.1).any fun from' ↦ f.entryDefines a.1 from'.insts a.2
      | i => i.operands.all (f.entryDefines b (blk.insts.take k))) &&
    blk.term.all fun t ↦ t.operands.all (f.entryDefines b blk.insts)

end MirFunc

theorem avail_of_entryDefines (h : f.entryDefines b pre v = true) : f.Avail b pre v := by
  simp only [MirFunc.entryDefines, decide_eq_true_eq] at h
  refine h.imp_right (Or.imp_right fun ⟨hne, hv⟩ ↦ ?_)
  cases he : f.block? f.entry with
  | none =>
    rw [he] at hv
    cases hv
  | some blk =>
    rw [he] at hv
    exact ⟨f.entry, blk, hne, dom_entry b, he, hv⟩

theorem dominated_of_entryDominated (h : f.entryDominated = true) : f.Dominated := by
  simp only [MirFunc.entryDominated, List.all_eq_true, List.mem_range, Option.all_eq_true,
    Bool.and_eq_true] at h
  have hblock : ∀ {b blk}, f.block? b = some blk → b < f.blocks.length := fun hb ↦
    (List.getElem?_eq_some_iff.1 hb).1
  refine ⟨fun {b blk pre i post} hb hblk hphi o ho ↦ ?_, fun {b blk d ty args} hb hi a ha ↦ ?_,
    fun {b blk t} hb ht o ho ↦ ?_⟩
  · have hk : pre.length < blk.insts.length := by simp [hblk]
    have hget : blk.insts[pre.length]? = some i := by simp [hblk]
    have htake : blk.insts.take pre.length = pre := by rw [hblk, List.take_left]
    have hi := (h b (hblock hb) blk hb).1 pre.length hk i hget
    rw [htake] at hi
    cases i with
    | phi => cases hphi
    | _ => exact avail_of_entryDefines (List.all_eq_true.1 hi o ho)
  · obtain ⟨k, hk⟩ := List.mem_iff_getElem?.1 hi
    have hlt : k < blk.insts.length := (List.getElem?_eq_some_iff.1 hk).1
    have hargs := List.all_eq_true.1 ((h b (hblock hb) blk hb).1 k hlt _ hk) a ha
    rw [Option.any_eq_true] at hargs
    obtain ⟨c, hc, hdef⟩ := hargs
    exact (availEnd_iff hc).2 (avail_of_entryDefines hdef)
  · have hop := (h b (hblock hb) blk hb).2 t ht o ho
    exact (availEnd_iff hb).2 (avail_of_entryDefines hop)

end CoilLang.Mir
