import CoilLang.Lib.Simulation
import CoilLang.Mir.Func
import Mathlib.Logic.Function.Basic

/-!
# Running a MIR function

A run keeps a word for every value, the state of the world and the effects so far. It executes a
**block at a time**: the φs of the block read, all at once, the incomings of the edge by which the
block was entered; then the other instructions run in order; then the terminator. The behaviour of
the operations outside the arithmetic is a parameter, the `World`: an effect barrier may change the
world, give any words and panic, and it is recorded in the trace with its operands; a trapping read
may panic but changes nothing; any other operation reads the world.

A φ takes its value from the edge its block was entered by, the first incoming of that block. At the
start of the function there is no such edge, so a φ in the entry block is **stuck** there, as is
a jump to a missing block; a verified function is stuck nowhere else (`safe_of_wellFormed`).

`Preserves f g` is what a pass has to prove: in every world, from all register contents, the runs of
`g` are those of `f`, with the same results, effects and traps.
-/

namespace CoilLang.Mir

/-- The behaviour of the operations outside the arithmetic over world states `σ`, with panics `π`. -/
structure World (σ π : Type) where
  /-- An effect barrier: its two result words, or a panic, and the world after it. -/
  effect : MirOp → List Word → σ → Except π (Word × Word) × σ
  /-- A read that may trap. -/
  check : MirOp → List Word → σ → Except π (Word × Word)
  /-- Any other operation. -/
  read : MirOp → List Word → σ → Word × Word

/-- The word of each value. -/
abbrev Env := ValueId → Word

/-- One effect of a run: the operation and its operands. -/
structure Event where
  op : MirOp
  args : List Word
  deriving DecidableEq, Repr

/-- What a run changes. -/
structure Mem (σ : Type) where
  env : Env
  world : σ
  trace : List Event

inductive Trap (π : Type)
  | int (t : IntTrap)
  | panic (p : π)

inductive Outcome (π : Type)
  | ret (lo hi : Option Word)
  | trap (t : Trap π)
  | unreachable
  /-- The run has no meaning: a φ without an incoming, or no block to run. -/
  | stuck

/-- How a run ends, with the world and the effects at the end. -/
structure Result (σ π : Type) where
  outcome : Outcome π
  world : σ
  trace : List Event

/-- A run about to execute `block`, entered from `pred`. -/
structure State (σ : Type) where
  block : BlockId
  pred : Option BlockId
  mem : Mem σ

variable {σ π : Type}

namespace Env

/-- Write the results of an instruction; the second word goes to `hi` when there is one. -/
def write (env : Env) (d : ValueId) (hi : Option ValueId) (w : Word × Word) : Env :=
  Function.update (hi.elim env fun h ↦ Function.update env h w.2) d w.1

end Env

def Mem.finish (m : Mem σ) (o : Outcome π) : Result σ π := ⟨o, m.world, m.trace⟩

/-! ### Arithmetic at run time -/

def evalBin : MirBinOp → Word → Word → IntResult
  | .add, a, b => IntArith.add a b
  | .sub, a, b => IntArith.sub a b
  | .mul, a, b => IntArith.mul a b
  | .div, a, b => IntArith.div a b
  | .rem, a, b => IntArith.rem a b
  | .bitAnd, a, b => .ok (a &&& b)
  | .bitOr, a, b => .ok (a ||| b)
  | .xor, a, b => .ok (a ^^^ b)
  | .shl, a, b => IntArith.shl a b
  | .shr, a, b => IntArith.shr a b
  | .pow, a, b => IntArith.pow a b

def evalCmp : MirCmpOp → Word → Word → Bool
  | .lt, a, b => a.toInt < b.toInt
  | .le, a, b => a.toInt ≤ b.toInt
  | .gt, a, b => b.toInt < a.toInt
  | .ge, a, b => b.toInt ≤ a.toInt
  | .eq, a, b => a = b
  | .ne, a, b => a ≠ b

def evalUnary : MirUnaryOp → Word → IntResult
  | .neg, a => IntArith.neg a
  | .not, a => .ok (if a = 0 then 1 else 0)

/-- The word an arithmetic instruction gives, or its trap; `none` for φs and operations. -/
def arith (env : Env) : MirInst → Option IntResult
  | .const _ c => some (.ok c.word)
  | .bin _ op _ l r => some (evalBin op (env l) (env r))
  | .cmp _ op _ l r => some (.ok (MirConst.bool (evalCmp op (env l) (env r))).word)
  | .unary _ op src => some (evalUnary op (env src))
  | .cast _ _ src => some (.ok (env src))
  | .phi .. | .op .. => none

/-! ### Blocks -/

/-- The result words of an operation on its operand words, with the world and the trace after. -/
def execOp (W : World σ π) (k : MirOp) (args : List Word) (w : σ) (t : List Event) :
    Except (Result σ π) ((Word × Word) × σ × List Event) :=
  if k.isEffectBarrier then
    match W.effect k args w with
    | (.ok r, w') => .ok (r, w', t ++ [⟨k, args⟩])
    | (.error p, w') => .error ⟨.trap (.panic p), w', t ++ [⟨k, args⟩]⟩
  else if k.mayTrap then
    match W.check k args w with
    | .ok r => .ok (r, w, t)
    | .error p => .error ⟨.trap (.panic p), w, t⟩
  else .ok (W.read k args w, w, t)

/-- The result words of an instruction, with the world and the trace after it. A φ has no meaning
among the instructions after the φs of its block. -/
def evalInst (W : World σ π) (i : MirInst) (env : Env) (w : σ) (t : List Event) :
    Except (Result σ π) ((Word × Word) × σ × List Event) :=
  match i with
  | .op _ k args => execOp W k (args.map env) w t
  | i =>
    match arith env i with
    | some (.ok r) => .ok ((r, 0), w, t)
    | some (.error e) => .error ⟨.trap (.int e), w, t⟩
    | none => .error ⟨.stuck, w, t⟩

/-- Run one instruction after the φs of its block. -/
def execInst (W : World σ π) (i : MirInst) (m : Mem σ) : Except (Result σ π) (Mem σ) :=
  match evalInst W i m.env m.world m.trace with
  | .ok (r, w, t) => .ok ⟨m.env.write i.dest i.hi r, w, t⟩
  | .error r => .error r

def execBody (W : World σ π) : List MirInst → Mem σ → Except (Result σ π) (Mem σ)
  | [], m => .ok m
  | i :: is, m =>
    match execInst W i m with
    | .ok m' => execBody W is m'
    | .error r => .error r

/-- What a φ copies on the edge from `pred`: its first incoming from there. -/
def phiArg (pred : Option BlockId) : MirInst → Option ValueId
  | .phi _ _ args => pred.bind fun p ↦ (args.find? (·.1 = p)).map Prod.snd
  | _ => none

/-- Every φ has an incoming for the edge. -/
def ready (pred : Option BlockId) (phis : List MirInst) : Bool :=
  phis.all fun i ↦ (phiArg pred i).isSome

/-- The words after the φs: all sources are read before any copy is made. -/
def enter (pred : Option BlockId) (phis : List MirInst) (env : Env) : Env := fun v ↦
  match (phis.find? (·.dest = v)).bind (phiArg pred) with
  | some a => env a
  | none => env v

def execTerm (b : BlockId) (m : Mem σ) : Option Terminator → State σ ⊕ Result σ π
  | some (.jump d) => .inl ⟨d, some b, m⟩
  | some (.br c t n) => .inl ⟨if m.env c = 0 then n else t, some b, m⟩
  | some (.ret lo hi) => .inr (m.finish (.ret (lo.map m.env) (hi.map m.env)))
  | some .unreachable => .inr (m.finish .unreachable)
  | none => .inr (m.finish .stuck)

/-- End the run after a trap, or go on as the terminator says. -/
def leave (b : BlockId) (t : Option Terminator) :
    Except (Result σ π) (Mem σ) → State σ ⊕ Result σ π
  | .error r => .inr r
  | .ok m => execTerm b m t

/-- Execute a block. -/
def execBlock (W : World σ π) (b : MirBlock) (s : State σ) : State σ ⊕ Result σ π :=
  if ready s.pred b.phis then
    leave s.block b.term
      (execBody W b.body ⟨enter s.pred b.phis s.mem.env, s.mem.world, s.mem.trace⟩)
  else .inr (s.mem.finish .stuck)

def step (W : World σ π) (f : MirFunc) (s : State σ) : State σ ⊕ Result σ π :=
  match f.block? s.block with
  | none => .inr (s.mem.finish .stuck)
  | some b => execBlock W b s

/-! ### What an instruction reads and writes -/

theorem Env.write_of_notMem {env : Env} {i : MirInst} {r : Word × Word} {v : ValueId}
    (hv : v ∉ i.dests) : env.write i.dest i.hi r v = env v := by
  simp only [MirInst.dests, List.mem_cons, Option.mem_toList, not_or] at hv
  unfold Env.write
  rw [Function.update_of_ne hv.1]
  cases h : i.hi with
  | none => rfl
  | some w =>
    rw [h] at hv
    exact Function.update_of_ne (fun hw : v = w ↦ hv.2 (by rw [hw])) _ _

/-- What is written does not depend on the words before. -/
theorem Env.write_of_mem {env env' : Env} {i : MirInst} {r : Word × Word} {v : ValueId}
    (hv : v ∈ i.dests) : env.write i.dest i.hi r v = env'.write i.dest i.hi r v := by
  simp only [MirInst.dests, List.mem_cons, Option.mem_toList] at hv
  unfold Env.write
  by_cases hd : v = i.dest
  · subst hd
    rw [Function.update_self, Function.update_self]
  · have hw : i.hi = some v := hv.resolve_left hd
    rw [Function.update_of_ne hd, Function.update_of_ne hd, hw]
    simp

theorem Env.write_single {env : Env} {i : MirInst} {r : Word × Word} (hhi : i.hi = none) :
    env.write i.dest i.hi r = Function.update env i.dest r.1 := by
  rw [Env.write, hhi]
  rfl

/-- **An instruction depends on its operand words only**: reading other values that hold the same
words gives the same. -/
theorem evalInst_rewriteValues {W : World σ π} {i : MirInst} {env env' : Env} {w : σ}
    {t : List Event} {r : ValueId → ValueId} (h : ∀ v ∈ i.operands, env' (r v) = env v) :
    evalInst W (i.rewriteValues r) env' w t = evalInst W i env w t := by
  cases i with
  | const | phi => rfl
  | bin | cmp | unary | cast =>
    simp only [MirInst.operands, List.mem_cons, List.not_mem_nil, or_false, forall_eq_or_imp,
      forall_eq] at h
    simp only [evalInst, MirInst.rewriteValues, arith, h]
  | op d k args =>
    have hargs : (args.map r).map env' = args.map env := by
      rw [List.map_map]
      exact List.map_congr_left h
    simp only [evalInst, MirInst.rewriteValues, hargs]

theorem evalInst_congr {W : World σ π} {i : MirInst} {env env' : Env} {w : σ}
    {t : List Event} (h : ∀ v ∈ i.operands, env' v = env v) :
    evalInst W i env' w t = evalInst W i env w t := by
  have hid := evalInst_rewriteValues (W := W) (w := w) (t := t) (r := id) h
  rwa [MirInst.rewriteValues_id] at hid

theorem phiArg_eq_some {pred : Option BlockId} {i : MirInst} {a : ValueId}
    (h : phiArg pred i = some a) :
    ∃ d ty args p, i = .phi d ty args ∧ pred = some p ∧ args.find? (·.1 = p) = some (p, a) := by
  cases i with
  | phi d ty args =>
    obtain ⟨p, hp, ha⟩ := Option.bind_eq_some_iff.1 h
    obtain ⟨⟨q, b⟩, hfind, rfl⟩ := Option.map_eq_some_iff.1 ha
    obtain rfl : q = p := by simpa using List.find?_some hfind
    exact ⟨d, ty, args, q, rfl, hp, hfind⟩
  | _ => cases h

theorem phiArg_mem_operands {pred : Option BlockId} {i : MirInst} {a : ValueId}
    (h : phiArg pred i = some a) : a ∈ i.operands := by
  obtain ⟨d, ty, args, p, rfl, -, hfind⟩ := phiArg_eq_some h
  exact List.mem_map.2 ⟨_, List.mem_of_find?_eq_some hfind, rfl⟩

/-! ### Runs as a machine -/

theorem execOp_trace {W : World σ π} {k : MirOp} {args : List Word} {w : σ} {t : List Event} :
    (∀ {r w' t'}, execOp W k args w t = .ok (r, w', t') → t <+: t') ∧
      ∀ {r}, execOp W k args w t = .error r → t <+: r.trace := by
  have happ : t <+: t ++ [⟨k, args⟩] := List.prefix_append _ _
  unfold execOp
  split
  · split
    · exact ⟨fun h ↦ by cases h; exact happ, fun h ↦ by cases h⟩
    · exact ⟨fun h ↦ (by cases h), fun h ↦ by cases h; exact happ⟩
  · split
    · split
      · exact ⟨fun h ↦ by cases h; exact List.prefix_refl _, fun h ↦ by cases h⟩
      · exact ⟨fun h ↦ (by cases h), fun h ↦ by cases h; exact List.prefix_refl _⟩
    · exact ⟨fun h ↦ by cases h; exact List.prefix_refl _, fun h ↦ by cases h⟩

/-- Outside the operations an instruction changes neither the world nor the trace. -/
theorem evalInst_arith {W : World σ π} {i : MirInst} {env : Env} {w : σ} {t : List Event}
    (hi : ∀ d k args, i ≠ .op d k args) :
    evalInst W i env w t =
      match arith env i with
      | some (.ok r) => .ok ((r, 0), w, t)
      | some (.error e) => .error ⟨.trap (.int e), w, t⟩
      | none => .error ⟨.stuck, w, t⟩ := by
  cases i with
  | op d k args => exact absurd rfl (hi d k args)
  | _ => rfl

theorem evalInst_trace {W : World σ π} {i : MirInst} {env : Env} {w : σ} {t : List Event} :
    (∀ {r w' t'}, evalInst W i env w t = .ok (r, w', t') → t <+: t') ∧
      ∀ {r}, evalInst W i env w t = .error r → t <+: r.trace := by
  by_cases hop : ∃ d k args, i = .op d k args
  · obtain ⟨d, k, args, rfl⟩ := hop
    exact execOp_trace
  · rw [evalInst_arith (fun d k args h ↦ hop ⟨d, k, args, h⟩)]
    split
    · exact ⟨fun h ↦ by cases h; exact List.prefix_refl _, fun h ↦ by cases h⟩
    · exact ⟨fun h ↦ (by cases h), fun h ↦ by cases h; exact List.prefix_refl _⟩
    · exact ⟨fun h ↦ (by cases h), fun h ↦ by cases h; exact List.prefix_refl _⟩

theorem execInst_ok {W : World σ π} {i : MirInst} {m m' : Mem σ} :
    execInst W i m = .ok m' ↔ ∃ r, evalInst W i m.env m.world m.trace = .ok (r, m'.world, m'.trace) ∧
      m'.env = m.env.write i.dest i.hi r := by
  unfold execInst
  split
  · rename_i r w t h
    rw [h]
    constructor
    · intro hm
      cases hm
      exact ⟨r, rfl, rfl⟩
    · rintro ⟨r', hr, henv⟩
      cases hr
      rw [← henv]
  · rename_i r h
    rw [h]
    constructor
    · intro hm
      cases hm
    · rintro ⟨r', hr, -⟩
      cases hr

theorem execInst_error {W : World σ π} {i : MirInst} {m : Mem σ} {r : Result σ π} :
    execInst W i m = .error r ↔ evalInst W i m.env m.world m.trace = .error r := by
  unfold execInst
  split <;> simp_all

theorem execBody_trace {W : World σ π} {is : List MirInst} {m : Mem σ} :
    (∀ {m'}, execBody W is m = .ok m' → m.trace <+: m'.trace) ∧
      ∀ {r}, execBody W is m = .error r → m.trace <+: r.trace := by
  induction is generalizing m with
  | nil => exact ⟨fun h ↦ by cases h; exact List.prefix_refl _, fun h ↦ by cases h⟩
  | cons i is ih =>
    unfold execBody
    split
    · rename_i m' h
      obtain ⟨r, hr, -⟩ := execInst_ok.1 h
      have hm := evalInst_trace.1 hr
      exact ⟨fun h ↦ hm.trans (ih.1 h), fun h ↦ hm.trans (ih.2 h)⟩
    · rename_i r h
      refine ⟨fun h ↦ (by cases h), fun h' ↦ ?_⟩
      cases h'
      exact evalInst_trace.2 (execInst_error.1 h)

theorem execTerm_trace {b : BlockId} {m : Mem σ} {t : Option Terminator} :
    (∀ {s'}, execTerm (π := π) b m t = .inl s' → m = s'.mem) ∧
      ∀ {r}, execTerm (π := π) b m t = .inr r → m.trace = r.trace := by
  constructor
  · intro s' h
    rcases t with _ | _ | _ | _ | _ <;> cases h <;> rfl
  · intro r h
    rcases t with _ | _ | _ | _ | _ <;> cases h <;> rfl

theorem step_trace {W : World σ π} {f : MirFunc} {s : State σ} :
    (∀ {s'}, step W f s = .inl s' → s.mem.trace <+: s'.mem.trace) ∧
      ∀ {r}, step W f s = .inr r → s.mem.trace <+: r.trace := by
  unfold step
  split
  · exact ⟨fun h ↦ (by cases h), fun h ↦ by cases h; exact List.prefix_refl _⟩
  · unfold execBlock
    split
    · unfold leave
      split
      · rename_i r h
        have hm := execBody_trace.2 h
        exact ⟨fun h' ↦ (by cases h'), fun h' ↦ by cases h'; exact hm⟩
      · rename_i m h
        have hm := execBody_trace.1 h
        exact ⟨fun h' ↦ execTerm_trace.1 h' ▸ hm, fun h' ↦ execTerm_trace.2 h' ▸ hm⟩
    · exact ⟨fun h ↦ (by cases h), fun h ↦ by cases h; exact List.prefix_refl _⟩

/-- The runs of a function in a world. -/
def machine (W : World σ π) (f : MirFunc) : Machine (State σ) (Result σ π) Event where
  step := step W f
  trace s := s.mem.trace
  endTrace r := r.trace
  stuck r := r.outcome = .stuck
  next_mono h := step_trace.1 h
  end_mono h := step_trace.2 h

/-- The start of a run with the words `env` in the registers, the arguments among them. -/
def start (f : MirFunc) (env : Env) (w : σ) : State σ := ⟨f.entry, none, ⟨env, w, []⟩⟩

/-! ### A verified function does not get stuck -/

/-- The run is in a block of the function, entered along an edge or at the start. -/
def OnEdge (f : MirFunc) (s : State σ) : Prop :=
  match s.pred with
  | none => s.block = f.entry
  | some p => ∃ b, f.block? p = some b ∧ s.block ∈ b.succs

theorem execTerm_succ {b : BlockId} {m : Mem σ} {t : Terminator} {s : State σ}
    (h : execTerm (π := π) b m (some t) = .inl s) :
    s.pred = some b ∧ s.block ∈ t.succs ∧ s.mem = m := by
  cases t with
  | jump d =>
    cases h
    exact ⟨rfl, List.mem_singleton.2 rfl, rfl⟩
  | br c t n =>
    cases h
    refine ⟨rfl, ?_, rfl⟩
    simp only [Terminator.succs, List.mem_cons, List.not_mem_nil, or_false]
    split
    · exact .inr rfl
    · exact .inl rfl
  | ret lo hi => cases h
  | unreachable => cases h

theorem evalInst_not_stuck {W : World σ π} {i : MirInst} {env : Env} {w : σ} {t : List Event}
    (hi : i.isPhi = false) {r : Result σ π} (h : evalInst W i env w t = .error r) :
    r.outcome ≠ .stuck := by
  cases i with
  | phi => cases hi
  | op d k args =>
    simp only [evalInst, execOp] at h
    split at h
    · split at h <;> cases h
      simp
    · split at h
      · split at h <;> cases h
        simp
      · cases h
  | const | cmp | cast => cases h
  | bin | unary =>
    simp only [evalInst, arith] at h
    split at h <;> cases h
    · simp
    · simp_all

theorem execBody_not_stuck {W : World σ π} {is : List MirInst} (his : ∀ i ∈ is, i.isPhi = false)
    {m : Mem σ} {r : Result σ π} (h : execBody W is m = .error r) : r.outcome ≠ .stuck := by
  induction is generalizing m with
  | nil => cases h
  | cons i is ih =>
    unfold execBody at h
    split at h
    · exact ih (fun j hj ↦ his j (List.mem_cons_of_mem _ hj)) h
    · rename_i r' h'
      cases h
      exact evalInst_not_stuck (his i List.mem_cons_self) (execInst_error.1 h')

theorem MirBlock.body_not_phi (b : MirBlock) : ∀ i ∈ b.body, i.isPhi = false := by
  intro i hi
  simpa using (List.mem_filter.1 hi).2

/-- A step along an edge. -/
theorem step_onEdge {W : World σ π} {f : MirFunc} {s s' : State σ} (h : step W f s = .inl s') :
    s'.pred = some s.block ∧ ∃ b, f.block? s.block = some b ∧ s'.block ∈ b.succs := by
  unfold step at h
  split at h
  · cases h
  · rename_i b hb
    unfold execBlock at h
    split at h
    · unfold leave at h
      split at h
      · cases h
      · cases ht : b.term with
        | none => rw [ht] at h; cases h
        | some t =>
          rw [ht] at h
          obtain ⟨hp, hs, -⟩ := execTerm_succ h
          exact ⟨hp, b, hb, by simpa [MirBlock.succs, ht] using hs⟩
    · cases h

/-- The φs of a block have an incoming for every edge into it. -/
theorem WellFormed.exists_arg {f : MirFunc} (hf : WellFormed f) {b p : MirBlock}
    (hb : b ∈ f.blocks) (hp : p ∈ f.blocks) (hs : b.id ∈ p.succs) {d : ValueId} {ty : MirTy}
    {args : List (BlockId × ValueId)} (hi : MirInst.phi d ty args ∈ b.insts) :
    ∃ a, args.find? (·.1 = p.id) = some a := by
  have hmem : p.id ∈ args.map Prod.fst :=
    (hf.phi hb hi).2.1.mem_iff.2 (MirFunc.mem_preds.2 ⟨p, hp, rfl, hs⟩)
  obtain ⟨a, ha, hap⟩ := List.mem_map.1 hmem
  exact Option.isSome_iff_exists.1 (List.find?_isSome.2 ⟨a, ha, by simpa using hap⟩)

theorem WellFormed.ready {f : MirFunc} (hf : WellFormed f) {s : State σ} (hs : OnEdge f s)
    {b : MirBlock} (hb : f.block? s.block = some b) (hentry : s.pred = none → b.phis = []) :
    ready s.pred b.phis = true := by
  refine List.all_eq_true.2 fun i hi ↦ ?_
  have hi' := (List.mem_filter.1 hi).1
  have hbid : b.id = s.block := hf.id hb
  cases hpred : s.pred with
  | none => rw [hentry hpred] at hi; cases hi
  | some p =>
    simp only [OnEdge, hpred] at hs
    obtain ⟨c, hc, hsc⟩ := hs
    cases i with
    | phi d ty args =>
      obtain ⟨a, ha⟩ := hf.exists_arg (List.mem_of_getElem? hb) (List.mem_of_getElem? hc)
        (hbid ▸ hsc) hi'
      rw [hf.id hc] at ha
      simp [phiArg, ha]
    | _ => simp [MirBlock.phis, MirInst.isPhi] at hi

/-- **A verified function whose entry block has no φ never gets stuck.** -/
theorem safe_of_wellFormed {f : MirFunc} (hf : WellFormed f)
    (hentry : ∀ b, f.block? f.entry = some b → b.phis = []) (W : World σ π) (env : Env) (w : σ) :
    (machine W f).Safe (start f env w) := by
  refine Machine.safe_of_invariant (P := OnEdge f) ?_ ?_ rfl
  · intro s s' _ h
    obtain ⟨hp, hb⟩ := step_onEdge h
    simp only [OnEdge, hp]
    exact hb
  · intro s r hs h hst
    have hlt : s.block < f.blocks.length := by
      unfold OnEdge at hs
      split at hs
      · exact hs ▸ hf.entry
      · obtain ⟨b, hb, hsb⟩ := hs
        exact hf.succs b (List.mem_of_getElem? hb) _ hsb
    obtain ⟨b, hb⟩ : ∃ b, f.block? s.block = some b := ⟨_, List.getElem?_eq_getElem hlt⟩
    have hready := hf.ready hs hb fun hp ↦ by
      simp only [OnEdge, hp] at hs
      exact hentry b (hs ▸ hb)
    obtain ⟨t, ht⟩ := hf.term b (List.mem_of_getElem? hb)
    change step W f s = .inr r at h
    simp only [step, hb, execBlock, hready, if_true, leave] at h
    split at h
    · rename_i r' hr
      cases h
      exact execBody_not_stuck b.body_not_phi hr hst
    · rw [ht] at h
      cases t <;> cases h <;> cases hst

/-- In every world and from all register contents, the runs of `g` are those of `f`, provided that
`f` does not get stuck; then neither does `g`. -/
def Preserves (f g : MirFunc) : Prop :=
  ∀ (σ π : Type) (W : World σ π) (env : Env) (w : σ),
    (machine W f).Safe (start f env w) →
      (machine W f).SameRuns (machine W g) (start f env w) (start g env w) ∧
        (machine W g).Safe (start g env w)

namespace Preserves

theorem refl (f : MirFunc) : Preserves f f :=
  fun _ _ W env w h ↦ ⟨.refl (machine W f) (start f env w), h⟩

theorem trans {f g h : MirFunc} (hfg : Preserves f g) (hgh : Preserves g h) : Preserves f h := by
  intro σ π W env w hs
  obtain ⟨hsame, hs'⟩ := hfg σ π W env w hs
  obtain ⟨hsame', hs''⟩ := hgh σ π W env w hs'
  exact ⟨hsame.trans hsame', hs''⟩

/-- A simulation for every world that relates the starts. -/
theorem of_plusSim {f g : MirFunc}
    (h : ∀ (σ π : Type) (W : World σ π) (env : Env) (w : σ), ∃ Rel : State σ → State σ → Prop,
      (machine W f).PlusSim (machine W g) Rel ∧ Rel (start f env w) (start g env w)) :
    Preserves f g := by
  intro σ π W env w hs
  obtain ⟨Rel, hsim, hR⟩ := h σ π W env w
  exact ⟨hsim.sameRuns hR hs, hsim.safe hR hs⟩

end Preserves

/-- Two steps that end alike or go on to related states. -/
def StepRel (Rel : State σ → State σ → Prop) : State σ ⊕ Result σ π → State σ ⊕ Result σ π → Prop
  | .inl s, .inl t => Rel s t
  | .inr r, .inr r' => r = r'
  | _, _ => False

/-- Two executions that trap alike or go on with related memories. -/
def ResRel (P : Mem σ → Mem σ → Prop) :
    Except (Result σ π) (Mem σ) → Except (Result σ π) (Mem σ) → Prop
  | .ok m, .ok m' => P m m'
  | .error r, .error r' => r = r'
  | _, _ => False

theorem ResRel.leave {P : Mem σ → Mem σ → Prop} {Rel : State σ → State σ → Prop}
    {e e' : Except (Result σ π) (Mem σ)} (h : ResRel P e e') {b b' : BlockId}
    {t t' : Option Terminator}
    (hterm : ∀ m m', P m m' → StepRel Rel (execTerm (π := π) b m t) (execTerm b' m' t')) :
    StepRel Rel (leave b t e) (leave b' t' e') := by
  cases e with
  | error r =>
    cases e' with
    | error r' => exact h
    | ok m' => exact h.elim
  | ok m =>
    cases e' with
    | error r' => exact h.elim
    | ok m' => exact hterm m m' h

/-- A relation that every pair of steps keeps, block by block. -/
theorem Preserves.of_lockstep {f g : MirFunc}
    (h : ∀ (σ π : Type) (W : World σ π) (env : Env) (w : σ), ∃ Rel : State σ → State σ → Prop,
      Rel (start f env w) (start g env w) ∧ ∀ s t, Rel s t → s.mem.trace = t.mem.trace ∧
        ((∀ r, step W f s = .inr r → r.outcome ≠ .stuck) →
          StepRel Rel (step W f s) (step W g t))) :
    Preserves f g := by
  refine Preserves.of_plusSim fun σ π W env w ↦ ?_
  obtain ⟨Rel, hstart, hRel⟩ := h σ π W env w
  have hstep : ∀ {s t}, Rel s t → (machine W f).Safe s → StepRel Rel (step W f s) (step W g t) :=
    fun hR hs ↦ (hRel _ _ hR).2 fun r hr ↦ hs.step_not_stuck hr
  refine ⟨Rel, ⟨fun _ ↦ id, fun _ ↦ rfl, fun hR ↦ (hRel _ _ hR).1, ?_, ?_⟩, hstart⟩
  · intro s t t' hR hs ht
    have h' := hstep hR hs
    rw [show step W g t = .inl t' from ht] at h'
    cases hst : step W f s with
    | inl s' =>
      rw [hst] at h'
      exact ⟨0, s', Machine.stepN_one hst, h'⟩
    | inr r => rw [hst] at h'; exact h'.elim
  · intro s t r hR hs ht
    have h' := hstep hR hs
    rw [show step W g t = .inr r from ht] at h'
    cases hst : step W f s with
    | inl s' => rw [hst] at h'; exact h'.elim
    | inr r' =>
      rw [hst] at h'
      exact h' ▸ .of_step hst

end CoilLang.Mir
