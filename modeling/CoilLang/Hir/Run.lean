import CoilLang.Hir.Expr
import CoilLang.Machine.Arith
import Mathlib.Data.PFun

/-!
# What a typed tree does

The meaning of a body, as the lowering and the symbolic executor of `verify` read it. A run starts
with the values of the locals and a world, and ends with a value, an exit (`break`, `continue`,
`return`, a trap) or not at all. Integers, booleans, unit and enum values are the values of the language
itself; every other value, and everything an operation on one does, belongs to a `Host`, an arbitrary
parameter. An operation of the host may stop the run, so two trees that run alike under every host
also **have the same effects in the same order** when they do not end: a host can stop at any of them.

A closure captures a copy, so nothing but the body itself writes its locals. When a trap leaves the
body, only the locals a `defer` captures are read again, so the other values are gone from the state
(`State.onlyKeep`).

The meaning of a node is built from the meanings of its children (`sem`), and from nothing else of
them. That is the reason a rewrite below a node needs no argument about the node.
-/

namespace CoilLang.Hir

open Machine (Cmp cmp)

/-- Run-time values; `host` has those of no modelled type. -/
inductive Value (H : Type)
  | int (w : Word)
  | bool (b : Bool)
  | unit
  | variant (enumName variant : String) (fields : Option (List String)) (args : List (Value H))
  | host (h : H)

/-- Why a run stops; `stuck` is an ill-typed program. -/
inductive Trap (P : Type)
  | int (t : IntTrap)
  | panic (p : P)
  | stuck

/-- How a run leaves an expression without a value. -/
inductive Exit (H P : Type)
  | brk
  | cont
  | ret (v : Value H)
  | trap (t : Trap P)

@[ext]
structure State (H W : Type) where
  env : LocalId → Value H
  world : W

/-- What the language leaves to its run time. -/
structure Host (H P W : Type) where
  /-- An operation on the values of its children. -/
  op : HirKind → Option Ty → List (Value H) → W → Except P (Value H) × W
  /-- A write to a field, an element or a static, with the operands of the place. -/
  store : HirKind → List (Value H) → Value H → W → Except P Unit × W
  /-- A local that was cleared or has no value yet. -/
  blank : LocalId → Value H
  /-- The items of a tuple and the fields of a record, for a pattern. -/
  items : Value H → W → Option (List (Value H))
  field : Value H → W → String → Option (Value H)
  iter : Option ForInKind → Value H → W → Except P (Value H) × W
  /-- The next item of an iterator, and the iterator after it. -/
  next : Option ForInKind → Value H → W → Except P (Option (Value H × Value H)) × W
  /-- Enums whose values have a finalizer. -/
  hasDrop : String → Bool

variable {H P W α β : Type}

namespace State

def set (s : State H W) (l : LocalId) (v : Value H) : State H W :=
  { s with env := fun k ↦ if k = l then v else s.env k }

/-- Only the locals `keep` names are left. -/
def onlyKeep (keep : LocalId → Bool) (s : State H W) : State H W :=
  { s with env := fun l ↦ if keep l then s.env l else .unit }

end State

/-! ### Runs -/

/-- A computation that may leave early, or run forever. -/
def Run (H P W α : Type) := State H W → Part (Except (Exit H P) α × State H W)

namespace Run

/-- Go on after a value; an exit stays. -/
def andThen (f : α → Run H P W β) : Except (Exit H P) α × State H W → Part (Except (Exit H P) β × State H W)
  | (.ok a, t) => f a t
  | (.error e, t) => .some (.error e, t)

instance : Monad (Run H P W) where
  pure a := fun s ↦ .some (.ok a, s)
  bind m f := fun s ↦ (m s).bind (andThen f)

def exit (e : Exit H P) : Run H P W α := fun s ↦ .some (.error e, s)

/-- A trap leaves the locals `keep` names. -/
def trap (keep : LocalId → Bool) (t : Trap P) : Run H P W α := fun s ↦ .some (.error (.trap t), s.onlyKeep keep)

def read (l : LocalId) : Run H P W (Value H) := fun s ↦ .some (.ok (s.env l), s)

def write (l : LocalId) (v : Value H) : Run H P W Unit := fun s ↦ .some (.ok (), s.set l v)

/-- An operation of the host. -/
def host (keep : LocalId → Bool) (f : W → Except P α × W) : Run H P W α := fun s ↦
  match f s.world with
  | (.ok a, w) => .some (.ok a, { s with world := w })
  | (.error p, w) => .some (.error (.trap (.panic p)), { s with world := w }.onlyKeep keep)

/-- Something the world determines, if the program is well typed. -/
def look (keep : LocalId → Bool) (f : W → Option α) : Run H P W α := fun s ↦
  match f s.world with
  | some a => .some (.ok a, s)
  | none => .some (.error (.trap .stuck), s.onlyKeep keep)

/-- In order, as long as each gives a value. -/
def all : List (Run H P W α) → Run H P W (List α)
  | [] => pure []
  | m :: ms => do
    let a ← m
    let as ← all ms
    pure (a :: as)

def writeAll : List (LocalId × Value H) → Run H P W Unit
  | [] => pure ()
  | (l, v) :: bs => do
    write l v
    writeAll bs

/-- The end of one trip of a loop: whether another follows, from the state `again` makes. -/
def trip (again : State H W → β) : Except (Exit H P) α × State H W → (Except (Exit H P) (Value H) × State H W) ⊕ β
  | (.ok _, t) => .inr (again t)
  | (.error .cont, t) => .inr (again t)
  | (.error .brk, t) => .inl (.ok .unit, t)
  | (.error e, t) => .inl (.error e, t)

/-- `loop { body }`, until a `break` or another exit of the body. -/
noncomputable def loop (body : Run H P W α) : Run H P W (Value H) :=
  PFun.fix fun s ↦ (body s).map (trip id)

/-- What a `for` loop does with the item its iterator gave. -/
def item (body : Value H → Run H P W α) :
    Except (Exit H P) (Option (Value H × Value H)) × State H W →
      Part ((Except (Exit H P) (Value H) × State H W) ⊕ Value H × State H W)
  | (.ok (some (x, it)), t) => (body x t).map (trip fun u ↦ (it, u))
  | (.ok none, t) => .some (.inl (.ok .unit, t))
  | (.error e, t) => .some (.inl (.error e, t))

/-- A `for` loop over the items that `next` gives. -/
noncomputable def forIn (next : Value H → Run H P W (Option (Value H × Value H)))
    (body : Value H → Run H P W α) (it : Value H) : Run H P W (Value H) := fun s ↦
  PFun.fix (fun (p : Value H × State H W) ↦ (next p.1 p.2).bind (item body)) (it, s)

/-- The end of a block with a `defer`: the deferred body has run, in a frame of its own. -/
def afterDefer (keep : LocalId → Bool) (r : Except (Exit H P) α × State H W) :
    Except (Exit H P) β × State H W → Except (Exit H P) α × State H W
  | (.error (.trap t), u) => (.error (.trap t), { r.2 with world := u.world }.onlyKeep keep)
  | (_, u) => (r.1, { r.2 with world := u.world })

/-- Run `d` when `m` is left, on the captured locals. -/
def deferring (keep : LocalId → Bool) (captures : List (Option LocalId)) (d : Run H P W β) (m : Run H P W α) :
    Run H P W α := fun s ↦
  (m s).bind fun r ↦ (d (r.2.onlyKeep fun l ↦ some l ∈ captures)).map (afterDefer keep r)

end Run

/-! ### Meanings -/

/-- What the parent of a node sees of it besides what it runs: a place it can be written to, a
deferred body, an operator with its right operand. -/
inductive Shape (R : Type)
  | loc (l : LocalId)
  | place (kind : HirKind) (ty : Option Ty) (operands : List R)
  | defer (captures : List (Option LocalId)) (body : R)
  | bin (op : BinOp) (ty : Option Ty) (rhs : R)
  | other

structure Meaning (R : Type) where
  run : R
  shape : Shape R

abbrev Meaning.runs {R : Type} (ms : List (Meaning R)) : List R := ms.map Meaning.run

def shapeOf {R : Type} (ty : Option Ty) : HirKind → List (Meaning R) → Shape R
  | .loc l, _ => .loc l
  | .global name, ms => .place (.global name) ty (Meaning.runs ms)
  | .field name, ms => .place (.field name) ty (Meaning.runs ms)
  | .index kind, ms => .place (.index kind) ty (Meaning.runs ms)
  | .defer captures, [m] => .defer captures m.run
  | .bin op, [_, rhs] => .bin op ty rhs.run
  | _, _ => .other

def BinOp.arith : BinOp → Option IntOp
  | .intAdd => some .add
  | .intSub => some .sub
  | .intMul => some .mul
  | .intDiv => some .div
  | .intRem => some .rem
  | .intPow => some .pow
  | .shl => some .shl
  | .shr => some .shr
  | .bitAnd => some .bitAnd
  | .bitOr => some .bitOr
  | .bitXor => some .xor
  | _ => none

def BinOp.compare : BinOp → Option Cmp
  | .eq => some .eq
  | .ne => some .ne
  | .lt => some .lt
  | .le => some .le
  | .gt => some .gt
  | .ge => some .ge
  | _ => none

/-- The operators on two booleans. -/
def BinOp.logical : BinOp → Option (Bool → Bool → Bool)
  | .eq => some (· == ·)
  | .ne => some (· != ·)
  | .bitAnd => some (· && ·)
  | .bitOr => some (· || ·)
  | .bitXor => some (· != ·)
  | _ => none

def Value.truth : Value H → Option Bool
  | .bool b => some b
  | _ => none

def Value.isInt (n : Word) : Value H → Bool
  | .int w => w = n
  | _ => false

/-- The field names and the fields of a variant. -/
def Value.payload (e k : String) : Value H → Option (Option (List String) × List (Value H))
  | .variant e' k' fields args => if e = e' ∧ k = k' then some (fields, args) else none
  | _ => none

/-- `()`, as the checker writes it. -/
def isUnit (ty : Option Ty) : Bool :=
  match ty.map stripReadonly with
  | some (.con "unit") => true
  | some (.tuple []) => true
  | _ => false

/-- The locals of a body with the run time below it. -/
structure Ctx (H P W : Type) where
  host : Host H P W
  locals : List HirLocal

namespace Ctx

variable (c : Ctx H P W)

def captured (l : LocalId) : Bool := capturedIn c.locals l

def op (k : HirKind) (ty : Option Ty) (vs : List (Value H)) : Run H P W (Value H) :=
  .host c.captured (c.host.op k ty vs)

def arith (r : IntResult) : Run H P W (Value H) :=
  match r with
  | .ok w => pure (.int w)
  | .error t => .trap c.captured (.int t)

def bin (op : BinOp) (ty : Option Ty) : Value H → Value H → Run H P W (Value H)
  | .int a, .int b =>
    match op.arith, op.compare with
    | some o, _ => c.arith (IntArith.int o a b)
    | none, some o => pure (.bool (cmp o a b))
    | none, none => c.op (.bin op) ty [.int a, .int b]
  | .bool a, .bool b =>
    match op.logical with
    | some f => pure (.bool (f a b))
    | none => c.op (.bin op) ty [.bool a, .bool b]
  | a, b => c.op (.bin op) ty [a, b]

def un (op : UnOp) (ty : Option Ty) : Value H → Run H P W (Value H)
  | .int a =>
    match op with
    | .neg => c.arith (IntArith.neg a)
    | .bitNot => pure (.int (~~~a))
    | .not => pure (.bool (a = 0))
  | .bool b =>
    match op with
    | .not => pure (.bool !b)
    | _ => c.op (.un op) ty [.bool b]
  | v => c.op (.un op) ty [v]

def lit (ty : Option Ty) : Lit → Run H P W (Value H)
  | .int n => pure (.int n)
  | .bool b => pure (.bool b)
  | .unit => pure .unit
  | l => c.op (.lit l) ty []

/-- A value of an enum with a finalizer is made known to the run time. -/
def make (kind : MakeKind) (ty : Option Ty) (vs : List (Value H)) : Run H P W (Value H) :=
  match kind with
  | .variant e v fields => do
    if c.host.hasDrop e ∧ vs ≠ [] then
      let _ ← c.op (.make kind) ty vs
    pure (.variant e v fields vs)
  | _ => c.op (.make kind) ty vs

/-! ### Patterns -/

mutual

/-- The locals a value binds, when it matches. -/
def binds (w : W) : HirPat → Value H → Option (List (LocalId × Value H))
  | .wild, _ => some []
  | .bind l, v => some [(l, v)]
  | .int n, v => if v.isInt n then some [] else none
  | .variant e k, v => (v.payload e k).map fun _ ↦ []
  | .variantTuple e k ps, v => (v.payload e k).bind fun p ↦ bindsAll w ps p.2
  | .variantRecord e k ps, v => (v.payload e k).bind fun p ↦ bindsFields w ps fun f ↦ ((p.1.getD []).zip p.2).lookup f
  | .tuple ps, v => (c.host.items v w).bind (bindsAll w ps)
  | .record ps, v => bindsFields w ps (c.host.field v w)
termination_by structural p => p

def bindsAll (w : W) : List HirPat → List (Value H) → Option (List (LocalId × Value H))
  | [], vs => if vs.isEmpty then some [] else none
  | p :: ps, vs => vs.head?.bind fun v ↦ (binds w p v).bind fun bs ↦ (bindsAll w ps vs.tail).map (bs ++ ·)
termination_by structural ps => ps

def bindsFields (w : W) : List (String × HirPat) → (String → Option (Value H)) → Option (List (LocalId × Value H))
  | [], _ => some []
  | (f, p) :: ps, get => (get f).bind fun v ↦ (binds w p v).bind fun bs ↦ (bindsFields w ps get).map (bs ++ ·)
termination_by structural ps => ps

end

/-- The first pattern that matches, with what it binds. -/
def arm (w : W) (v : Value H) : List HirPat → Option (List (LocalId × Value H) × ℕ)
  | [] => none
  | p :: ps =>
    match c.binds w p v with
    | some bs => some (bs, 0)
    | none => (arm w v ps).map fun r ↦ (r.1, r.2 + 1)

/-! ### The meaning of a node -/

/-- The statements of a block. A `defer` runs its body when the rest is left. -/
def block (tail : Bool) : List (Meaning (Run H P W (Value H))) → Run H P W (Value H)
  | [] => pure .unit
  | m :: ms =>
    match m.shape with
    | .defer captures d => .deferring c.captured captures d (block tail ms)
    | _ => if tail ∧ ms.isEmpty then m.run else do
      let _ ← m.run
      block tail ms

/-- The value of an assignment that is not a statement. -/
def shown (ty : Option Ty) (flags : HirFlags) (old new : Value H) : Value H :=
  if isUnit ty then .unit else if flags.adjust ∧ ¬ flags.prefixed then old else new

/-- The value runs before the operands of the place. A compound assignment runs these operands
first, and once, for the read and the write. -/
def assign (ty : Option Ty) (flags : HirFlags) (place value : Meaning (Run H P W (Value H))) : Run H P W (Value H) :=
  match place.shape with
  | .loc l => do
    let old ← Run.read l
    let v ← value.run
    Run.write l v
    pure (shown ty flags old v)
  | .place k placeTy operands =>
    match flags.compound, value.shape with
    | true, .bin op opTy rhs => do
      let vs ← Run.all operands
      let old ← c.op k placeTy vs
      let r ← rhs
      let v ← c.bin op opTy old r
      Run.host c.captured (c.host.store k vs v)
      pure (shown ty flags old v)
    | _, _ => do
      let v ← value.run
      let vs ← Run.all operands
      Run.host c.captured (c.host.store k vs v)
      pure (shown ty flags v v)
  | _ => Run.trap c.captured .stuck

/-- What a lambda captures, in the order of the locals. -/
def captures : List LocalId := (List.range c.locals.length).filter c.captured

/-- What a node runs, from the meanings of its children. -/
noncomputable def sem (ty : Option Ty) (flags : HirFlags) : HirKind → List (Meaning (Run H P W (Value H))) → Run H P W (Value H)
  | .lit l, _ => c.lit ty l
  | .loc l, _ => Run.read l
  | .bin op, [a, b] => do
    let x ← a.run
    let y ← b.run
    c.bin op ty x y
  | .logic and, [a, b] => do
    let x ← a.run
    let t ← Run.look c.captured fun _ ↦ x.truth
    if t = and then b.run else pure (.bool t)
  | .un op, [a] => do
    let x ← a.run
    c.un op ty x
  | .make kind, ms => do
    let vs ← Run.all (Meaning.runs ms)
    c.make kind ty vs
  | .block tail, ms => c.block tail ms
  | .letLocal l, [] => do
    Run.write l (c.host.blank l)
    pure .unit
  | .letLocal l, [init] => do
    let v ← init.run
    Run.write l v
    pure .unit
  | .letPat pat, [init] => do
    let v ← init.run
    let bs ← Run.look c.captured fun w ↦ c.binds w pat v
    Run.writeAll bs
    pure .unit
  | .assign, [place, value] => c.assign ty flags place value
  | .ite, [cond, t] => do
    let x ← cond.run
    let b ← Run.look c.captured fun _ ↦ x.truth
    if b then t.run else pure .unit
  | .ite, [cond, t, els] => do
    let x ← cond.run
    let b ← Run.look c.captured fun _ ↦ x.truth
    if b then t.run else els.run
  | .loop, [body] => Run.loop body.run
  | .forIn pat kind, [iterable, body] => do
    let x ← iterable.run
    let it ← Run.host c.captured (c.host.iter kind x)
    Run.forIn (fun it ↦ Run.host c.captured (c.host.next kind it))
      (fun x ↦ do
        let bs ← Run.look c.captured fun w ↦ c.binds w pat x
        Run.writeAll bs
        body.run)
      it
  | .brk, _ => Run.exit .brk
  | .cont, _ => Run.exit .cont
  | .ret, [] => Run.exit (.ret .unit)
  | .ret, [value] => do
    let v ← value.run
    Run.exit (.ret v)
  | .matchOn pats, scrutinee :: arms => do
    let v ← scrutinee.run
    let r ← Run.look c.captured fun w ↦ c.arm w v pats
    Run.writeAll r.1
    (Meaning.runs arms).getD r.2 (Run.trap c.captured .stuck)
  | .lambda body, _ => do
    let vs ← Run.all (c.captures.map Run.read)
    c.op (.lambda body) ty vs
  | .defer _, _ => pure .unit
  | .clear ls, _ => do
    Run.writeAll (ls.map fun l ↦ (l, c.host.blank l))
    pure .unit
  | k, ms => do
    let vs ← Run.all (Meaning.runs ms)
    c.op k ty vs

mutual

/-- The meaning of a tree. -/
noncomputable def den : HirExpr → Meaning (Run H P W (Value H))
  | .node ty flags kind children => ⟨c.sem ty flags kind (denAll children), shapeOf ty kind (denAll children)⟩
termination_by structural e => e

noncomputable def denAll : List HirExpr → List (Meaning (Run H P W (Value H)))
  | [] => []
  | e :: es => den e :: denAll es
termination_by structural es => es

end

theorem denAll_eq (es : List HirExpr) : c.denAll es = es.map c.den := by
  induction es with
  | nil => rfl
  | cons e es ih => rw [denAll, ih, List.map_cons]

theorem den_node (ty : Option Ty) (flags : HirFlags) (kind : HirKind) (children : List HirExpr) :
    c.den (.node ty flags kind children) =
      ⟨c.sem ty flags kind (children.map c.den), shapeOf ty kind (children.map c.den)⟩ := by
  rw [den, denAll_eq]

/-- A tree's run. -/
noncomputable def eval (e : HirExpr) : Run H P W (Value H) := (c.den e).run

end Ctx

/-- **What a body does** from the values of its locals: the value of its root, or what it returns. -/
noncomputable def HirBody.run (b : HirBody) (host : Host H P W) : State H W → Part (Except (Exit H P) (Value H) × State H W) :=
  match b.root with
  | some e => Ctx.eval ⟨host, b.locals⟩ e
  | none => fun s ↦ .some (.ok .unit, s)

end CoilLang.Hir
