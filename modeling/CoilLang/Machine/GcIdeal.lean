import CoilLang.Machine.Gc
import Mathlib.Logic.Function.Basic
import Mathlib.Logic.Relation

/-!
# A heap that never frees

What the collector implements: a heap with unbounded memory in which **objects are never freed**, references are
opaque and the only trace of a collection is that a weak handle may be cleared, or an interned string forgotten, when
nothing the program holds reaches it, and that a finalizer may start for an object nothing reaches.

A step is defined (`exec` gives a result) for programs that keep to what the compiler promises: an operand is an
object where one is expected, a word of scalar kind holds no reference, the keys of a table are strings, and a write
that does not note an array for scanning brings no new reference into it.
-/

namespace CoilLang.Gc

open Machine.Snapshot (WordKind)

/-- A word: an immediate, or a reference with the bit of an error value. -/
inductive IWord
  | imm (n : ℕ)
  | ref (id : ℕ) (err : Bool)
  deriving DecidableEq, Repr

def IWord.isRef : IWord → Bool
  | .imm _ => false
  | .ref .. => true

structure Ideal where
  objs : ℕ → Option (Object IWord) := fun _ ↦ none
  next : ℕ := 0
  roots : List IWord := []
  interned : List ℕ := []
  immortals : List (Immortal × ℕ) := []
  finalizerTypes : List ℕ := []
  /-- Objects whose finalizers are about to run. -/
  queue : List ℕ := []
  classKinds : ℕ → List WordKind

namespace Ideal

def word (A : Ideal) (i : ℕ) : IWord := A.roots.getD i (.imm 0)

def push (A : Ideal) (w : IWord) : Ideal := { A with roots := A.roots ++ [w] }

def isString (A : Ideal) : IWord → Bool
  | .imm _ => false
  | .ref id _ => match A.objs id with
    | some (.string _) => true
    | _ => false

/-- References are where marking looks for them, and keys are strings. -/
def wellKinded (A : Ideal) (o : Object IWord) : Bool :=
  (o.words.all fun w ↦ !w.isRef || w ∈ (o.scan A.classKinds true).map Prod.snd) &&
    (o.scan A.classKinds true).all fun i ↦ i.1 || A.isString i.2

/-- Objects whose payload a program may write. -/
def isMutable : Object IWord → Bool
  | .string _ => false
  | .weak .. => false
  | _ => true

/-- `new` may be written over `old`. -/
def writable (A : Ideal) (old new : Object IWord) (note : Bool) : Bool :=
  old.kind = new.kind && isMutable old && isMutable new && new.typeId? = old.typeId? &&
    new.isFinalized = old.isFinalized && A.wellKinded new &&
    (note || new.words.all fun w ↦ !w.isRef || w ∈ old.words)

def setObj (A : Ideal) (id : ℕ) (o : Object IWord) : Ideal := { A with objs := Function.update A.objs id (some o) }

def create (A : Ideal) (o : Object IWord) : Ideal :=
  { A with objs := Function.update A.objs A.next (some o), next := A.next + 1 }

/-- A new object, which the program holds. -/
def alloc (A : Ideal) (o : Object IWord) : Ideal := (A.create o).push (.ref A.next false)

def findString (A : Ideal) (s : String) : Option ℕ := A.interned.find? fun id ↦ A.objs id = some (.string s)

/-- One step of a program; `none` when the program breaks a promise. -/
def exec (A : Ideal) : Instr → Option (Obs × Ideal)
  | .imm n => some (.silent, A.push (.imm n))
  | .select places => some (.silent, { A with roots := places.map A.word })
  | .int i =>
    match A.word i with
    | .imm n => some (.int n, A)
    | .ref .. => none
  | .same i j => if (A.word i).isRef = (A.word j).isRef then some (.bool (A.word i = A.word j), A) else none
  | .look i =>
    match A.word i with
    | .imm _ => none
    | .ref id _ => (A.objs id).map fun o ↦ (.shape (o.map fun _ ↦ ()), A)
  | .load i k =>
    match A.word i with
    | .imm _ => none
    | .ref id _ => ((A.objs id).bind (·.words[k]?)).map fun w ↦ (.silent, A.push w)
  | .store i payload note =>
    match A.word i with
    | .imm _ => none
    | .ref id _ => (A.objs id).bind fun old ↦
      let new := payload.map (Sum.elim A.word fun k ↦ old.words.getD k (.imm 0))
      if A.writable old new note then some (.silent, A.setObj id new) else none
  | .tagEnum i typeId =>
    match A.word i with
    | .ref id false => (A.objs id).map fun old ↦ (.silent, ((old.tagEnum typeId).map (A.setObj id)).getD A)
    | _ => none
  | .alloc payload mayHoldRefs =>
    let o := payload.map A.word
    if A.wellKinded o && (mayHoldRefs || o.words.all (!·.isRef)) then some (.silent, A.alloc o) else none
  | .immortal key =>
    match A.immortals.lookup key with
    | some id => some (.silent, A.push (.ref id false))
    | none => some (.silent, { A.alloc key.obj with immortals := (key, A.next) :: A.immortals })
  | .intern s =>
    match A.findString s with
    | some id => some (.silent, A.push (.ref id false))
    | none => some (.silent, { A.alloc (.string s) with interned := A.next :: A.interned })
  | .internRef i =>
    match A.word i with
    | .ref id false =>
      match A.objs id with
      | some (.string s) =>
        match A.findString s with
        | some id' => some (.silent, A.push (.ref id' false))
        | none => some (.silent, { A with interned := id :: A.interned }.push (.ref id false))
      | _ => none
    | _ => none
  | .upgrade i =>
    match A.word i with
    | .ref id false =>
      match A.objs id with
      | some (.weak target cleared) => if cleared then some (.bool false, A) else some (.bool true, A.push target)
      | _ => none
    | _ => none
  | .register typeId => some (.silent, if typeId = 0 ∨ typeId ∈ A.finalizerTypes then A
      else { A with finalizerTypes := typeId :: A.finalizerTypes })

/-! ### What a collection may do -/

/-- `id` refers to `id'`; a weak handle does not refer to its target. -/
def Child (A : Ideal) (id id' : ℕ) : Prop := ∃ o err, A.objs id = some o ∧ .ref id' err ∈ o.words

def WeakChild (A : Ideal) (id id' : ℕ) : Prop := ∃ err, A.objs id = some (.weak (.ref id' err) false)

/-- Held by the program, or immortal, or about to be finalized. -/
def Strong (A : Ideal) (id : ℕ) : Prop :=
  (∃ err, .ref id err ∈ A.roots) ∨ (∃ key, (key, id) ∈ A.immortals) ∨ id ∈ A.queue

def Reachable (A : Ideal) (id : ℕ) : Prop := ∃ r, A.Strong r ∧ Relation.ReflTransGen A.Child r id

/-- The weak handles `dead` are cleared, and of the interned strings only `kept` stay. -/
def reclaim (A : Ideal) (dead kept : ℕ → Bool) : Ideal :=
  { A with
    objs := fun id ↦ if dead id then some (.weak (.imm 0) true) else A.objs id
    interned := A.interned.filter kept }

/-- What the program may notice of a collection: uncleared handles to what is not reachable are cleared, strings that
are not reachable are forgotten, finalizers of unreachable objects are queued, and a finalizer starts, unless the
`drop` ran already. -/
inductive Collects (A : Ideal) : List Obs → Ideal → Prop
  | quiet : Collects A [] A
  | reclaim (dead kept : ℕ → Bool)
    (hdead : ∀ id, dead id = true → ∃ target, A.objs id = some (.weak target false) ∧
      ∀ id' err, target = .ref id' err → ¬ A.Reachable id')
    (hkept : ∀ id ∈ A.interned, kept id = false → ¬ A.Reachable id) : Collects A [] (A.reclaim dead kept)
  | enqueue (queue : List ℕ) (hempty : A.queue = [])
    (hqueue : ∀ id ∈ queue, ¬ A.Reachable id ∧ ∃ o, A.objs id = some o ∧ o.pending A.finalizerTypes = true) :
    Collects A [] { A with queue }
  | finalize (id : ℕ) (queue : List ℕ) (o o' : Object IWord) (hqueue : A.queue = id :: queue)
    (ho : A.objs id = some o) (hclaim : o.claim = some o') :
    Collects A [.bool true] (({ A with queue }.setObj id o').push (.ref id false))
  | skip (id : ℕ) (queue : List ℕ) (o : Object IWord) (hqueue : A.queue = id :: queue) (ho : A.objs id = some o)
    (hclaim : o.claim = none) : Collects A [.bool false] { A with queue }

/-- What a program has seen so far decides its next step. -/
abbrev Program := List Obs → Instr

/-- The runs of a program: collections happen at any time. -/
inductive Run (classKinds : ℕ → List WordKind) (P : Program) : List Obs → Ideal → Prop
  | start : Run classKinds P [] { classKinds }
  | exec {seen : List Obs} {A A' : Ideal} {o : Obs} (hrun : Run classKinds P seen A)
    (hstep : A.exec (P seen) = some (o, A')) : Run classKinds P (seen ++ [o]) A'
  | gc {seen more : List Obs} {A A' : Ideal} (hrun : Run classKinds P seen A) (hstep : A.Collects more A') :
    Run classKinds P (seen ++ more) A'

/-- The program never breaks a promise. -/
def Safe (classKinds : ℕ → List WordKind) (P : Program) : Prop :=
  ∀ seen A, Run classKinds P seen A → (A.exec (P seen)).isSome = true

end Ideal

/-! ### Runs of the machine -/

namespace Vm

/-- The step is answered by an interned string that the open mark has not reached. -/
def StaleIntern (V : Vm) : Instr → Prop
  | .intern s => V.heap.phase = .marking ∧ ∃ a, V.heap.findString s = some a ∧ V.heap.isMarked a = false
  | .internRef i => V.heap.phase = .marking ∧ ∃ s a, (V.heap.find (V.word i)).map Cell.obj = some (.string s) ∧
    V.heap.findString s = some a ∧ V.heap.isMarked a = false
  | _ => False

/-- The runs of a program on the heap, with the steps of the collector anywhere between its own, in which no lookup in
the intern table is answered by a string that the open mark has not reached. -/
inductive Run (env : Env) (classKinds : ℕ → List WordKind) (P : Ideal.Program) : List Obs → Vm → Prop
  | start : Run env classKinds P [] { heap := { classKinds } }
  | exec {seen : List Obs} {V V' : Vm} {o : Obs} (hrun : Run env classKinds P seen V)
    (hstep : V.exec env (P seen) = some (o, V')) (hfresh : ¬ V.StaleIntern (P seen)) :
    Run env classKinds P (seen ++ [o]) V'
  | gc {seen more : List Obs} {V V' : Vm} {g : GcStep} (hrun : Run env classKinds P seen V)
    (hstep : V.gc env g = some (more, V')) : Run env classKinds P (seen ++ more) V'

end Vm

end CoilLang.Gc
