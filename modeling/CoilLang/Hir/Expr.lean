import CoilLang.Common.IntArith
import CoilLang.Typechecking.Ty

/-!
# The typed tree

A function body of the high-level IR. The source keeps the nodes of a body in one vector and names
them by index; every node is the child of at most one other, so a body **is a tree**, and that is what is
modelled. A node is its type, its flags, a `HirKind`, which has everything but the children, and its
`children` in the order `lower::children` lists them. That order is the same for every kind, so a
traversal of the source is one recursion here.

What a kind may leave out is read off the number of children: the initial value of a `let`, the
`else` of an `if`, the value of a `return` and of a `resume`. Source positions and the link of a
node to its syntax are left out, and so are the layouts, which no pass modelled here changes.
-/

namespace CoilLang.Hir

/-- A parameter, `let`, pattern binding or capture of one body. -/
abbrev LocalId := ℕ

inductive Lit
  | int (n : Word)
  | float (bits : Word)
  | str (s : String)
  | bool (b : Bool)
  | unit
  deriving DecidableEq, Repr

inductive BinOp
  | intAdd | intSub | intMul | intDiv | intRem | intPow
  | floatAdd | floatSub | floatMul | floatDiv | floatRem | floatPow
  | shl | shr | bitAnd | bitOr | bitXor
  | strConcat
  | eq | ne | lt | le | gt | ge
  /-- An operator whose operand type is not a primitive lane. -/
  | overloaded (name : String)
  deriving DecidableEq, Repr

inductive UnOp
  | neg | bitNot | not
  deriving DecidableEq, Repr

inductive IndexKind
  | array | string | dict | tuple | other
  deriving DecidableEq, Repr

inductive Callee
  | named (name : String)
  /-- The receiver is the first argument. -/
  | method (name : String)
  /-- A function value, the first child of the call. -/
  | value
  | resolved (key : String) (plan : ℕ)
  deriving DecidableEq, Repr

inductive MakeKind
  /-- An enum variant; `fields` names the arguments of a record variant. -/
  | variant (enumName variant : String) (fields : Option (List String))
  | class (name : String)
  | tuple
  | array
  | record (fields : List String)
  | range (inclusive : Bool)
  deriving DecidableEq, Repr

inductive Builtin
  | panic | typeOf | dload | done | declare | invoke | default | print | retype
  | stringify (tag : Option ℕ)
  | relayout
  | freeEarly (deep : Bool)
  | cow (unique : Bool)
  | region (enter : Bool)
  deriving DecidableEq, Repr

/-- The protocol of a `for` loop. -/
inductive ForInKind
  | array
  | tuple (arity : ℕ)
  | coroutine
  | range (inclusive float : Bool)
  | custom (intoIter next : Option String)
  deriving DecidableEq, Repr

/-- A pattern; the fields of a variant are none, by position or by name. -/
inductive HirPat
  | wild
  | bind (l : LocalId)
  | int (n : Word)
  | variant (enumName variant : String)
  | variantTuple (enumName variant : String) (fields : List HirPat)
  | variantRecord (enumName variant : String) (fields : List (String × HirPat))
  | tuple (items : List HirPat)
  | record (fields : List (String × HirPat))

/-- What a node is, but for its children. -/
inductive HirKind
  | lit (l : Lit)
  | loc (l : LocalId)
  | global (name : String)
  /-- Of the base, the only child. -/
  | field (name : String)
  /-- The base and the index. -/
  | index (kind : IndexKind)
  | bin (op : BinOp)
  /-- Short-circuit `&&` or `||`. -/
  | logic (and : Bool)
  | un (op : UnOp)
  | cast
  | call (callee : Callee)
  | named (name : String)
  | spread
  | make (kind : MakeKind)
  /-- The statements; the last child is the tail when there is one. -/
  | block (tail : Bool)
  | letLocal (l : LocalId)
  | letPat (pat : HirPat)
  /-- The place and the value. -/
  | assign
  /-- `arr[] = v`: the base and the value. -/
  | append
  /-- The condition and one or two branches. -/
  | ite
  | loop
  /-- The iterable and the body. -/
  | forIn (pat : HirPat) (kind : Option ForInKind)
  | brk
  | cont
  | ret
  /-- The scrutinee and a body for each pattern. -/
  | matchOn (pats : List HirPat)
  /-- The body of another function of the module. -/
  | lambda (body : ℕ)
  | yield (delegate : Bool)
  | resume
  | defer (captures : List (Option LocalId))
  | builtin (op : Builtin)
  /-- Zero the words of these locals. -/
  | clear (ls : List LocalId)
  | unsupported (what : String)

/-- The flags of a node that a modelled pass reads. -/
structure HirFlags where
  /-- An assignment built from `x++` or `--x`: its value is the old or the new `x`. -/
  adjust : Bool := false
  /-- With `adjust`, the form whose value is the new `x`. -/
  prefixed : Bool := false
  /-- An assignment from `x op= e` or `x++`, whose place is also read. -/
  compound : Bool := false
  deriving DecidableEq, Repr

/-- A node with its children. -/
inductive HirExpr
  | node (ty : Option Ty) (flags : HirFlags) (kind : HirKind) (children : List HirExpr)

namespace HirExpr

def ty : HirExpr → Option Ty
  | node ty _ _ _ => ty

def flags : HirExpr → HirFlags
  | node _ flags _ _ => flags

def kind : HirExpr → HirKind
  | node _ _ kind _ => kind

def children : HirExpr → List HirExpr
  | node _ _ _ children => children

/-- Whether the node reads or is the place of the local. -/
def isLoc (e : HirExpr) (i : LocalId) : Bool :=
  match e.kind with
  | .loc l => l == i
  | _ => false

mutual

/-- The nodes of a tree, a node before its children. -/
def nodes : HirExpr → List HirExpr
  | node ty flags kind children => node ty flags kind children :: nodesOf children
termination_by structural e => e

def nodesOf : List HirExpr → List HirExpr
  | [] => []
  | e :: es => nodes e ++ nodesOf es
termination_by structural es => es

end

theorem isLoc_iff {e : HirExpr} {i : LocalId} : e.isLoc i = true ↔ e.kind = .loc i := by
  rw [isLoc]
  split
  · rename_i l h
    rw [h, beq_iff_eq, HirKind.loc.injEq]
  · rename_i h
    exact ⟨fun h ↦ absurd h Bool.false_ne_true, fun hi ↦ absurd hi (h i)⟩

mutual

/-- Induction over a tree: a property of all children passes to the node. -/
theorem induction {P : HirExpr → Prop}
    (h : ∀ ty flags kind children, (∀ e ∈ children, P e) → P (node ty flags kind children)) :
    ∀ e, P e
  | node ty flags kind children => h ty flags kind children (inductionOf h children)
termination_by structural e => e

theorem inductionOf {P : HirExpr → Prop}
    (h : ∀ ty flags kind children, (∀ e ∈ children, P e) → P (node ty flags kind children)) :
    ∀ es : List HirExpr, ∀ e ∈ es, P e
  | [] => fun _ he ↦ absurd he List.not_mem_nil
  | a :: as => fun e he ↦
    (List.mem_cons.mp he).elim (fun hea ↦ hea ▸ induction h a) (inductionOf h as e)
termination_by structural es => es

end

theorem mem_nodesOf {x : HirExpr} {es : List HirExpr} : x ∈ nodesOf es ↔ ∃ e ∈ es, x ∈ e.nodes := by
  induction es with
  | nil => simp [nodesOf]
  | cons e es ih => simp [nodesOf, ih]

theorem mem_nodes_self (e : HirExpr) : e ∈ e.nodes := by
  obtain ⟨ty, flags, kind, children⟩ := e
  exact List.mem_cons_self

theorem mem_nodes_of_child {x e : HirExpr} (hx : x ∈ e.children) : ∀ y ∈ x.nodes, y ∈ e.nodes := by
  obtain ⟨ty, flags, kind, children⟩ := e
  exact fun y hy ↦ List.mem_cons_of_mem _ (mem_nodesOf.mpr ⟨x, hx, hy⟩)

end HirExpr

structure HirLocal where
  ty : Option Ty := none
  /-- A lambda or `defer` of the body captures it. -/
  captured : Bool := false

/-- A local that is not there counts as captured. -/
def capturedIn (locals : List HirLocal) (l : LocalId) : Bool := (locals[l]?.map HirLocal.captured).getD true

/-- One function, method, lambda or test body. -/
structure HirBody where
  locals : List HirLocal
  root : Option HirExpr

namespace HirBody

def captured (b : HirBody) (l : LocalId) : Bool := capturedIn b.locals l

end HirBody

end CoilLang.Hir
