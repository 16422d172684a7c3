import Mathlib.Data.List.Basic

/-!
# Types of the checker

The monomorphic types of `typechecking/ty.rs` with the helpers unification uses: free variables,
peeling a constructor refinement, and the payloads of the builtin `Option` and `Result`.

A type nests through lists of types, named fields, variants and constraints, so every traversal is a
mutual recursion over these. There are three of them: equality (`Ty.beq`), free variables
(`Ty.ftv`), and replacing variables (`Ty.replace`, in `Subst`).
-/

namespace CoilLang

/-- A type variable. -/
abbrev TyVarId := ℕ

/-- Array length: compile-time constant or runtime-known. -/
inductive ArrayLength where
  | static (n : ℕ)
  | dynamic
deriving DecidableEq

mutual

/-- Monomorphic types. A constraint is its class and its arguments. -/
inductive Ty where
  | var (v : TyVarId)
  | con (name : String)
  | fn (a b : Ty)
  | app (head : Ty) (args : List Ty)
  | sum (name : String) (variants : List (String × EnumVariantPayloadTy))
  | constructor (owner : Ty) (tag : UInt32) (arity : ℕ)
  | tuple (items : List Ty)
  | array (element : Ty) (length : ArrayLength)
  | record (fields : List (String × Ty))
  | readonly (inner : Ty)
  | existential (cls : String)
  | forall (bounds : List TyVarId) (constraints : List (String × List Ty)) (body : Ty)
  | never

/-- Variant payload shape: unit, tuple, or record fields. -/
inductive EnumVariantPayloadTy where
  | unit
  | tuple (items : List Ty)
  | record (fields : List (String × Ty))

end

/-- A class with its type arguments. -/
abbrev Constraint := String × List Ty

/-! ### Equality -/

mutual

/-- Structural equality. -/
def Ty.beq : Ty → Ty → Bool
  | .var v, u => match u with | .var w => v == w | _ => false
  | .con a, u => match u with | .con b => a == b | _ => false
  | .fn a b, u => match u with | .fn c d => a.beq c && b.beq d | _ => false
  | .app c as, u => match u with | .app d bs => c.beq d && tysBeq as bs | _ => false
  | .sum m vs, u => match u with | .sum n ws => m == n && variantsBeq vs ws | _ => false
  | .constructor o t a, u =>
    match u with | .constructor p t' a' => o.beq p && (t == t' && a == a') | _ => false
  | .tuple ts, u => match u with | .tuple us => tysBeq ts us | _ => false
  | .array e l, u => match u with | .array f m => e.beq f && l == m | _ => false
  | .record fs, u => match u with | .record gs => fieldsBeq fs gs | _ => false
  | .readonly t, u => match u with | .readonly u => t.beq u | _ => false
  | .existential a, u => match u with | .existential b => a == b | _ => false
  | .forall bs cs t, u =>
    match u with
    | .forall ds es u => bs == ds && (constraintsBeq cs es && t.beq u)
    | _ => false
  | .never, u => match u with | .never => true | _ => false
termination_by structural t => t

def tysBeq : List Ty → List Ty → Bool
  | [], us => us.isEmpty
  | t :: ts, us => match us with | u :: us => t.beq u && tysBeq ts us | [] => false
termination_by structural t => t

def fieldsBeq : List (String × Ty) → List (String × Ty) → Bool
  | [], gs => gs.isEmpty
  | (m, t) :: fs, gs =>
    match gs with | (n, u) :: gs => m == n && (t.beq u && fieldsBeq fs gs) | [] => false
termination_by structural t => t

def EnumVariantPayloadTy.beq : EnumVariantPayloadTy → EnumVariantPayloadTy → Bool
  | .unit, q => match q with | .unit => true | _ => false
  | .tuple ts, q => match q with | .tuple us => tysBeq ts us | _ => false
  | .record fs, q => match q with | .record gs => fieldsBeq fs gs | _ => false
termination_by structural t => t

def variantsBeq :
    List (String × EnumVariantPayloadTy) → List (String × EnumVariantPayloadTy) → Bool
  | [], ws => ws.isEmpty
  | (m, p) :: vs, ws =>
    match ws with | (n, q) :: ws => m == n && (p.beq q && variantsBeq vs ws) | [] => false
termination_by structural t => t

def constraintsBeq : List Constraint → List Constraint → Bool
  | [], ds => ds.isEmpty
  | (m, ts) :: cs, ds =>
    match ds with | (n, us) :: ds => m == n && (tysBeq ts us && constraintsBeq cs ds) | [] => false
termination_by structural t => t

end

mutual

theorem Ty.beq_iff : ∀ t u : Ty, t.beq u = true ↔ t = u
  | .var v, u => by
    cases u with
    | var w => rw [Ty.beq, beq_iff_eq, Ty.var.injEq]
    | _ => exact iff_of_false Bool.false_ne_true nofun
  | .con a, u => by
    cases u with
    | con b => rw [Ty.beq, beq_iff_eq, Ty.con.injEq]
    | _ => exact iff_of_false Bool.false_ne_true nofun
  | .fn a b, u => by
    cases u with
    | fn c d => rw [Ty.beq, Bool.and_eq_true, Ty.beq_iff a, Ty.beq_iff b, Ty.fn.injEq]
    | _ => exact iff_of_false Bool.false_ne_true nofun
  | .app c as, u => by
    cases u with
    | app d bs => rw [Ty.beq, Bool.and_eq_true, Ty.beq_iff c, tysBeq_iff as, Ty.app.injEq]
    | _ => exact iff_of_false Bool.false_ne_true nofun
  | .sum m vs, u => by
    cases u with
    | sum n ws => rw [Ty.beq, Bool.and_eq_true, beq_iff_eq, variantsBeq_iff vs, Ty.sum.injEq]
    | _ => exact iff_of_false Bool.false_ne_true nofun
  | .constructor o t a, u => by
    cases u with
    | constructor p t' a' =>
      rw [Ty.beq, Bool.and_eq_true, Bool.and_eq_true, Ty.beq_iff o, beq_iff_eq, beq_iff_eq,
        Ty.constructor.injEq]
    | _ => exact iff_of_false Bool.false_ne_true nofun
  | .tuple ts, u => by
    cases u with
    | tuple us => rw [Ty.beq, tysBeq_iff ts, Ty.tuple.injEq]
    | _ => exact iff_of_false Bool.false_ne_true nofun
  | .array e l, u => by
    cases u with
    | array f m => rw [Ty.beq, Bool.and_eq_true, Ty.beq_iff e, beq_iff_eq, Ty.array.injEq]
    | _ => exact iff_of_false Bool.false_ne_true nofun
  | .record fs, u => by
    cases u with
    | record gs => rw [Ty.beq, fieldsBeq_iff fs, Ty.record.injEq]
    | _ => exact iff_of_false Bool.false_ne_true nofun
  | .readonly t, u => by
    cases u with
    | readonly u => rw [Ty.beq, Ty.beq_iff t, Ty.readonly.injEq]
    | _ => exact iff_of_false Bool.false_ne_true nofun
  | .existential a, u => by
    cases u with
    | existential b => rw [Ty.beq, beq_iff_eq, Ty.existential.injEq]
    | _ => exact iff_of_false Bool.false_ne_true nofun
  | .forall bs cs t, u => by
    cases u with
    | «forall» ds es u =>
      rw [Ty.beq, Bool.and_eq_true, Bool.and_eq_true, beq_iff_eq, constraintsBeq_iff cs,
        Ty.beq_iff t, Ty.forall.injEq]
    | _ => exact iff_of_false Bool.false_ne_true nofun
  | .never, u => by
    cases u with
    | never => exact iff_of_true (by rw [Ty.beq]) rfl
    | _ => exact iff_of_false Bool.false_ne_true nofun
termination_by structural t => t

theorem tysBeq_iff : ∀ ts us : List Ty, tysBeq ts us = true ↔ ts = us
  | [], us => by rw [tysBeq, List.isEmpty_iff, eq_comm]
  | t :: ts, us => by
    cases us with
    | nil => exact iff_of_false Bool.false_ne_true nofun
    | cons u us => rw [tysBeq, Bool.and_eq_true, Ty.beq_iff t, tysBeq_iff ts, List.cons.injEq]
termination_by structural t => t

theorem fieldsBeq_iff : ∀ fs gs : List (String × Ty), fieldsBeq fs gs = true ↔ fs = gs
  | [], gs => by rw [fieldsBeq, List.isEmpty_iff, eq_comm]
  | (m, t) :: fs, gs => by
    rcases gs with - | ⟨⟨n, u⟩, gs⟩
    · exact iff_of_false Bool.false_ne_true nofun
    · rw [fieldsBeq, Bool.and_eq_true, Bool.and_eq_true, beq_iff_eq, Ty.beq_iff t, fieldsBeq_iff fs,
        List.cons.injEq, Prod.mk.injEq, and_assoc]
termination_by structural t => t

theorem EnumVariantPayloadTy.beq_iff : ∀ p q : EnumVariantPayloadTy, p.beq q = true ↔ p = q
  | .unit, q => by
    cases q with
    | unit => exact iff_of_true (by rw [EnumVariantPayloadTy.beq]) rfl
    | _ => exact iff_of_false Bool.false_ne_true nofun
  | .tuple ts, q => by
    cases q with
    | tuple us => rw [EnumVariantPayloadTy.beq, tysBeq_iff ts, EnumVariantPayloadTy.tuple.injEq]
    | _ => exact iff_of_false Bool.false_ne_true nofun
  | .record fs, q => by
    cases q with
    | record gs => rw [EnumVariantPayloadTy.beq, fieldsBeq_iff fs, EnumVariantPayloadTy.record.injEq]
    | _ => exact iff_of_false Bool.false_ne_true nofun
termination_by structural t => t

theorem variantsBeq_iff :
    ∀ vs ws : List (String × EnumVariantPayloadTy), variantsBeq vs ws = true ↔ vs = ws
  | [], ws => by rw [variantsBeq, List.isEmpty_iff, eq_comm]
  | (m, p) :: vs, ws => by
    rcases ws with - | ⟨⟨n, q⟩, ws⟩
    · exact iff_of_false Bool.false_ne_true nofun
    · rw [variantsBeq, Bool.and_eq_true, Bool.and_eq_true, beq_iff_eq, EnumVariantPayloadTy.beq_iff p,
        variantsBeq_iff vs, List.cons.injEq, Prod.mk.injEq, and_assoc]
termination_by structural t => t

theorem constraintsBeq_iff : ∀ cs ds : List Constraint, constraintsBeq cs ds = true ↔ cs = ds
  | [], ds => by rw [constraintsBeq, List.isEmpty_iff, eq_comm]
  | (m, ts) :: cs, ds => by
    rcases ds with - | ⟨⟨n, us⟩, ds⟩
    · exact iff_of_false Bool.false_ne_true nofun
    · rw [constraintsBeq, Bool.and_eq_true, Bool.and_eq_true, beq_iff_eq, tysBeq_iff ts, constraintsBeq_iff cs,
        List.cons.injEq, Prod.mk.injEq, and_assoc]
termination_by structural t => t

end

instance : DecidableEq Ty := fun t u ↦ decidable_of_iff _ (Ty.beq_iff t u)

/-! ### Free variables -/

mutual

/-- Free type variables. A variable may be listed twice; the list is only searched. -/
def Ty.ftv : Ty → List TyVarId
  | .var v => [v]
  | .con _ | .existential _ | .never => []
  | .fn a b => a.ftv ++ b.ftv
  | .app h as => h.ftv ++ ftvTys as
  | .sum _ vs => ftvVariants vs
  | .constructor o _ _ => o.ftv
  | .tuple ts => ftvTys ts
  | .array e _ => e.ftv
  | .record fs => ftvFields fs
  | .readonly t => t.ftv
  | .forall bs cs t => (t.ftv ++ ftvConstraints cs).filter fun v ↦ !bs.contains v

def ftvTys : List Ty → List TyVarId
  | [] => []
  | t :: ts => t.ftv ++ ftvTys ts

def ftvFields : List (String × Ty) → List TyVarId
  | [] => []
  | (_, t) :: fs => t.ftv ++ ftvFields fs

def EnumVariantPayloadTy.ftv : EnumVariantPayloadTy → List TyVarId
  | .unit => []
  | .tuple ts => ftvTys ts
  | .record fs => ftvFields fs

def ftvVariants : List (String × EnumVariantPayloadTy) → List TyVarId
  | [] => []
  | (_, p) :: vs => p.ftv ++ ftvVariants vs

def ftvConstraints : List Constraint → List TyVarId
  | [] => []
  | (_, ts) :: cs => ftvTys ts ++ ftvConstraints cs

end

attribute [simp] Ty.ftv ftvTys ftvFields EnumVariantPayloadTy.ftv ftvVariants ftvConstraints

/-! ### Payloads and refinements -/

def EnumVariantPayloadTy.fieldTypes : EnumVariantPayloadTy → List Ty
  | .unit => []
  | .tuple ts => ts
  | .record fs => fs.map Prod.snd

def EnumVariantPayloadTy.fieldCount (p : EnumVariantPayloadTy) : ℕ :=
  p.fieldTypes.length

/-- `std::mem::discriminant` of two payloads agrees. -/
def EnumVariantPayloadTy.sameShape : EnumVariantPayloadTy → EnumVariantPayloadTy → Bool
  | .unit, .unit | .tuple _, .tuple _ | .record _, .record _ => true
  | _, _ => false

def builtinOptionEnum : String := "Option"

def builtinResultEnum : String := "Result"

/-- The polymorphic builtin sums. -/
def isPolyBuiltinEnum (name : String) : Bool :=
  name == builtinOptionEnum || name == builtinResultEnum

/-- A constructor refinement as its enum, by name where the enum is the user's. -/
def peelConstructorRefinement : Ty → Ty
  | .constructor owner _ _ => peelConstructorRefinement owner
  | .sum name variants => if !isPolyBuiltinEnum name then .con name else .sum name variants
  | other => other

def stripReadonly : Ty → Ty
  | .readonly inner => stripReadonly inner
  | other => other

/-- `T` of `Option<T>`, through a constructor refinement. -/
def optionInner : Ty → Option Ty
  | .app (.con name) args => if name = builtinOptionEnum then args.head? else none
  | .sum name variants =>
    if name = builtinOptionEnum then
      (variants.find? fun v ↦ v.1 == "Some").bind fun v ↦ v.2.fieldTypes.head?
    else none
  | .constructor owner _ _ => optionInner owner
  | _ => none

/-- The first payload of the last variant of that name. -/
def lastPayload (name : String) (variants : List (String × EnumVariantPayloadTy)) : Option Ty :=
  (variants.reverse.find? fun v ↦ v.1 == name).bind fun v ↦ v.2.fieldTypes.head?

/-- `(T, E)` of `Result<T, E>`, through a constructor refinement. -/
def resultOkErr : Ty → Option (Ty × Ty)
  | .app (.con name) args =>
    if name = builtinResultEnum then
      match args with
      | ok :: err :: _ => some (ok, err)
      | _ => none
    else none
  | .sum name variants =>
    if name = builtinResultEnum then
      match lastPayload "Ok" variants, lastPayload "Err" variants with
      | some ok, some err => some (ok, err)
      | _, _ => none
    else none
  | .constructor owner _ _ => resultOkErr owner
  | _ => none

end CoilLang
