import Mathlib.Data.List.Sort
import CoilLang.Typechecking.Subst

/-!
# Unification

`unify_with` of `typechecking/unify.rs`. Both sides are looked up once in the substitution, then the
arm of their heads decides: nothing to do, a variable to bind, types to unify in turn, or an error.
`unifyArms` gives each arm as the list of what it does, in order (a check an arm makes between two
recursive calls is a `fail` at its place), and `runGoals` carries such a list out.

The recursion is on fuel: after an alias chain a bound variable is met again as if it were free, and
then nothing bounds it.

A call is also a run of the machine `Step` on a substitution and the goals still to do. The two
agree on what a call returns (`steps_of_unifyWith`, `exists_fails_of_unifyWith`), and properties of
every binding a call makes are read off the machine.
-/

namespace CoilLang

/-- Failure modes for unification. -/
inductive UnifyError where
  /-- Two non-variable types that cannot be unified. -/
  | mismatch (left right : Ty)
  /-- `var` occurs in `ty`, so unifying would create an infinite type. -/
  | occurs (var : TyVarId) (ty : Ty)

/-- What an arm of `unify_with` does next. -/
inductive Goal where
  /-- Unify two types; an error of the call is replaced by `onErr` when given. -/
  | unify (t₁ t₂ : Ty) (onErr : Option UnifyError)
  | bind (v : TyVarId) (t : Ty)
  | fail (e : UnifyError)

/-- Unify lists pairwise. -/
def unifyZip (ts us : List Ty) : List Goal :=
  (ts.zip us).map fun p ↦ .unify p.1 p.2 none

/-! ### The arms -/

/-- Whether constraint `b`, its variables renamed, is `a`. -/
def constraintMatches (mapping : TyVarId → Option TyVarId) (a b : Constraint) : Bool :=
  a.1 == b.1 && a.2.length == b.2.length && a.2 == b.2.map (substituteVars mapping)

/-- Each constraint of the left takes the first one of the right that matches and is not taken. -/
def takeConstraints (mapping : TyVarId → Option TyVarId) : List Constraint → List Constraint → Bool
  | [], _ => true
  | a :: c₁, c₂ =>
    match c₂.findIdx? (constraintMatches mapping a) with
    | some i => takeConstraints mapping c₁ (c₂.eraseIdx i)
    | none => false

/-- Structural equality of `forall` constraints after renaming `c₂`'s bound variables. -/
def forallConstraintsEq (c₁ c₂ : List Constraint) (mapping : TyVarId → Option TyVarId) : Bool :=
  c₁.length == c₂.length && takeConstraints mapping c₁ c₂

/-- The variables of `b₂` to those of `b₁`; a variable listed twice keeps its last partner. -/
def boundsMapping (b₁ b₂ : List TyVarId) (v : TyVarId) : Option TyVarId :=
  (b₂.zip b₁).reverse.lookup v

def unitName : String := "unit"

def ArrayLength.compatible : ArrayLength → ArrayLength → Bool
  | .static n, .static m => n == m
  | _, _ => true

/-- One variant of a sum against the variant at its place: names, number of fields and shape must
agree before the fields are unified. -/
def unifyVariant (err : UnifyError) (a b : String × EnumVariantPayloadTy) : List Goal :=
  if a.1 ≠ b.1 then [.fail err]
  else if a.2.fieldCount ≠ b.2.fieldCount then [.fail err]
  else if !a.2.sameShape b.2 then [.fail err]
  else unifyZip a.2.fieldTypes b.2.fieldTypes

/-- Fields by name, stably. -/
def sortFields (fs : List (String × Ty)) : List (String × Ty) :=
  fs.insertionSort fun f g ↦ f.1 ≤ g.1

/-- `Option<T>` and `Result<T, E>`, or a variable applied to arguments, against a structural sum. -/
def unifyBuiltinAppSum (head : Ty) (args : List Ty) (sum : Ty) : Option (List Goal) :=
  let mismatch : UnifyError := .mismatch (.app head args) sum
  match head with
  | .con name =>
    if name = builtinOptionEnum then
      match args with
      | [arg] => (optionInner sum).map fun inner ↦ [.unify arg inner none]
      | _ => some [.fail mismatch]
    else if name = builtinResultEnum then
      match args with
      | [arg₀, arg₁] =>
        (resultOkErr sum).map fun oe ↦ [.unify arg₀ oe.1 none, .unify arg₁ oe.2 none]
      | _ => some [.fail mismatch]
    else none
  | .var v =>
    match optionInner sum with
    | some inner =>
      match args with
      | [arg] => some [.bind v (.con builtinOptionEnum), .unify arg inner none]
      | _ => some [.fail mismatch]
    | none =>
      (resultOkErr sum).map fun oe ↦
        match args with
        | [arg₀, arg₁] => [.bind v (.con builtinResultEnum), .unify arg₀ oe.1 none,
            .unify arg₁ oe.2 none]
        | _ => [.fail mismatch]
  | _ => none

def unifyAppSum (head : Ty) (args : List Ty) (sum : Ty) : List Goal :=
  (unifyBuiltinAppSum head args sum).getD [.fail (.mismatch (.app head args) sum)]

/-- A constructor refinement against a type by name: the name must be its owner's. -/
def unifyConConstructor (name : String) (owner ctor : Ty) : List Goal :=
  match owner with
  | .sum ownerName _ =>
    if ownerName = name then [.unify ctor owner none] else [.fail (.mismatch ctor (.con name))]
  | _ => [.fail (.mismatch ctor (.con name))]

/-- A constructor refinement against its parent sum: tag and arity must agree. -/
def unifyConstructorSum (owner : Ty) (tag : UInt32) (arity : ℕ) (name : String)
    (variants : List (String × EnumVariantPayloadTy)) : List Goal :=
  let err : UnifyError := .mismatch (.constructor owner tag arity) (.sum name variants)
  match variants[tag.toNat]? with
  | none => [.fail err]
  | some variant =>
    if variant.2.fieldCount ≠ arity then [.fail err] else [.unify owner (.sum name variants) none]

/-- A variable against `readonly t`: one type up to the qualifier when `t` is that variable. -/
def unifyVarReadonly (v : TyVarId) (inner : Ty) : List Goal :=
  if stripReadonly inner = .var v then [] else [.bind v (.readonly inner)]

/-- The arms of `unify_with`, on two types looked up in the substitution. -/
def unifyArms : Ty → Ty → List Goal
  -- two variables: the newer one is bound
  | .var a, .var b =>
    if a = b then [] else if a < b then [.bind b (.var a)] else [.bind a (.var b)]
  | .var v, .readonly inner => unifyVarReadonly v inner
  | .readonly inner, .var v => unifyVarReadonly v inner
  -- bottom is absorbed without binding
  | .never, _ => []
  | _, .never => []
  | .var v, t => [.bind v t]
  | t, .var v => [.bind v t]
  | .readonly a, .readonly b => [.unify a b none]
  | .readonly a, b => [.unify a b none]
  | a, .readonly b => [.unify a b none]
  | .con a, .con b => if a = b then [] else [.fail (.mismatch (.con a) (.con b))]
  -- `()` and `unit` are one type
  | .con u, .tuple items =>
    if u = unitName ∧ items = [] then [] else [.fail (.mismatch (.con u) (.tuple items))]
  | .tuple items, .con u =>
    if u = unitName ∧ items = [] then [] else [.fail (.mismatch (.tuple items) (.con u))]
  | .existential a, .existential b =>
    if a = b then [] else [.fail (.mismatch (.existential a) (.existential b))]
  | .con c, .sum name variants =>
    if c = name then [.unify (.sum name variants) (.sum name variants) none]
    else [.fail (.mismatch (.con c) (.sum name variants))]
  | .sum name variants, .con c =>
    if c = name then [.unify (.sum name variants) (.sum name variants) none]
    else [.fail (.mismatch (.sum name variants) (.con c))]
  | .con c, .constructor owner tag arity =>
    unifyConConstructor c owner (.constructor owner tag arity)
  | .constructor owner tag arity, .con c =>
    unifyConConstructor c owner (.constructor owner tag arity)
  | .fn a₁ b₁, .fn a₂ b₂ => [.unify a₁ a₂ none, .unify b₁ b₂ none]
  | .forall b₁ c₁ body₁, .forall b₂ c₂ body₂ =>
    let err : UnifyError := .mismatch (.forall b₁ c₁ body₁) (.forall b₂ c₂ body₂)
    if b₁.length ≠ b₂.length then [.fail err]
    else if !forallConstraintsEq c₁ c₂ (boundsMapping b₁ b₂) then [.fail err]
    else [.unify body₁ (substituteVars (boundsMapping b₁ b₂) body₂) none]
  | .app c₁ args₁, .app c₂ args₂ =>
    .unify c₁ c₂ none ::
      if args₁.length ≠ args₂.length then [.fail (.mismatch (.app c₁ args₁) (.app c₂ args₂))]
      else unifyZip args₁ args₂
  | .app head args, .sum name variants => unifyAppSum head args (.sum name variants)
  | .sum name variants, .app head args => unifyAppSum head args (.sum name variants)
  | .app head args, .constructor owner tag arity =>
    [.unify (.app head args) owner
      (some (.mismatch (.app head args) (.constructor owner tag arity)))]
  | .constructor owner tag arity, .app head args =>
    [.unify (.app head args) owner
      (some (.mismatch (.app head args) (.constructor owner tag arity)))]
  | .sum a av, .sum b bv =>
    let err : UnifyError := .mismatch (.sum a av) (.sum b bv)
    if a ≠ b then [.fail err]
    else if av.length ≠ bv.length then [.fail err]
    else (av.zip bv).flatMap fun p ↦ unifyVariant err p.1 p.2
  | .constructor owner tag arity, .sum name variants =>
    unifyConstructorSum owner tag arity name variants
  | .sum name variants, .constructor owner tag arity =>
    unifyConstructorSum owner tag arity name variants
  -- two refinements join at the owning enum
  | .constructor o₁ _ _, .constructor o₂ _ _ => [.unify o₁ o₂ none]
  | .tuple ts₁, .tuple ts₂ =>
    if ts₁.length ≠ ts₂.length then [.fail (.mismatch (.tuple ts₁) (.tuple ts₂))]
    else unifyZip ts₁ ts₂
  | .array e₁ l₁, .array e₂ l₂ =>
    if !l₁.compatible l₂ then [.fail (.mismatch (.array e₁ l₁) (.array e₂ l₂))]
    else [.unify e₁ e₂ none]
  | .record f₁, .record f₂ =>
    let err : UnifyError := .mismatch (.record f₁) (.record f₂)
    if f₁.length ≠ f₂.length then [.fail err]
    else if (sortFields f₁).map Prod.fst ≠ (sortFields f₂).map Prod.fst then [.fail err]
    else unifyZip ((sortFields f₁).map Prod.snd) ((sortFields f₂).map Prod.snd)
  | left, right => [.fail (.mismatch left right)]

/-! ### Binding and the recursion -/

/-- Bind `v` to `t` after the occurs check. The check reads `t` as it was looked up once; what is
inserted is looked up again. -/
def bindVar (s : Subst) (v : TyVarId) (t : Ty) : Except UnifyError Subst :=
  let ty := peelConstructorRefinement t
  if v ∈ ty.ftv then .error (.occurs v ty) else .ok (s.insert v (applyTy s ty))

/-- Carry out goals in order, up to the first error. -/
def runGoals (unify : Subst → Ty → Ty → Option (Except UnifyError Subst)) :
    Subst → List Goal → Option (Except UnifyError Subst)
  | s, [] => some (.ok s)
  | _, .fail e :: _ => some (.error e)
  | s, .bind v t :: gs =>
    match bindVar s v t with
    | .ok s' => runGoals unify s' gs
    | .error e => some (.error e)
  | s, .unify t₁ t₂ onErr :: gs =>
    match unify s t₁ t₂ with
    | some (.ok s') => runGoals unify s' gs
    | some (.error e) => some (.error (onErr.getD e))
    | none => none

/-- Unify two types under an existing substitution; `none` when the fuel runs out. -/
def unifyWith : ℕ → Subst → Ty → Ty → Option (Except UnifyError Subst)
  | 0, _, _, _ => none
  | fuel + 1, s, t₁, t₂ =>
    runGoals (unifyWith fuel) s (unifyArms (applyTy s t₁) (applyTy s t₂))

/-! ### A call as a run of bindings -/

/-- One step on a substitution and the goals still to do: replace a pair by its arm, or bind. -/
inductive Step : Subst × List Goal → Subst × List Goal → Prop where
  | unify (s t₁ t₂ e gs) :
    Step (s, .unify t₁ t₂ e :: gs) (s, unifyArms (applyTy s t₁) (applyTy s t₂) ++ gs)
  | bind {s v t s'} (gs) (h : bindVar s v t = .ok s') : Step (s, .bind v t :: gs) (s', gs)

/-- The goal that ends a run in an error. -/
def Goal.Fails (s : Subst) : Goal → Prop
  | .unify _ _ _ => False
  | .bind v t => ∃ e, bindVar s v t = .error e
  | .fail _ => True

/-- A state of the call `unify_with(s, t₁, t₂)`. -/
def Reached (s : Subst) (t₁ t₂ : Ty) (st : Subst × List Goal) : Prop :=
  Relation.ReflTransGen Step (s, [.unify t₁ t₂ none]) st

/-- Goals carried out with success are stepped through. -/
theorem steps_of_runGoals {unify : Subst → Ty → Ty → Option (Except UnifyError Subst)}
    (hunify : ∀ s t₁ t₂ s' e gs, unify s t₁ t₂ = some (.ok s') →
      Relation.ReflTransGen Step (s, .unify t₁ t₂ e :: gs) (s', gs))
    {gs : List Goal} {s s' : Subst} (h : runGoals unify s gs = some (.ok s')) (more : List Goal) :
    Relation.ReflTransGen Step (s, gs ++ more) (s', more) := by
  induction gs generalizing s with
  | nil =>
    obtain rfl : s = s' := by simpa [runGoals] using h
    exact Relation.ReflTransGen.refl
  | cons g gs ih =>
    cases g with
    | fail e => simp [runGoals] at h
    | bind v t =>
      rcases hb : bindVar s v t with e | s₁
      · simp [runGoals, hb] at h
      · simp only [runGoals, hb] at h
        exact (ih h).head (Step.bind _ hb)
    | unify t₁ t₂ e =>
      rcases hu : unify s t₁ t₂ with - | (e' | s₁)
      · simp [runGoals, hu] at h
      · simp [runGoals, hu] at h
      · simp only [runGoals, hu] at h
        exact (hunify s t₁ t₂ s₁ e _ hu).trans (ih h)

/-- **A call that returns a substitution is a run to it.** -/
theorem steps_of_unifyWith {fuel : ℕ} {s s' : Subst} {t₁ t₂ : Ty} (e : Option UnifyError)
    (gs : List Goal) (h : unifyWith fuel s t₁ t₂ = some (.ok s')) :
    Relation.ReflTransGen Step (s, .unify t₁ t₂ e :: gs) (s', gs) := by
  induction fuel generalizing s s' t₁ t₂ e gs with
  | zero => simp [unifyWith] at h
  | succ fuel ih =>
    rw [unifyWith] at h
    exact (steps_of_runGoals (fun s t₁ t₂ s' e gs h ↦ ih e gs h) h gs).head
      (Step.unify s t₁ t₂ e gs)

/-- Goals carried out with an error step to a goal that fails. -/
theorem exists_fails_of_runGoals {unify : Subst → Ty → Ty → Option (Except UnifyError Subst)}
    (hok : ∀ s t₁ t₂ s' e gs, unify s t₁ t₂ = some (.ok s') →
      Relation.ReflTransGen Step (s, .unify t₁ t₂ e :: gs) (s', gs))
    (herr : ∀ s t₁ t₂ err e gs, unify s t₁ t₂ = some (.error err) →
      ∃ s' g gs', Relation.ReflTransGen Step (s, .unify t₁ t₂ e :: gs) (s', g :: gs') ∧ g.Fails s')
    {gs : List Goal} {s : Subst} {err : UnifyError} (h : runGoals unify s gs = some (.error err))
    (more : List Goal) :
    ∃ s' g gs', Relation.ReflTransGen Step (s, gs ++ more) (s', g :: gs') ∧ g.Fails s' := by
  induction gs generalizing s with
  | nil => simp [runGoals] at h
  | cons g gs ih =>
    cases g with
    | fail e => exact ⟨s, .fail e, gs ++ more, Relation.ReflTransGen.refl, trivial⟩
    | bind v t =>
      rcases hb : bindVar s v t with e | s₁
      · exact ⟨s, .bind v t, gs ++ more, Relation.ReflTransGen.refl, e, hb⟩
      · simp only [runGoals, hb] at h
        obtain ⟨s', g, gs', hrun, hfail⟩ := ih h
        exact ⟨s', g, gs', hrun.head (Step.bind _ hb), hfail⟩
    | unify t₁ t₂ e =>
      rcases hu : unify s t₁ t₂ with - | (e' | s₁)
      · simp [runGoals, hu] at h
      · exact herr s t₁ t₂ e' e (gs ++ more) hu
      · simp only [runGoals, hu] at h
        obtain ⟨s', g, gs', hrun, hfail⟩ := ih h
        exact ⟨s', g, gs', (hok s t₁ t₂ s₁ e _ hu).trans hrun, hfail⟩

/-- **A call that returns an error is a run to a goal that fails.** -/
theorem exists_fails_of_unifyWith {fuel : ℕ} {s : Subst} {t₁ t₂ : Ty} {err : UnifyError}
    (e : Option UnifyError) (gs : List Goal) (h : unifyWith fuel s t₁ t₂ = some (.error err)) :
    ∃ s' g gs', Relation.ReflTransGen Step (s, .unify t₁ t₂ e :: gs) (s', g :: gs') ∧
      g.Fails s' := by
  induction fuel generalizing s t₁ t₂ err e gs with
  | zero => simp [unifyWith] at h
  | succ fuel ih =>
    rw [unifyWith] at h
    obtain ⟨s', g, gs', hrun, hfail⟩ := exists_fails_of_runGoals
      (fun _ _ _ _ e gs h ↦ steps_of_unifyWith e gs h) (fun _ _ _ _ e gs h ↦ ih e gs h) h gs
    exact ⟨s', g, gs', hrun.head (Step.unify s t₁ t₂ e gs), hfail⟩

end CoilLang
