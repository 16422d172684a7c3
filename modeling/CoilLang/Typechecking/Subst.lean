import Mathlib.Logic.Function.Iterate
import CoilLang.Lib.Acyclic
import CoilLang.Typechecking.Ty

/-!
# Substitutions

The substitutions of `typechecking/subst.rs`. `applyTy` looks a variable up **once**, so a
substitution whose bindings mention bound variables (an *alias chain*) takes several rounds to
resolve a type; `applyTyPrune` goes round until nothing changes.

The source keeps an index, a copy-on-write overlay and a list of stale positions for speed. None of
it is visible through `get` and `insert`, so a substitution here is the list of its bindings, a
binding overwritten in place.

What decides whether `applyTyPrune` comes to an end is the graph of the bindings: an edge from a
bound variable to each free variable of its type. `Acyclic` says that no variable reaches itself
along it, and then every type is resolved in as many rounds as there are bindings, plus one
(`applyTy_iterate_fixed`).
-/

namespace CoilLang

/-! ### Replacing variables -/

mutual

/-- Replace the free variables that `f` maps. Under `forall` the bound variables are taken out of
`f`; a free variable of a replacement may be captured there, as in the source. -/
def Ty.replace (f : TyVarId → Option Ty) : Ty → Ty
  | .var v => (f v).getD (.var v)
  | .con a => .con a
  | .existential a => .existential a
  | .never => .never
  | .fn a b => .fn (a.replace f) (b.replace f)
  | .app h as => .app (h.replace f) (replaceTys f as)
  | .sum n vs => .sum n (replaceVariants f vs)
  | .constructor o t a => .constructor (o.replace f) t a
  | .tuple ts => .tuple (replaceTys f ts)
  | .array e l => .array (e.replace f) l
  | .record fs => .record (replaceFields f fs)
  | .readonly t => .readonly (t.replace f)
  | .forall bs cs t =>
    .forall bs (replaceConstraints (fun v ↦ if v ∈ bs then none else f v) cs)
      (t.replace fun v ↦ if v ∈ bs then none else f v)

def replaceTys (f : TyVarId → Option Ty) : List Ty → List Ty
  | [] => []
  | t :: ts => t.replace f :: replaceTys f ts

def replaceFields (f : TyVarId → Option Ty) : List (String × Ty) → List (String × Ty)
  | [] => []
  | (n, t) :: fs => (n, t.replace f) :: replaceFields f fs

def EnumVariantPayloadTy.replace (f : TyVarId → Option Ty) :
    EnumVariantPayloadTy → EnumVariantPayloadTy
  | .unit => .unit
  | .tuple ts => .tuple (replaceTys f ts)
  | .record fs => .record (replaceFields f fs)

def replaceVariants (f : TyVarId → Option Ty) :
    List (String × EnumVariantPayloadTy) → List (String × EnumVariantPayloadTy)
  | [] => []
  | (n, p) :: vs => (n, p.replace f) :: replaceVariants f vs

def replaceConstraints (f : TyVarId → Option Ty) : List Constraint → List Constraint
  | [] => []
  | (c, ts) :: cs => (c, replaceTys f ts) :: replaceConstraints f cs

end

attribute [simp] Ty.replace replaceTys replaceFields EnumVariantPayloadTy.replace replaceVariants
  replaceConstraints

/-- Rename variables (`substitute_vars` of `typechecking/env.rs`). -/
def substituteVars (mapping : TyVarId → Option TyVarId) (t : Ty) : Ty :=
  t.replace fun v ↦ (mapping v).map .var

/-- A variable of `t`, or of what replaces a variable of `t`. -/
def ReplacedFrom (f : TyVarId → Option Ty) (vs : List TyVarId) (w : TyVarId) : Prop :=
  ∃ v ∈ vs, w ∈ ((f v).getD (.var v)).ftv

theorem ReplacedFrom.append_left {f : TyVarId → Option Ty} {vs ws : List TyVarId} {w : TyVarId}
    (h : ReplacedFrom f vs w) : ReplacedFrom f (vs ++ ws) w :=
  h.imp fun _ hv ↦ ⟨List.mem_append_left _ hv.1, hv.2⟩

theorem ReplacedFrom.append_right {f : TyVarId → Option Ty} {vs ws : List TyVarId} {w : TyVarId}
    (h : ReplacedFrom f ws w) : ReplacedFrom f (vs ++ ws) w :=
  h.imp fun _ hv ↦ ⟨List.mem_append_right _ hv.1, hv.2⟩

/-- Under a binder: what is left after taking the bound variables away comes from variables that
are not bound there. -/
theorem ReplacedFrom.of_forall {f : TyVarId → Option Ty} {bs vs : List TyVarId} {w : TyVarId}
    (hw : w ∉ bs) (h : ReplacedFrom (fun v ↦ if v ∈ bs then none else f v) vs w) :
    ReplacedFrom f (vs.filter fun v ↦ !bs.contains v) w := by
  obtain ⟨v, hv, hmem⟩ := h
  by_cases hb : v ∈ bs
  · simp only [hb, if_true, Option.getD_none, Ty.ftv, List.mem_singleton] at hmem
    exact absurd hb (hmem ▸ hw)
  · simp only [hb, if_false] at hmem
    exact ⟨v, List.mem_filter.2 ⟨hv, by simpa using hb⟩, hmem⟩

mutual

/-- The free variables of a replaced type come from its variables. -/
theorem Ty.replacedFrom_of_mem (f : TyVarId → Option Ty) {w : TyVarId} :
    ∀ t : Ty, w ∈ (t.replace f).ftv → ReplacedFrom f t.ftv w
  | .var v, h => ⟨v, by simp, h⟩
  | .con _, h => by simp at h
  | .existential _, h => by simp at h
  | .never, h => by simp at h
  | .fn a b, h => by
    rcases List.mem_append.1 h with h | h
    · exact (Ty.replacedFrom_of_mem f a h).append_left
    · exact (Ty.replacedFrom_of_mem f b h).append_right
  | .app c as, h => by
    rcases List.mem_append.1 h with h | h
    · exact (Ty.replacedFrom_of_mem f c h).append_left
    · exact (replacedFrom_of_mem_tys f as h).append_right
  | .sum _ vs, h => replacedFrom_of_mem_variants f vs h
  | .constructor o _ _, h => Ty.replacedFrom_of_mem f o h
  | .tuple ts, h => replacedFrom_of_mem_tys f ts h
  | .array e _, h => Ty.replacedFrom_of_mem f e h
  | .record fs, h => replacedFrom_of_mem_fields f fs h
  | .readonly t, h => Ty.replacedFrom_of_mem f t h
  | .forall bs cs t, h => by
    obtain ⟨h, hw⟩ := List.mem_filter.1 h
    refine ReplacedFrom.of_forall (by simpa using hw) ?_
    rcases List.mem_append.1 h with h | h
    · exact (Ty.replacedFrom_of_mem _ t h).append_left
    · exact (replacedFrom_of_mem_constraints _ cs h).append_right

theorem replacedFrom_of_mem_tys (f : TyVarId → Option Ty) {w : TyVarId} :
    ∀ ts : List Ty, w ∈ ftvTys (replaceTys f ts) → ReplacedFrom f (ftvTys ts) w
  | [], h => by simp at h
  | t :: ts, h => by
    rcases List.mem_append.1 h with h | h
    · exact (Ty.replacedFrom_of_mem f t h).append_left
    · exact (replacedFrom_of_mem_tys f ts h).append_right

theorem replacedFrom_of_mem_fields (f : TyVarId → Option Ty) {w : TyVarId} :
    ∀ fs : List (String × Ty), w ∈ ftvFields (replaceFields f fs) → ReplacedFrom f (ftvFields fs) w
  | [], h => by simp at h
  | (_, t) :: fs, h => by
    rcases List.mem_append.1 h with h | h
    · exact (Ty.replacedFrom_of_mem f t h).append_left
    · exact (replacedFrom_of_mem_fields f fs h).append_right

theorem EnumVariantPayloadTy.replacedFrom_of_mem (f : TyVarId → Option Ty) {w : TyVarId} :
    ∀ p : EnumVariantPayloadTy, w ∈ (p.replace f).ftv → ReplacedFrom f p.ftv w
  | .unit, h => by simp at h
  | .tuple ts, h => replacedFrom_of_mem_tys f ts h
  | .record fs, h => replacedFrom_of_mem_fields f fs h

theorem replacedFrom_of_mem_variants (f : TyVarId → Option Ty) {w : TyVarId} :
    ∀ vs : List (String × EnumVariantPayloadTy),
      w ∈ ftvVariants (replaceVariants f vs) → ReplacedFrom f (ftvVariants vs) w
  | [], h => by simp at h
  | (_, p) :: vs, h => by
    rcases List.mem_append.1 h with h | h
    · exact (EnumVariantPayloadTy.replacedFrom_of_mem f p h).append_left
    · exact (replacedFrom_of_mem_variants f vs h).append_right

theorem replacedFrom_of_mem_constraints (f : TyVarId → Option Ty) {w : TyVarId} :
    ∀ cs : List Constraint,
      w ∈ ftvConstraints (replaceConstraints f cs) → ReplacedFrom f (ftvConstraints cs) w
  | [], h => by simp at h
  | (_, ts) :: cs, h => by
    rcases List.mem_append.1 h with h | h
    · exact (replacedFrom_of_mem_tys f ts h).append_left
    · exact (replacedFrom_of_mem_constraints f cs h).append_right

end

/-- `f` leaves every variable of the list alone. -/
def Fixes (f : TyVarId → Option Ty) (vs : List TyVarId) : Prop :=
  ∀ v ∈ vs, (f v).getD (.var v) = .var v

theorem fixes_append {f : TyVarId → Option Ty} {vs ws : List TyVarId} :
    Fixes f (vs ++ ws) ↔ Fixes f vs ∧ Fixes f ws := by
  simp only [Fixes, List.mem_append, or_imp, forall_and]

theorem Fixes.of_forall {f : TyVarId → Option Ty} {bs vs : List TyVarId}
    (h : Fixes f (vs.filter fun v ↦ !bs.contains v)) :
    Fixes (fun v ↦ if v ∈ bs then none else f v) vs := by
  intro v hv
  by_cases hb : v ∈ bs
  · simp [hb]
  · simp only [hb, if_false]
    exact h v (List.mem_filter.2 ⟨hv, by simpa using hb⟩)

mutual

theorem Ty.replace_of_fixes {f : TyVarId → Option Ty} :
    ∀ t : Ty, Fixes f t.ftv → t.replace f = t
  | .var v, h => h v (by simp)
  | .con _, _ => by simp
  | .existential _, _ => by simp
  | .never, _ => by simp
  | .fn a b, h => by
    obtain ⟨ha, hb⟩ := fixes_append.1 h
    simp [Ty.replace_of_fixes a ha, Ty.replace_of_fixes b hb]
  | .app c as, h => by
    obtain ⟨hc, has⟩ := fixes_append.1 h
    simp [Ty.replace_of_fixes c hc, replaceTys_of_fixes as has]
  | .sum _ vs, h => by simp [replaceVariants_of_fixes vs h]
  | .constructor o _ _, h => by simp [Ty.replace_of_fixes o h]
  | .tuple ts, h => by simp [replaceTys_of_fixes ts h]
  | .array e _, h => by simp [Ty.replace_of_fixes e h]
  | .record fs, h => by simp [replaceFields_of_fixes fs h]
  | .readonly t, h => by simp [Ty.replace_of_fixes t h]
  | .forall bs cs t, h => by
    obtain ⟨ht, hcs⟩ := fixes_append.1 (Fixes.of_forall h)
    simp only [Ty.replace, Ty.replace_of_fixes t ht, replaceConstraints_of_fixes cs hcs]

theorem replaceTys_of_fixes {f : TyVarId → Option Ty} :
    ∀ ts : List Ty, Fixes f (ftvTys ts) → replaceTys f ts = ts
  | [], _ => by simp
  | t :: ts, h => by
    obtain ⟨ht, hts⟩ := fixes_append.1 h
    simp [Ty.replace_of_fixes t ht, replaceTys_of_fixes ts hts]

theorem replaceFields_of_fixes {f : TyVarId → Option Ty} :
    ∀ fs : List (String × Ty), Fixes f (ftvFields fs) → replaceFields f fs = fs
  | [], _ => by simp
  | (_, t) :: fs, h => by
    obtain ⟨ht, hfs⟩ := fixes_append.1 h
    simp [Ty.replace_of_fixes t ht, replaceFields_of_fixes fs hfs]

theorem EnumVariantPayloadTy.replace_of_fixes {f : TyVarId → Option Ty} :
    ∀ p : EnumVariantPayloadTy, Fixes f p.ftv → p.replace f = p
  | .unit, _ => by simp
  | .tuple ts, h => by simp [replaceTys_of_fixes ts h]
  | .record fs, h => by simp [replaceFields_of_fixes fs h]

theorem replaceVariants_of_fixes {f : TyVarId → Option Ty} :
    ∀ vs : List (String × EnumVariantPayloadTy),
      Fixes f (ftvVariants vs) → replaceVariants f vs = vs
  | [], _ => by simp
  | (_, p) :: vs, h => by
    obtain ⟨hp, hvs⟩ := fixes_append.1 h
    simp [EnumVariantPayloadTy.replace_of_fixes p hp, replaceVariants_of_fixes vs hvs]

theorem replaceConstraints_of_fixes {f : TyVarId → Option Ty} :
    ∀ cs : List Constraint, Fixes f (ftvConstraints cs) → replaceConstraints f cs = cs
  | [], _ => by simp
  | (_, ts) :: cs, h => by
    obtain ⟨hts, hcs⟩ := fixes_append.1 h
    simp [replaceTys_of_fixes ts hts, replaceConstraints_of_fixes cs hcs]

end

/-! ### Bindings -/

/-- A partial map from variables to types, in insertion order. -/
abbrev Subst := List (TyVarId × Ty)

namespace Subst

/-- The binding of `v`. -/
def get (s : Subst) (v : TyVarId) : Option Ty :=
  s.lookup v

/-- Insert or overwrite a binding: last write wins, in its old place. -/
def insert : Subst → TyVarId → Ty → Subst
  | [], v, t => [(v, t)]
  | (w, u) :: s, v, t => if w = v then (v, t) :: s else (w, u) :: insert s v t

@[simp] theorem get_nil (v : TyVarId) : get [] v = none := rfl

theorem get_cons (w v : TyVarId) (t : Ty) (s : Subst) :
    get ((w, t) :: s) v = if v = w then some t else get s v := by
  by_cases h : v = w
  · simp [get, h]
  · simp [get, List.lookup_cons, h, beq_eq_false_iff_ne.2 h]

theorem get_insert (s : Subst) (v w : TyVarId) (t : Ty) :
    (s.insert v t).get w = if w = v then some t else s.get w := by
  induction s with
  | nil => simp [insert, get_cons]
  | cons b s ih =>
    obtain ⟨u, x⟩ := b
    by_cases hu : u = v
    · subst hu
      simp only [insert, if_true, get_cons]
      split <;> rfl
    · simp only [insert, hu, if_false, get_cons, ih]
      by_cases hw : w = v
      · subst hw
        simp [Ne.symm hu]
      · simp [hw]

/-- The variables a substitution binds. -/
def dom (s : Subst) : List TyVarId :=
  s.map Prod.fst

theorem mem_dom_of_get {s : Subst} {v : TyVarId} {t : Ty} (h : s.get v = some t) : v ∈ s.dom := by
  induction s with
  | nil => simp at h
  | cons b s ih =>
    obtain ⟨w, u⟩ := b
    rw [get_cons] at h
    split at h
    · rename_i hv
      simp [dom, hv]
    · exact List.mem_cons_of_mem _ (ih h)

end Subst

/-- Apply a substitution: a single lookup per variable, chains are not chased. -/
def applyTy (s : Subst) (t : Ty) : Ty :=
  t.replace s.get

/-- The loop of `apply_ty_prune`, cut off after the given number of rounds. -/
def pruneLoop (s : Subst) : ℕ → Ty → Option Ty
  | 0, _ => none
  | n + 1, current =>
    let next := applyTy s current
    if next = current then some current else pruneLoop s n next

/-- Apply repeatedly until fixed point. -/
def applyTyPrune (s : Subst) (rounds : ℕ) (t : Ty) : Option Ty :=
  pruneLoop s rounds (applyTy s t)

/-! ### The graph of the bindings -/

namespace Subst

/-- From a bound variable to the free variables of its type. -/
def Edge (s : Subst) (v w : TyVarId) : Prop :=
  ∃ t, s.get v = some t ∧ w ∈ t.ftv

/-- No variable reaches itself through its binding chain. -/
def Acyclic (s : Subst) : Prop :=
  Relation.Acyclic s.Edge

/-- Some variable of `t` leads to `v` through a (possibly empty) chain of bindings. -/
def Reaches (s : Subst) (t : Ty) (v : TyVarId) : Prop :=
  ∃ w ∈ t.ftv, Relation.ReflTransGen s.Edge w v

/-- An edge that `applyTy` can go round on: a variable bound to itself is left as it is. -/
def ProperEdge (s : Subst) (v w : TyVarId) : Prop :=
  s.get v ≠ some (.var v) ∧ s.Edge v w

theorem acyclic_nil : Acyclic [] := by
  intro v hv
  obtain ⟨w, ⟨t, ht, -⟩, -⟩ := Relation.TransGen.head'_iff.1 hv
  simp at ht

theorem edge_insert (s : Subst) (v : TyVarId) (t : Ty) :
    (s.insert v t).Edge = Relation.Redirect s.Edge v fun w ↦ w ∈ t.ftv := by
  funext u w
  simp only [Edge, Relation.Redirect, get_insert, eq_iff_iff]
  by_cases h : u = v
  · simp [h]
  · simp [h]

/-- A binding keeps a substitution acyclic exactly when its type does not lead back to its
variable. -/
theorem acyclic_insert_iff {s : Subst} (hs : s.Acyclic) {v : TyVarId} {t : Ty} :
    (s.insert v t).Acyclic ↔ ¬ s.Reaches t v := by
  rw [Acyclic, edge_insert, Relation.acyclic_redirect_iff hs]
  simp [Reaches]

theorem eq_or_properEdge {s : Subst} {v w : TyVarId} (h : s.Edge v w) :
    v = w ∨ s.ProperEdge v w := by
  by_cases hv : s.get v = some (.var v)
  · obtain ⟨t, ht, hw⟩ := h
    rw [hv, Option.some.injEq] at ht
    subst ht
    rw [Ty.ftv, List.mem_singleton] at hw
    exact Or.inl hw.symm
  · exact Or.inr ⟨hv, h⟩

/-- Variables bound to themselves do not matter for reaching a variable. -/
theorem reflTransGen_properEdge_iff {s : Subst} {v w : TyVarId} :
    Relation.ReflTransGen s.ProperEdge w v ↔ Relation.ReflTransGen s.Edge w v := by
  constructor
  · exact Relation.ReflTransGen.mono (fun _ _ he ↦ he.2) w v
  · intro h
    induction h with
    | refl => exact Relation.ReflTransGen.refl
    | tail _ hbc ih =>
      rcases eq_or_properEdge hbc with rfl | hbc
      · exact ih
      · exact ih.tail hbc

theorem properEdge_insert {s : Subst} {v : TyVarId} {t : Ty} (ht : t ≠ .var v) :
    (s.insert v t).ProperEdge = Relation.Redirect s.ProperEdge v fun w ↦ w ∈ t.ftv := by
  funext u w
  simp only [ProperEdge, edge_insert, Relation.Redirect, get_insert, eq_iff_iff]
  by_cases h : u = v
  · simp [h, ht]
  · simp [h]

theorem acyclic_properEdge_insert {s : Subst} (hs : Relation.Acyclic s.ProperEdge) {v : TyVarId}
    {t : Ty} (h : ¬ s.Reaches t v) : Relation.Acyclic (s.insert v t).ProperEdge := by
  have hne : t ≠ .var v := by
    rintro rfl
    exact h ⟨v, by simp, Relation.ReflTransGen.refl⟩
  rw [properEdge_insert hne, Relation.acyclic_redirect_iff hs]
  intro w hw hreach
  exact h ⟨w, hw, reflTransGen_properEdge_iff.1 hreach⟩

theorem Acyclic.properEdge {s : Subst} (hs : s.Acyclic) : Relation.Acyclic s.ProperEdge :=
  fun v hv ↦ hs v (Relation.TransGen.mono (fun _ _ he ↦ he.2) v v hv)

end Subst

/-! ### Pruning comes to an end -/

/-- A type none of whose variables can change is resolved. -/
theorem applyTy_of_forall {s : Subst} {t : Ty}
    (h : ∀ v ∈ t.ftv, s.get v = none ∨ s.get v = some (.var v)) : applyTy s t = t := by
  refine Ty.replace_of_fixes t fun v hv ↦ ?_
  rcases h v hv with h | h <;> simp [h]

/-- A variable of the next round that can still change is below one of this round. -/
theorem exists_properEdge_of_mem {s : Subst} {t : Ty} {w : TyVarId} (hw : w ∈ (applyTy s t).ftv)
    (hlive : ¬ (s.get w = none ∨ s.get w = some (.var w))) :
    ∃ v ∈ t.ftv, ¬ (s.get v = none ∨ s.get v = some (.var v)) ∧ s.ProperEdge v w := by
  obtain ⟨v, hv, hmem⟩ := Ty.replacedFrom_of_mem s.get t hw
  refine ⟨v, hv, ?_⟩
  rcases hget : s.get v with - | u
  · simp only [hget, Option.getD_none, Ty.ftv, List.mem_singleton] at hmem
    rw [hmem, hget] at hlive
    exact absurd (Or.inl rfl) hlive
  · rw [hget, Option.getD_some] at hmem
    have hne : s.get v ≠ some (.var v) := by
      intro hself
      rw [hget, Option.some.injEq] at hself
      subst hself
      simp only [Ty.ftv, List.mem_singleton] at hmem
      rw [hmem, hget] at hlive
      exact hlive (Or.inr rfl)
    exact ⟨by simpa [hget] using hne, hne, u, hget, hmem⟩

/-- **An acyclic substitution resolves every type** in one round more than it has bindings: each
round lowers the variables that can still change. -/
theorem applyTy_iterate_fixed {s : Subst} (hs : Relation.Acyclic s.ProperEdge) (t : Ty) :
    applyTy s ((applyTy s)^[s.dom.toFinset.card + 1] t) =
      (applyTy s)^[s.dom.toFinset.card + 1] t := by
  obtain ⟨height, hle, hlt⟩ := Relation.exists_height_of_acyclic hs s.dom.toFinset (by
    rintro u w ⟨-, x, hx, -⟩
    simpa using Subst.mem_dom_of_get hx)
  have hmain : ∀ n t, (∀ v ∈ t.ftv, ¬ (s.get v = none ∨ s.get v = some (.var v)) → height v < n) →
      applyTy s ((applyTy s)^[n] t) = (applyTy s)^[n] t := by
    intro n
    induction n with
    | zero =>
      intro t h
      refine applyTy_of_forall fun v hv ↦ ?_
      by_contra hlive
      exact absurd (h v hv hlive) (by omega)
    | succ n ih =>
      intro t h
      rw [Function.iterate_succ_apply]
      refine ih _ fun w hw hlive ↦ ?_
      obtain ⟨v, hv, hvlive, hedge⟩ := exists_properEdge_of_mem hw hlive
      have h₁ := h v hv hvlive
      have h₂ := hlt v w hedge
      omega
  exact hmain _ t fun v _ _ ↦ Nat.lt_succ_of_le (hle v)

/-- The loop stops once a round changes nothing. -/
theorem exists_pruneLoop {s : Subst} {n : ℕ} {t : Ty}
    (h : applyTy s ((applyTy s)^[n] t) = (applyTy s)^[n] t) :
    ∃ u, pruneLoop s (n + 1) t = some u := by
  induction n generalizing t with
  | zero => exact ⟨t, by simpa [pruneLoop] using h⟩
  | succ n ih =>
    rw [pruneLoop]
    split
    · exact ⟨t, rfl⟩
    · exact ih h

/-- What the loop returns is a round of applications that the next round leaves as it is. -/
theorem pruneLoop_spec {s : Subst} {n : ℕ} {t u : Ty} (h : pruneLoop s n t = some u) :
    applyTy s u = u ∧ ∃ m, (applyTy s)^[m] t = u := by
  induction n generalizing t with
  | zero => simp [pruneLoop] at h
  | succ n ih =>
    rw [pruneLoop] at h
    split at h
    · rename_i heq
      obtain rfl := Option.some.inj h
      exact ⟨heq, 0, rfl⟩
    · obtain ⟨hfix, m, hm⟩ := ih h
      exact ⟨hfix, m + 1, hm⟩

/-- **Pruning terminates** on every type under an acyclic substitution. -/
theorem exists_applyTyPrune {s : Subst} (hs : Relation.Acyclic s.ProperEdge) (t : Ty) :
    ∃ n u, applyTyPrune s n t = some u :=
  ⟨_, exists_pruneLoop (applyTy_iterate_fixed hs (applyTy s t))⟩

/-- And it returns what a fixed number of rounds returns. -/
theorem applyTyPrune_eq_iterate {s : Subst} {n N : ℕ} {t u : Ty}
    (h : applyTyPrune s n t = some u)
    (hN : applyTy s ((applyTy s)^[N] t) = (applyTy s)^[N] t) : u = (applyTy s)^[N] t := by
  obtain ⟨hfix, m, rfl⟩ := pruneLoop_spec h
  have h₁ := Function.iterate_fixed hfix N
  have h₂ := Function.iterate_fixed hN (m + 1)
  rw [← h₁, ← h₂, ← Function.iterate_succ_apply (applyTy s) m t, ← Function.iterate_add_apply,
    ← Function.iterate_add_apply, Nat.add_comm]

end CoilLang
