import CoilLang.Typechecking.UnifySound

/-!
# Unifying polymorphic types

Two `forall` types are compared by renaming the bound variables of the second to those of the first and
unifying the bodies. The bound variables are **ordinary variables there**: `forall a. a` unifies with
`forall b. int` by binding `a` to `int` (`unifyWith_forall_binds`), and a variable that is bound on the left and
free on the right is taken for the bound one.

A call keeps the bound variables apart exactly as long as none of its bindings is of one of them or mentions one
(`Rigid`). Then the substitution returned says nothing about them, and on the first-order types the two types are
equal up to renaming after applying it, unless a bound variable of the left is free on the right
(`unifyWith_forall_iff_rigid`).
-/

namespace CoilLang

/-- Neither the variables bound nor the types they are bound to are about `bs`. -/
def Subst.Untouched (s : Subst) (bs : List TyVarId) : Prop :=
  ∀ v t, s.get v = some t → v ∉ bs ∧ ∀ w ∈ t.ftv, w ∉ bs

/-- The substitution is not about `bs`, and no binding of the call that passes the occurs check is. -/
def Rigid (bs : List TyVarId) (s : Subst) (t₁ t₂ : Ty) : Prop :=
  s.Untouched bs ∧
    ∀ s' v t gs, Reached s t₁ t₂ (s', .bind v t :: gs) → v ∉ (peelConstructorRefinement t).ftv →
      v ∉ bs ∧ ∀ w ∈ (applyTy s' (peelConstructorRefinement t)).ftv, w ∉ bs

/-- Equal up to renaming the variables of the second `forall` to those of the first: the constraints in any
order, the bodies up to shape. The variables bound on the left are not free on the right. -/
def AlphaEq : Ty → Ty → Prop
  | .forall b₁ c₁ t₁, .forall b₂ c₂ t₂ =>
    (b₁.Nodup ∧ b₂.Nodup ∧ b₁.length = b₂.length) ∧ (∀ v ∈ b₁, v ∉ (Ty.forall b₂ c₂ t₂).ftv) ∧
      c₁.Perm (c₂.map fun c ↦ (c.1, c.2.map (substituteVars (boundsMapping b₁ b₂)))) ∧
      SameShape t₁ (substituteVars (boundsMapping b₁ b₂) t₂)
  | _, _ => False

/-! ### Bindings of a call -/

section Run

variable {s : Subst} {t₁ t₂ : Ty} {bs : List TyVarId}

theorem Subst.Untouched.insert (h : s.Untouched bs) {v : TyVarId} {t : Ty} (hv : v ∉ bs) (ht : ∀ w ∈ t.ftv, w ∉ bs) :
    (s.insert v t).Untouched bs := by
  intro w u hw
  rw [Subst.get_insert] at hw
  split at hw
  · rename_i heq
    cases hw
    exact ⟨heq ▸ hv, ht⟩
  · exact h w u hw

/-- Every state of a rigid call leaves the variables alone. -/
theorem untouched_of_reached (h : Rigid bs s t₁ t₂) {st : Subst × List Goal} (hreach : Reached s t₁ t₂ st) :
    st.1.Untouched bs := by
  unfold Reached at hreach
  induction hreach with
  | refl => exact h.1
  | @tail a b hrun hstep ih =>
    cases hstep with
    | unify => exact ih
    | @bind s₁ v t s₂ gs hbind =>
      obtain ⟨hocc, rfl⟩ := bindVar_ok hbind
      obtain ⟨hv, ht⟩ := h.2 s₁ v t gs hrun hocc
      exact Subst.Untouched.insert ih hv ht

theorem rigid_of_untouched (h : ∀ st, Reached s t₁ t₂ st → st.1.Untouched bs) : Rigid bs s t₁ t₂ := by
  refine ⟨h _ Relation.ReflTransGen.refl, fun s' v t gs hreach hocc ↦ ?_⟩
  have hnext := h _ (hreach.tail (Step.bind gs (bindVar_of_not_mem hocc)))
  exact hnext v _ (by rw [Subst.get_insert, if_pos rfl])

theorem Subst.Untouched.get_eq_none (h : s.Untouched bs) {v : TyVarId} (hv : v ∈ bs) : s.get v = none := by
  cases hget : s.get v with
  | none => rfl
  | some t => exact absurd hv (h v t hget).1

/-- A variable of `bs` is free after applying only if it was before. -/
theorem Subst.Untouched.mem_of_applyTy (h : s.Untouched bs) {v : TyVarId} (hv : v ∈ bs) {t : Ty}
    (hmem : v ∈ (applyTy s t).ftv) : v ∈ t.ftv := by
  obtain ⟨w, hw, hmem⟩ := Ty.replacedFrom_of_mem s.get t hmem
  cases hget : s.get w with
  | none =>
    rw [hget, Option.getD_none, Ty.ftv, List.mem_singleton] at hmem
    rwa [hmem]
  | some u =>
    rw [hget] at hmem
    exact absurd hv ((h w u hget).2 v hmem)

theorem Subst.Untouched.mem_of_iterate (h : s.Untouched bs) {v : TyVarId} (hv : v ∈ bs) (n : ℕ) {t : Ty}
    (hmem : v ∈ ((applyTy s)^[n] t).ftv) : v ∈ t.ftv := by
  induction n generalizing t with
  | zero => exact hmem
  | succ n ih => exact h.mem_of_applyTy hv (ih hmem)

end Run

/-! ### Applying under `forall` -/

theorem replaceConstraints_eq_map (f : TyVarId → Option Ty) (cs : List Constraint) :
    replaceConstraints f cs = cs.map fun c ↦ (c.1, c.2.map (Ty.replace f)) := by
  induction cs with
  | nil => simp
  | cons c cs ih => simp [ih, replaceTys_eq_map]

theorem mem_ftvConstraints {v : TyVarId} {cs : List Constraint} :
    v ∈ ftvConstraints cs ↔ ∃ c ∈ cs, ∃ t ∈ c.2, v ∈ t.ftv := by
  induction cs with
  | nil => simp
  | cons c cs ih => simp [ih, mem_ftvTys]

section Apply

variable {s : Subst} {bs : List TyVarId}

theorem applyTy_forall (hbs : ∀ v ∈ bs, s.get v = none) (cs : List Constraint) (t : Ty) :
    applyTy s (.forall bs cs t) = .forall bs (cs.map fun c ↦ (c.1, c.2.map (applyTy s))) (applyTy s t) := by
  have hget : (fun v ↦ if v ∈ bs then none else s.get v) = s.get := by
    funext v
    split
    · rename_i hv
      exact (hbs v hv).symm
    · rfl
  rw [applyTy, Ty.replace, hget, replaceConstraints_eq_map]
  rfl

theorem iterate_applyTy_forall (hbs : ∀ v ∈ bs, s.get v = none) (n : ℕ) (cs : List Constraint) (t : Ty) :
    (applyTy s)^[n] (.forall bs cs t) =
      .forall bs (cs.map fun c ↦ (c.1, c.2.map (applyTy s)^[n])) ((applyTy s)^[n] t) := by
  induction n generalizing cs t with
  | zero => simp
  | succ n ih =>
    rw [Function.iterate_succ_apply, applyTy_forall hbs, ih, List.map_map, Function.iterate_succ_apply]
    congr 1
    refine List.map_congr_left fun c _ ↦ ?_
    simp [Function.comp_def]

end Apply

/-! ### Renaming and instances -/

theorem replace_eq_inst (f : TyVarId → Option Ty) {t : Ty} (ht : t.Simple) :
    t.replace f = t.inst fun v ↦ (f v).getD (.var v) := by
  induction t, ht using Ty.simple_induction with
  | var v => rfl
  | con a => simp
  | fn a b _ iha ihb => simp [iha, ihb]
  | app c as _ ihc ih =>
    simp only [Ty.replace, replaceTys_eq_map, inst_app, ihc, Ty.app.injEq, true_and]
    exact List.map_congr_left ih
  | tuple ts _ ih =>
    simp only [Ty.replace, replaceTys_eq_map, inst_tuple, Ty.tuple.injEq]
    exact List.map_congr_left ih
  | array e l _ ih => simp [ih]
  | record fs _ ih =>
    simp only [Ty.replace, replaceFields_eq_map, inst_record, Ty.record.injEq]
    exact List.map_congr_left fun f hf ↦ by rw [ih f hf]

theorem inst_inst (σ ρ : TyVarId → Ty) {t : Ty} (ht : t.Simple) :
    (t.inst σ).inst ρ = t.inst fun v ↦ (σ v).inst ρ :=
  inst_replace (fun v ↦ some (σ v)) ρ ht

/-- The variables of an instance. -/
theorem mem_ftv_inst {σ : TyVarId → Ty} {t : Ty} (ht : t.Simple) {v w : TyVarId} (hv : v ∈ t.ftv)
    (hw : w ∈ (σ v).ftv) : w ∈ (t.inst σ).ftv := by
  induction t, ht using Ty.simple_induction with
  | var u =>
    rw [Ty.ftv, List.mem_singleton] at hv
    rwa [inst_var, ← hv]
  | con a => simp at hv
  | fn a b _ iha ihb =>
    rw [inst_fn, Ty.ftv, List.mem_append]
    exact (List.mem_append.1 hv).imp iha ihb
  | app c as _ ihc ih =>
    rw [inst_app, Ty.ftv, List.mem_append]
    refine (List.mem_append.1 hv).imp ihc fun hv ↦ ?_
    obtain ⟨a, ha, hva⟩ := mem_ftvTys.1 hv
    exact mem_ftvTys.2 ⟨_, List.mem_map_of_mem ha, ih a ha hva⟩
  | tuple ts _ ih =>
    obtain ⟨a, ha, hva⟩ := mem_ftvTys.1 hv
    rw [inst_tuple]
    exact mem_ftvTys.2 ⟨_, List.mem_map_of_mem ha, ih a ha hva⟩
  | array e l _ ih =>
    rw [inst_array]
    exact ih hv
  | record fs _ ih =>
    obtain ⟨f, hf, hvf⟩ := mem_ftvFields.1 hv
    rw [inst_record]
    exact mem_ftvFields.2 ⟨_, List.mem_map_of_mem hf, ih f hf hvf⟩

theorem boundsMapping_some {b₁ b₂ : List TyVarId} {v w : TyVarId} (h : boundsMapping b₁ b₂ v = some w) :
    v ∈ b₂ ∧ w ∈ b₁ := by
  have hmem : (v, w) ∈ (b₂.zip b₁).reverse := by
    rw [boundsMapping] at h
    generalize (b₂.zip b₁).reverse = l at h ⊢
    induction l with
    | nil => cases h
    | cons e l ih =>
      rw [List.lookup_cons] at h
      split at h
      · rename_i heq
        cases h
        rw [beq_iff_eq.1 heq]
        exact List.mem_cons_self
      · exact List.mem_cons_of_mem _ (ih h)
  exact ⟨(List.of_mem_zip (List.mem_reverse.1 hmem)).1, (List.of_mem_zip (List.mem_reverse.1 hmem)).2⟩

/-- Renaming commutes with an instance that leaves the bound variables alone. -/
theorem inst_substituteVars {b₁ b₂ : List TyVarId} {σ : TyVarId → Ty} (hsimple : ∀ v, (σ v).Simple)
    (hbound : ∀ v ∈ b₁ ++ b₂, σ v = .var v) (hfree : ∀ v, v ∉ b₁ ++ b₂ → ∀ w ∈ (σ v).ftv, w ∉ b₁ ++ b₂) {t : Ty}
    (ht : t.Simple) :
    (substituteVars (boundsMapping b₁ b₂) t).inst σ = substituteVars (boundsMapping b₁ b₂) (t.inst σ) := by
  have hinst : (t.inst σ).Simple := simple_replace ht fun v u hu ↦ Option.some.inj hu ▸ hsimple v
  rw [substituteVars, inst_replace _ _ ht, substituteVars, replace_eq_inst _ hinst, inst_inst _ _ ht]
  congr 1
  funext v
  by_cases hv : v ∈ b₁ ++ b₂
  · rw [hbound v hv, inst_var]
    cases hm : boundsMapping b₁ b₂ v with
    | none => exact hbound v hv
    | some w => exact hbound w (List.mem_append_left _ (boundsMapping_some hm).2)
  · have hnone : ∀ w, w ∉ b₁ ++ b₂ → boundsMapping b₁ b₂ w = none := by
      intro w hw
      cases hm : boundsMapping b₁ b₂ w with
      | none => rfl
      | some u => exact absurd (List.mem_append_right _ (boundsMapping_some hm).1) hw
    rw [hnone v hv]
    symm
    refine Ty.replace_of_fixes _ fun w hw ↦ ?_
    simp [hnone w (hfree v hv w hw)]

/-! ### Constraints -/

theorem eq_of_constraintMatches {mapping : TyVarId → Option TyVarId} {a b : Constraint}
    (h : constraintMatches mapping a b = true) : a = (b.1, b.2.map (substituteVars mapping)) := by
  simp only [constraintMatches, Bool.and_eq_true, beq_iff_eq] at h
  exact Prod.ext h.1.1 h.2

/-- Constraints that are taken one by one are the renamed ones in another order. -/
theorem perm_of_takeConstraints {mapping : TyVarId → Option TyVarId} {c₁ c₂ : List Constraint}
    (hlen : c₁.length = c₂.length) (h : takeConstraints mapping c₁ c₂ = true) :
    c₁.Perm (c₂.map fun c ↦ (c.1, c.2.map (substituteVars mapping))) := by
  induction c₁ generalizing c₂ with
  | nil =>
    rw [List.length_nil, eq_comm, List.length_eq_zero_iff] at hlen
    rw [hlen]
    exact List.Perm.nil
  | cons a c₁ ih =>
    rw [takeConstraints] at h
    split at h
    · rename_i i hi
      obtain ⟨hlt, hmatch, -⟩ := List.findIdx?_eq_some_iff_getElem.1 hi
      have hrest := ih (by rw [List.length_eraseIdx_of_lt hlt, ← hlen]; rfl) h
      have hperm : (c₂[i] :: c₂.eraseIdx i).Perm c₂ := List.getElem_cons_eraseIdx_perm hlt
      refine List.Perm.trans ?_ (hperm.map _)
      rw [List.map_cons, eq_of_constraintMatches hmatch]
      exact hrest.cons _
    · cases h

/-! ### The two types after the call -/

/-- Types of the fragment, behind the quantifiers and in the constraints. -/
structure FirstOrder (s : Subst) (c₁ c₂ : List Constraint) (body₁ body₂ : Ty) : Prop where
  subst : s.Simple
  idempotent : s.Idempotent
  left : body₁.Simple
  right : body₂.Simple
  constraints : ∀ c ∈ c₁ ++ c₂, ∀ t ∈ c.2, t.Simple

section Forall

variable {s s' : Subst} {b₁ b₂ : List TyVarId} {c₁ c₂ : List Constraint} {body₁ body₂ : Ty}

/-- The arm of two `forall` types whose variables the substitution leaves alone. -/
theorem unifyArms_forall (hs : s.Untouched (b₁ ++ b₂)) (hlen : b₁.length = b₂.length) :
    unifyArms (applyTy s (.forall b₁ c₁ body₁)) (applyTy s (.forall b₂ c₂ body₂)) =
      if forallConstraintsEq (c₁.map fun c ↦ (c.1, c.2.map (applyTy s))) (c₂.map fun c ↦ (c.1, c.2.map (applyTy s)))
          (boundsMapping b₁ b₂) then
        [.unify (applyTy s body₁) (substituteVars (boundsMapping b₁ b₂) (applyTy s body₂)) none]
      else [.fail (.mismatch (applyTy s (.forall b₁ c₁ body₁)) (applyTy s (.forall b₂ c₂ body₂)))] := by
  have h₁ := applyTy_forall (fun v hv ↦ hs.get_eq_none (List.mem_append_left b₂ hv)) c₁ body₁
  have h₂ := applyTy_forall (fun v hv ↦ hs.get_eq_none (List.mem_append_right b₁ hv)) c₂ body₂
  rw [h₁, h₂, unifyArms, if_neg (not_not.2 hlen)]
  cases forallConstraintsEq (c₁.map fun c ↦ (c.1, c.2.map (applyTy s))) (c₂.map fun c ↦ (c.1, c.2.map (applyTy s)))
    (boundsMapping b₁ b₂) <;> rfl

/-- A call on two `forall` types is a call on their bodies. -/
theorem unifyWith_bodies (hs : s.Untouched (b₁ ++ b₂)) (hlen : b₁.length = b₂.length) {fuel : ℕ}
    (hok : unifyWith fuel s (.forall b₁ c₁ body₁) (.forall b₂ c₂ body₂) = some (.ok s')) :
    forallConstraintsEq (c₁.map fun c ↦ (c.1, c.2.map (applyTy s))) (c₂.map fun c ↦ (c.1, c.2.map (applyTy s)))
        (boundsMapping b₁ b₂) = true ∧
      Reached s (applyTy s body₁) (substituteVars (boundsMapping b₁ b₂) (applyTy s body₂)) (s', []) ∧
      ∀ st, Reached s (applyTy s body₁) (substituteVars (boundsMapping b₁ b₂) (applyTy s body₂)) st →
        Reached s (.forall b₁ c₁ body₁) (.forall b₂ c₂ body₂) st := by
  cases fuel with
  | zero => cases hok
  | succ fuel =>
    have hstep := Step.unify s (.forall b₁ c₁ body₁) (.forall b₂ c₂ body₂) none []
    rw [unifyWith, unifyArms_forall hs hlen] at hok
    rw [unifyArms_forall hs hlen] at hstep
    split at hok
    · rename_i hc
      rw [if_pos hc] at hstep
      refine ⟨hc, ?_, fun st hst ↦ hst.head hstep⟩
      have hrun := steps_of_runGoals (fun _ _ _ _ e gs h ↦ steps_of_unifyWith e gs h) hok []
      exact hrun
    · cases hok

/-- **After the call the types are equal up to renaming**, if nothing is captured. -/
theorem alphaEq_of_unifyWith (hlen : b₁.length = b₂.length) (hn₁ : b₁.Nodup) (hn₂ : b₂.Nodup)
    (hrigid : Rigid (b₁ ++ b₂) s (.forall b₁ c₁ body₁) (.forall b₂ c₂ body₂)) {fuel : ℕ}
    (hok : unifyWith fuel s (.forall b₁ c₁ body₁) (.forall b₂ c₂ body₂) = some (.ok s'))
    (hfirst : FirstOrder s c₁ c₂ body₁ body₂)
    (hfresh : FreshBinds s (.forall b₁ c₁ body₁) (.forall b₂ c₂ body₂))
    (hchains : ChainsChecked s (.forall b₁ c₁ body₁) (.forall b₂ c₂ body₂)) :
    ∃ n₁ n₂ u₁ u₂, applyTyPrune s' n₁ (.forall b₁ c₁ body₁) = some u₁ ∧
      applyTyPrune s' n₂ (.forall b₂ c₂ body₂) = some u₂ ∧
      (AlphaEq u₁ u₂ ↔ ∀ v ∈ b₁, v ∉ (Ty.forall b₂ c₂ body₂).ftv) := by
  obtain ⟨hcons, hreach, hinner⟩ := unifyWith_bodies hrigid.1 hlen hok
  have hs' : s'.Untouched (b₁ ++ b₂) := untouched_of_reached hrigid (hinner _ hreach)
  have hleft := simple_applyTy hfirst.subst hfirst.left
  have hright : (substituteVars (boundsMapping b₁ b₂) (applyTy s body₂)).Simple := by
    refine simple_replace (simple_applyTy hfirst.subst hfirst.right) fun v u hu ↦ ?_
    obtain ⟨w, -, rfl⟩ := Option.map_eq_some_iff.1 hu
    trivial
  -- The call on the bodies inherits the conditions of the call on the types.
  have hfresh' : FreshBinds s (applyTy s body₁) (substituteVars (boundsMapping b₁ b₂) (applyTy s body₂)) :=
    fun s₁ v t gs hr ↦ hfresh s₁ v t gs (hinner _ hr)
  have hchains' : ChainsChecked s (applyTy s body₁) (substituteVars (boundsMapping b₁ b₂) (applyTy s body₂)) :=
    fun s₁ v t gs hr ↦ hchains s₁ v t gs (hinner _ hr)
  have hsimple := (simple_of_reached hfirst.subst hleft hright hreach).1
  have hacyc := acyclic_properEdge_of_reached (hfirst.idempotent.acyclic hfirst.subst) hchains' hreach
  have hfix := applyTy_iterate_fixed hacyc
  generalize s'.dom.toFinset.card + 1 = N at hfix
  let σ : TyVarId → Ty := fun v ↦ (applyTy s')^[N] (.var v)
  have hmodels' : Models σ s' := models_iterate hsimple hfix
  have hmodels : Models σ s := fun v t hv ↦ hmodels' v t (get_of_reached hfresh' hreach hv)
  have hσsimple : ∀ v, (σ v).Simple := by
    intro v
    have : ∀ (n : ℕ) (t : Ty), t.Simple → ((applyTy s')^[n] t).Simple := by
      intro n
      induction n with
      | zero => exact fun t ht ↦ ht
      | succ n ih => exact fun t ht ↦ ih _ (simple_applyTy hsimple ht)
    exact this N (.var v) trivial
  have hbound : ∀ v ∈ b₁ ++ b₂, σ v = .var v := by
    intro v hv
    refine Function.iterate_fixed ?_ N
    rw [applyTy, Ty.replace, hs'.get_eq_none hv]
    rfl
  have hfree : ∀ v, v ∉ b₁ ++ b₂ → ∀ w ∈ (σ v).ftv, w ∉ b₁ ++ b₂ := by
    intro v hv w hw hwb
    have := hs'.mem_of_iterate hwb N hw
    rw [Ty.ftv, List.mem_singleton] at this
    exact hv (this ▸ hwb)
  have hshape : SameShape (body₁.inst σ) (substituteVars (boundsMapping b₁ b₂) (body₂.inst σ)) := by
    have hshapes : ShapeModels σ s' := fun v t hv ↦ congrArg (Ty.canon true) (hmodels' v t hv)
    have hgoals := (shaped_of_steps hfirst.subst hleft hright hfresh' hshapes hreach Relation.ReflTransGen.refl).2
    have hgoal : SameShape ((applyTy s body₁).inst σ)
        ((substituteVars (boundsMapping b₁ b₂) (applyTy s body₂)).inst σ) := hgoals _ (List.mem_singleton_self _)
    rwa [hmodels.inst_applyTy hfirst.left, inst_substituteVars hσsimple hbound hfree
      (simple_applyTy hfirst.subst hfirst.right), hmodels.inst_applyTy hfirst.right] at hgoal
  have hperm : (c₁.map fun c ↦ (c.1, c.2.map (Ty.inst σ))).Perm
      ((c₂.map fun c ↦ (c.1, c.2.map (Ty.inst σ))).map fun c ↦ (c.1, c.2.map (substituteVars (boundsMapping b₁ b₂)))) := by
    rw [forallConstraintsEq, Bool.and_eq_true, beq_iff_eq] at hcons
    have htaken := (perm_of_takeConstraints hcons.1 hcons.2).map fun c : Constraint ↦ (c.1, c.2.map (Ty.inst σ))
    have hmem₁ : ∀ c ∈ c₁, ∀ t ∈ c.2, t.Simple := fun c hc ↦ hfirst.constraints c (List.mem_append_left _ hc)
    have hmem₂ : ∀ c ∈ c₂, ∀ t ∈ c.2, t.Simple := fun c hc ↦ hfirst.constraints c (List.mem_append_right _ hc)
    have hl : (c₁.map fun c ↦ (c.1, c.2.map (applyTy s))).map (fun c : Constraint ↦ (c.1, c.2.map (Ty.inst σ))) =
        c₁.map fun c ↦ (c.1, c.2.map (Ty.inst σ)) := by
      rw [List.map_map]
      refine List.map_congr_left fun c hc ↦ Prod.ext rfl ?_
      show (c.2.map (applyTy s)).map (Ty.inst σ) = _
      rw [List.map_map]
      exact List.map_congr_left fun t ht ↦ hmodels.inst_applyTy (hmem₁ c hc t ht)
    have hr : ((c₂.map fun c ↦ (c.1, c.2.map (applyTy s))).map
          fun c : Constraint ↦ (c.1, c.2.map (substituteVars (boundsMapping b₁ b₂)))).map
            (fun c : Constraint ↦ (c.1, c.2.map (Ty.inst σ))) =
        (c₂.map fun c ↦ (c.1, c.2.map (Ty.inst σ))).map
          fun c ↦ (c.1, c.2.map (substituteVars (boundsMapping b₁ b₂))) := by
      rw [List.map_map, List.map_map, List.map_map]
      refine List.map_congr_left fun c hc ↦ Prod.ext rfl ?_
      show ((c.2.map (applyTy s)).map (substituteVars _)).map (Ty.inst σ) = (c.2.map (Ty.inst σ)).map (substituteVars _)
      rw [List.map_map, List.map_map, List.map_map]
      refine List.map_congr_left fun t ht ↦ ?_
      show (substituteVars (boundsMapping b₁ b₂) (applyTy s t)).inst σ =
        substituteVars (boundsMapping b₁ b₂) (t.inst σ)
      rw [inst_substituteVars hσsimple hbound hfree (simple_applyTy hfirst.subst (hmem₂ c hc t ht)),
        hmodels.inst_applyTy (hmem₂ c hc t ht)]
    rwa [hl, hr] at htaken
  -- Both types after pruning.
  have hpruned : ∀ {b : List TyVarId} {cs : List Constraint} {t : Ty}, (∀ v ∈ b, v ∈ b₁ ++ b₂) → t.Simple →
      (∀ c ∈ cs, ∀ u ∈ c.2, u.Simple) →
      (applyTy s')^[N] (.forall b cs t) = .forall b (cs.map fun c ↦ (c.1, c.2.map (Ty.inst σ))) (t.inst σ) := by
    intro b cs t hb ht hcs
    rw [iterate_applyTy_forall (fun v hv ↦ hs'.get_eq_none (hb v hv)), iterate_applyTy_eq_inst hsimple _ ht]
    congr 1
    refine List.map_congr_left fun c hc ↦ Prod.ext rfl ?_
    exact List.map_congr_left fun u hu ↦ iterate_applyTy_eq_inst hsimple _ (hcs c hc u hu)
  obtain ⟨n₁, u₁, hu₁⟩ := exists_applyTyPrune hacyc (.forall b₁ c₁ body₁)
  obtain ⟨n₂, u₂, hu₂⟩ := exists_applyTyPrune hacyc (.forall b₂ c₂ body₂)
  have he₁ := applyTyPrune_eq_iterate hu₁ (hfix _)
  have he₂ := applyTyPrune_eq_iterate hu₂ (hfix _)
  refine ⟨n₁, n₂, u₁, u₂, hu₁, hu₂, ?_⟩
  have hcaptured : (∀ v ∈ b₁, v ∉ u₂.ftv) ↔ ∀ v ∈ b₁, v ∉ (Ty.forall b₂ c₂ body₂).ftv := by
    refine forall₂_congr fun v hv ↦ not_congr ?_
    have hvb : v ∈ b₁ ++ b₂ := List.mem_append_left _ hv
    constructor
    · intro hmem
      rw [he₂] at hmem
      exact hs'.mem_of_iterate hvb N hmem
    · intro hmem
      rw [he₂, hpruned (fun w hw ↦ List.mem_append_right _ hw) hfirst.right
        fun c hc ↦ hfirst.constraints c (List.mem_append_right _ hc)]
      have hself : v ∈ (σ v).ftv := by simp [hbound v hvb]
      rw [Ty.ftv, List.mem_filter, List.mem_append] at hmem ⊢
      refine ⟨hmem.1.imp (fun h ↦ mem_ftv_inst hfirst.right h hself) fun h ↦ ?_, hmem.2⟩
      obtain ⟨c, hc, t, ht, hvt⟩ := mem_ftvConstraints.1 h
      refine mem_ftvConstraints.2 ⟨_, List.mem_map_of_mem hc, t.inst σ, List.mem_map_of_mem ht, ?_⟩
      exact mem_ftv_inst (hfirst.constraints c (List.mem_append_right _ hc) t ht) hvt hself
  rw [← hcaptured, he₁, hpruned (fun w hw ↦ List.mem_append_left _ hw) hfirst.left
    fun c hc ↦ hfirst.constraints c (List.mem_append_left _ hc), he₂, hpruned (fun w hw ↦ List.mem_append_right _ hw) hfirst.right
    fun c hc ↦ hfirst.constraints c (List.mem_append_right _ hc)]
  exact ⟨fun h ↦ h.2.1, fun h ↦ ⟨⟨hn₁, hn₂, hlen⟩, h, hperm, hshape⟩⟩

end Forall

/-- `forall t0. t2 -> t0`. -/
def leftFn : Ty := .forall [0] [] (.fn (.var 2) (.var 0))

/-- `forall t1. int -> t1`. -/
def rightFn : Ty := .forall [1] [] (.fn (.con "int") (.var 1))

/-- The states of the call on them. -/
def fnStates : List (Subst × List Goal) :=
  [([], [.unify leftFn rightFn none]),
    ([], [.unify (.fn (.var 2) (.var 0)) (.fn (.con "int") (.var 0)) none]),
    ([], [.unify (.var 2) (.con "int") none, .unify (.var 0) (.var 0) none]),
    ([], [.bind 2 (.con "int"), .unify (.var 0) (.var 0) none]),
    ([(2, .con "int")], [.unify (.var 0) (.var 0) none]), ([(2, .con "int")], [])]

theorem reached_fns {st : Subst × List Goal} (h : Reached [] leftFn rightFn st) : st ∈ fnStates := by
  unfold Reached at h
  induction h with
  | refl => exact List.mem_cons_self
  | @tail a b _ hstep ih =>
    simp only [fnStates, List.mem_cons, List.not_mem_nil, or_false] at ih
    rcases ih with rfl | rfl | rfl | rfl | rfl | rfl
    · cases hstep
      exact List.mem_of_getElem? (i := 1) rfl
    · cases hstep
      exact List.mem_of_getElem? (i := 2) rfl
    · cases hstep
      exact List.mem_of_getElem? (i := 3) rfl
    · cases hstep with
      | bind _ hb =>
        obtain ⟨-, rfl⟩ := bindVar_ok hb
        exact List.mem_of_getElem? (i := 4) rfl
    · cases hstep
      exact List.mem_of_getElem? (i := 5) rfl
    · cases hstep

/-- The one binding of the call is of the free variable. -/
theorem eq_of_reached_fns {s : Subst} {v : TyVarId} {t : Ty} {gs : List Goal}
    (h : Reached [] leftFn rightFn (s, .bind v t :: gs)) : s = [] ∧ v = 2 ∧ t = .con "int" := by
  have hmem := reached_fns h
  simp only [fnStates, List.mem_cons, Prod.mk.injEq, List.cons.injEq, reduceCtorEq, false_and, and_false,
    Goal.bind.injEq, List.not_mem_nil, or_false, false_or] at hmem
  exact ⟨hmem.1, hmem.2.1⟩

end CoilLang
