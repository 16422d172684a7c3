import CoilLang.Typechecking.SimpleTy
import CoilLang.Typechecking.UnifyAcyclic

/-!
# Soundness of unification

On the first-order types, from an idempotent substitution.

**Success.** When every binding of the call is of a variable the substitution does not bind yet, the
bindings are only added to, so an instance that respects the substitution the call returns respects
every one it went through, and makes the two sides of every goal the same shape. The pruned types are
such an instance. A variable met again behind an alias chain breaks this: its old binding is lost
(`unifyWith_loses_binding`).

**Error.** An instance that makes the two types equal and respects the substitution satisfies every
goal of the run, whatever is bound again on the way. So a run that ends in an error has no such
instance.
-/

namespace CoilLang

/-! ### Goals and states of the fragment -/

/-- A goal of the fragment. No arm binds a variable to itself. -/
def Goal.Simple : Goal → Prop
  | .unify t₁ t₂ _ => t₁.Simple ∧ t₂.Simple
  | .bind v t => t.Simple ∧ t ≠ .var v
  | .fail _ => True

attribute [simp] Goal.Simple

/-- Every binding is a simple type. -/
def Subst.Simple (s : Subst) : Prop :=
  ∀ v t, s.get v = some t → t.Simple

theorem simple_applyTy {s : Subst} (hs : s.Simple) {t : Ty} (ht : t.Simple) :
    (applyTy s t).Simple :=
  simple_replace ht hs

theorem peelConstructorRefinement_of_simple {t : Ty} (ht : t.Simple) :
    peelConstructorRefinement t = t := by
  cases t <;> simp_all [peelConstructorRefinement]

theorem simple_unifyZip {ts us : List Ty} (hts : ∀ t ∈ ts, t.Simple) (hus : ∀ u ∈ us, u.Simple) :
    ∀ g ∈ unifyZip ts us, g.Simple := by
  intro g hg
  obtain ⟨⟨t, u⟩, hmem, rfl⟩ := List.mem_map.1 hg
  exact ⟨hts t (List.of_mem_zip hmem).1, hus u (List.of_mem_zip hmem).2⟩

theorem simple_of_mem_sortFields {fs : List (String × Ty)} (h : ∀ f ∈ fs, f.2.Simple) :
    ∀ t ∈ (sortFields fs).map Prod.snd, t.Simple := by
  intro t ht
  obtain ⟨f, hf, rfl⟩ := List.mem_map.1 ht
  exact h f ((List.mem_insertionSort _).1 hf)

/-- What the arm of two simple types does. In a clash some goal fails, and no instance makes the two
types equal. -/
inductive SimpleArm : Ty → Ty → List Goal → Prop where
  | same (v) : SimpleArm (.var v) (.var v) []
  | bindLeft (v) {t} : t ≠ .var v → SimpleArm (.var v) t [.bind v t]
  | bindRight (v) {t} : t ≠ .var v → SimpleArm t (.var v) [.bind v t]
  | con (a) : SimpleArm (.con a) (.con a) []
  | unitTuple : SimpleArm (.con unitName) (.tuple []) []
  | tupleUnit : SimpleArm (.tuple []) (.con unitName) []
  | fn (a b c d) : SimpleArm (.fn a b) (.fn c d) [.unify a c none, .unify b d none]
  | app (c d) {as bs} : as.length = bs.length →
    SimpleArm (.app c as) (.app d bs) (.unify c d none :: unifyZip as bs)
  | tuple {ts us} : ts.length = us.length → SimpleArm (.tuple ts) (.tuple us) (unifyZip ts us)
  | array (e f l m) : SimpleArm (.array e l) (.array f m) [.unify e f none]
  | record {fs gs} : (sortFields fs).map Prod.fst = (sortFields gs).map Prod.fst →
    SimpleArm (.record fs) (.record gs)
      (unifyZip ((sortFields fs).map Prod.snd) ((sortFields gs).map Prod.snd))
  | clash {t u gs e} : .fail e ∈ gs → (∀ g ∈ gs, g.Simple) → (∀ σ, t.inst σ ≠ u.inst σ) →
    SimpleArm t u gs

theorem SimpleArm.fail {t u : Ty} {e : UnifyError} (h : ∀ σ, t.inst σ ≠ u.inst σ) :
    SimpleArm t u [.fail e] :=
  .clash (e := e) (by simp) (by simp) h

/-- Sorted names are the names sorted. -/
theorem map_fst_sortFields (fs : List (String × Ty)) :
    (sortFields fs).map Prod.fst = (fs.map Prod.fst).insertionSort (· ≤ ·) :=
  List.map_insertionSort _ _ _ _ fun _ _ _ _ ↦ Iff.rfl

/-- **One case split over the arms**, for all that follows. -/
theorem simpleArm {t u : Ty} (ht : t.Simple) (hu : u.Simple) : SimpleArm t u (unifyArms t u) := by
  cases t with
  | var v =>
    cases u with
    | var w =>
      simp only [unifyArms]
      split_ifs with h₁ h₂
      · exact h₁ ▸ .same v
      · exact .bindRight w (by simpa using h₁)
      · exact .bindLeft v (by simpa using Ne.symm h₁)
    | con _ | fn _ _ | app _ _ | tuple _ | array _ _ | record _ => exact .bindLeft v (by simp)
    | _ => exact absurd hu (by simp)
  | con a =>
    cases u with
    | var w => exact .bindRight w (by simp)
    | con b =>
      simp only [unifyArms]
      split_ifs with h
      · exact h ▸ .con a
      · exact .fail fun σ ↦ by simpa using h
    | tuple items =>
      simp only [unifyArms]
      split_ifs with h
      · obtain ⟨rfl, rfl⟩ := h
        exact .unitTuple
      · exact .fail fun σ ↦ by simp
    | fn _ _ | app _ _ | array _ _ | record _ => exact .fail fun σ ↦ by simp
    | _ => exact absurd hu (by simp)
  | fn a b =>
    cases u with
    | var w => exact .bindRight w (by simp)
    | fn c d => exact .fn a b c d
    | con _ | app _ _ | tuple _ | array _ _ | record _ => exact .fail fun σ ↦ by simp
    | _ => exact absurd hu (by simp)
  | app c as =>
    cases u with
    | var w => exact .bindRight w (by simp)
    | app d bs =>
      simp only [unifyArms]
      split_ifs with h
      · refine .clash (e := .mismatch (.app c as) (.app d bs)) (by simp) ?_ fun σ heq ↦ h ?_
        · simpa using ⟨ht.1, hu.1⟩
        · rw [inst_app, inst_app, Ty.app.injEq] at heq
          simpa using congrArg List.length heq.2
      · exact .app c d (by simpa using h)
    | con _ | fn _ _ | tuple _ | array _ _ | record _ => exact .fail fun σ ↦ by simp
    | _ => exact absurd hu (by simp)
  | tuple ts =>
    cases u with
    | var w => exact .bindRight w (by simp)
    | con u =>
      simp only [unifyArms]
      split_ifs with h
      · obtain ⟨rfl, rfl⟩ := h
        exact .tupleUnit
      · exact .fail fun σ ↦ by simp
    | tuple us =>
      simp only [unifyArms]
      split_ifs with h
      · refine .fail fun σ heq ↦ h ?_
        rw [inst_tuple, inst_tuple, Ty.tuple.injEq] at heq
        simpa using congrArg List.length heq
      · exact .tuple (by simpa using h)
    | fn _ _ | app _ _ | array _ _ | record _ => exact .fail fun σ ↦ by simp
    | _ => exact absurd hu (by simp)
  | array e l =>
    cases u with
    | var w => exact .bindRight w (by simp)
    | array f m =>
      simp only [unifyArms]
      split_ifs with h
      · refine .fail fun σ heq ↦ ?_
        obtain ⟨-, rfl⟩ : e.inst σ = f.inst σ ∧ l = m := by simpa using heq
        cases l <;> simp [ArrayLength.compatible] at h
      · exact .array e f l m
    | con _ | fn _ _ | app _ _ | tuple _ | record _ => exact .fail fun σ ↦ by simp
    | _ => exact absurd hu (by simp)
  | record fs =>
    cases u with
    | var w => exact .bindRight w (by simp)
    | record gs =>
      -- equal instances have the same field names, in the same places
      have hnames : ∀ σ, (Ty.record fs).inst σ = (Ty.record gs).inst σ →
          fs.map Prod.fst = gs.map Prod.fst := by
        intro σ heq
        rw [inst_record, inst_record, Ty.record.injEq] at heq
        simpa [Function.comp_def] using congrArg (List.map Prod.fst) heq
      simp only [unifyArms]
      split_ifs with h₁ h₂
      · exact .fail fun σ heq ↦ h₁ (by simpa using congrArg List.length (hnames σ heq))
      · refine .fail fun σ heq ↦ h₂ ?_
        rw [map_fst_sortFields, map_fst_sortFields, hnames σ heq]
      · exact .record (by simpa using h₂)
    | con _ | fn _ _ | app _ _ | tuple _ | array _ _ => exact .fail fun σ ↦ by simp
    | _ => exact absurd hu (by simp)
  | _ => exact absurd ht (by simp)

/-- The arm of two simple types has simple goals. -/
theorem simple_unifyArms {t u : Ty} (ht : t.Simple) (hu : u.Simple) :
    ∀ g ∈ unifyArms t u, g.Simple := by
  have h := simpleArm ht hu
  generalize unifyArms t u = gs at h
  cases h with
  | same | con | unitTuple | tupleUnit => simp
  | bindLeft v hne => simpa using ⟨hu, hne⟩
  | bindRight v hne => simpa using ⟨ht, hne⟩
  | fn a b c d => simpa using ⟨⟨ht.1, hu.1⟩, ht.2, hu.2⟩
  | app c d =>
    refine List.forall_mem_cons.2 ⟨⟨ht.1, hu.1⟩, ?_⟩
    exact simple_unifyZip (simpleTys_iff.1 ht.2) (simpleTys_iff.1 hu.2)
  | tuple => exact simple_unifyZip (simpleTys_iff.1 ht) (simpleTys_iff.1 hu)
  | array e f l m => simpa using ⟨ht, hu⟩
  | record =>
    exact simple_unifyZip (simple_of_mem_sortFields (simpleFields_iff.1 ht))
      (simple_of_mem_sortFields (simpleFields_iff.1 hu))
  | clash _ hgs _ => exact hgs

/-! ### What a goal asks of an instance -/

/-- The instance makes the goal's two sides the same shape. -/
def Goal.Shaped (σ : TyVarId → Ty) : Goal → Prop
  | .unify t₁ t₂ _ => SameShape (t₁.inst σ) (t₂.inst σ)
  | .bind v t => SameShape (σ v) (t.inst σ)
  | .fail _ => False

/-- The instance makes the goal's two sides equal. -/
def Goal.Solved (σ : TyVarId → Ty) : Goal → Prop
  | .unify t₁ t₂ _ => t₁.inst σ = t₂.inst σ
  | .bind v t => σ v = t.inst σ
  | .fail _ => False

theorem map_canon_eq_of_unifyZip {σ : TyVarId → Ty} {ts us : List Ty}
    (hlen : ts.length = us.length) (h : ∀ g ∈ unifyZip ts us, g.Shaped σ) :
    ts.map (fun t ↦ (t.inst σ).canon true) = us.map fun u ↦ (u.inst σ).canon true := by
  induction ts generalizing us with
  | nil =>
    cases us with
    | nil => rfl
    | cons => simp at hlen
  | cons t ts ih =>
    cases us with
    | nil => simp at hlen
    | cons u us =>
      obtain ⟨h₁, h₂⟩ := List.forall_mem_cons.1 h
      rw [List.map_cons, List.map_cons, ih (by simpa using hlen) h₂]
      exact congrArg (· :: _) h₁

/-- **The arm's goals are enough**: when they hold, the two types have the same shape. -/
theorem sameShape_of_unifyArms {σ : TyVarId → Ty} {t u : Ty} (ht : t.Simple) (hu : u.Simple)
    (h : ∀ g ∈ unifyArms t u, g.Shaped σ) : SameShape (t.inst σ) (u.inst σ) := by
  have harm := simpleArm ht hu
  generalize unifyArms t u = gs at harm h
  cases harm with
  | same | con => rfl
  | unitTuple | tupleUnit => simp [SameShape, Ty.canon, canonTys, unitName]
  | bindLeft v hne => exact h _ (List.mem_singleton_self _)
  | bindRight v hne => exact (h _ (List.mem_singleton_self _)).symm
  | fn a b c d =>
    simp only [List.forall_mem_cons, Goal.Shaped, SameShape] at h
    simp only [SameShape, inst_fn, Ty.canon, h.1, h.2.1]
  | app c d hlen =>
    obtain ⟨h₁, h₂⟩ := List.forall_mem_cons.1 h
    simp only [SameShape, inst_app, Ty.canon, canonTys_eq_map, List.map_map, Ty.app.injEq]
    exact ⟨h₁, map_canon_eq_of_unifyZip hlen h₂⟩
  | tuple hlen =>
    simp only [SameShape, inst_tuple, Ty.canon, canonTys_eq_map, List.map_map, Ty.tuple.injEq]
    exact map_canon_eq_of_unifyZip hlen h
  | array e f l m =>
    have h₁ := h _ (List.mem_singleton_self _)
    simp only [Goal.Shaped, SameShape] at h₁
    simp only [SameShape, inst_array, Ty.canon, h₁]
  | @record fs gs hnames =>
    have hlen := congrArg List.length hnames
    simp only [List.length_map] at hlen
    have htys := map_canon_eq_of_unifyZip (by simpa using hlen) h
    simp only [SameShape, inst_record, Ty.canon, canonFields_eq_map, List.map_map, if_true,
      Ty.record.injEq]
    -- the names and the shapes agree place by place once the fields are sorted
    have hcomp : ∀ fs : List (String × Ty),
        sortFields (fs.map ((fun f : String × Ty ↦ (f.1, f.2.canon true)) ∘
          fun f ↦ (f.1, f.2.inst σ))) =
        ((sortFields fs).map Prod.fst).zip
          (((sortFields fs).map Prod.snd).map fun t ↦ (t.inst σ).canon true) := by
      intro fs
      have := sortFields_map (fun t ↦ (t.inst σ).canon true) fs
      simp only [Function.comp_def]
      rw [this, List.map_map, List.zip_map']
      rfl
    rw [hcomp, hcomp, hnames, htys]
  | clash hmem _ _ => exact (h _ hmem).elim

theorem solved_unifyZip {σ : TyVarId → Ty} {ts us : List Ty}
    (h : ts.map (Ty.inst σ) = us.map (Ty.inst σ)) : ∀ g ∈ unifyZip ts us, g.Solved σ := by
  induction ts generalizing us with
  | nil => simp [unifyZip]
  | cons t ts ih =>
    cases us with
    | nil => simp at h
    | cons u us =>
      rw [List.map_cons, List.map_cons, List.cons.injEq] at h
      exact List.forall_mem_cons.2 ⟨h.1, ih h.2⟩

/-- **The arm's goals are needed**: an instance that makes two simple types equal solves them. -/
theorem solved_unifyArms {σ : TyVarId → Ty} {t u : Ty} (ht : t.Simple) (hu : u.Simple)
    (h : t.inst σ = u.inst σ) : ∀ g ∈ unifyArms t u, g.Solved σ := by
  have harm := simpleArm ht hu
  generalize unifyArms t u = gs at harm
  cases harm with
  | same | con | unitTuple | tupleUnit => simp
  | bindLeft v hne => simpa [Goal.Solved] using h
  | bindRight v hne => simpa [Goal.Solved] using h.symm
  | fn a b c d =>
    rw [inst_fn, inst_fn, Ty.fn.injEq] at h
    simpa [Goal.Solved] using h
  | app c d hlen =>
    rw [inst_app, inst_app, Ty.app.injEq] at h
    exact List.forall_mem_cons.2 ⟨h.1, solved_unifyZip h.2⟩
  | tuple hlen =>
    rw [inst_tuple, inst_tuple, Ty.tuple.injEq] at h
    exact solved_unifyZip h
  | array e f l m =>
    rw [inst_array, inst_array, Ty.array.injEq] at h
    simpa [Goal.Solved] using h.1
  | record hnames =>
    rw [inst_record, inst_record, Ty.record.injEq] at h
    refine solved_unifyZip ?_
    have := congrArg (fun fs ↦ (sortFields fs).map Prod.snd) h
    simpa [sortFields_map, Function.comp_def] using this
  | clash _ _ hne => exact absurd h (hne σ)

/-! ### Along a run -/

section Run

variable {s : Subst} {t₁ t₂ : Ty}

/-- A call on simple types stays in the fragment. -/
theorem simple_of_reached (hs : s.Simple) (h₁ : t₁.Simple) (h₂ : t₂.Simple)
    {st : Subst × List Goal} (h : Reached s t₁ t₂ st) :
    st.1.Simple ∧ ∀ g ∈ st.2, g.Simple := by
  unfold Reached at h
  induction h with
  | refl => exact ⟨hs, by simpa using ⟨h₁, h₂⟩⟩
  | @tail a b _ hstep ih =>
    obtain ⟨hsub, hgoals⟩ := ih
    cases hstep with
    | unify s₁ u₁ u₂ e gs =>
      obtain ⟨⟨hu₁, hu₂⟩, hrest⟩ := List.forall_mem_cons.1 hgoals
      refine ⟨hsub, fun g hg ↦ ?_⟩
      rcases List.mem_append.1 hg with hg | hg
      · exact simple_unifyArms (simple_applyTy hsub hu₁) (simple_applyTy hsub hu₂) g hg
      · exact hrest g hg
    | @bind s₁ v t s₂ gs hbind =>
      obtain ⟨⟨ht, -⟩, hrest⟩ := List.forall_mem_cons.1 hgoals
      obtain ⟨-, rfl⟩ := bindVar_ok hbind
      refine ⟨fun w u hw ↦ ?_, hrest⟩
      rw [Subst.get_insert, peelConstructorRefinement_of_simple ht] at hw
      split at hw
      · exact Option.some.inj hw ▸ simple_applyTy hsub ht
      · exact hsub w u hw

/-- At every binding of the call that passes the occurs check, the variable is not bound yet. -/
def FreshBinds (s : Subst) (t₁ t₂ : Ty) : Prop :=
  ∀ s' v t gs, Reached s t₁ t₂ (s', .bind v t :: gs) → v ∉ (peelConstructorRefinement t).ftv →
    s'.get v = none

/-- With fresh bindings a call keeps every binding it started with. -/
theorem get_of_reached (hfresh : FreshBinds s t₁ t₂) {st : Subst × List Goal}
    (h : Reached s t₁ t₂ st) {v : TyVarId} {t : Ty} (hv : s.get v = some t) :
    st.1.get v = some t := by
  unfold Reached at h
  induction h with
  | refl => exact hv
  | @tail a b hrun hstep ih =>
    cases hstep with
    | unify => exact ih
    | @bind s₁ w u s₂ gs hbind =>
      obtain ⟨hocc, rfl⟩ := bindVar_ok hbind
      have hne : v ≠ w := by
        rintro rfl
        have hnone := hfresh s₁ v u gs hrun hocc
        simp only at ih
        rw [hnone] at ih
        simp at ih
      rw [Subst.get_insert, if_neg hne]
      exact ih

/-- Instances that respect a substitution up to shape. -/
def ShapeModels (σ : TyVarId → Ty) (s : Subst) : Prop :=
  ∀ v t, s.get v = some t → SameShape (σ v) (t.inst σ)

/-- Instances that respect a substitution. -/
def Models (σ : TyVarId → Ty) (s : Subst) : Prop :=
  ∀ v t, s.get v = some t → σ v = t.inst σ

theorem ShapeModels.applyTy {σ : TyVarId → Ty} (h : ShapeModels σ s) {t : Ty} (ht : t.Simple) :
    SameShape ((applyTy s t).inst σ) (t.inst σ) := by
  rw [CoilLang.applyTy, inst_replace _ _ ht]
  refine sameShape_inst ht fun v ↦ ?_
  rcases hv : s.get v with - | u
  · rfl
  · exact (h v u hv).symm

theorem Models.inst_applyTy {σ : TyVarId → Ty} (h : Models σ s) {t : Ty} (ht : t.Simple) :
    (applyTy s t).inst σ = t.inst σ := by
  rw [applyTy, inst_replace _ _ ht]
  congr 1
  funext v
  rcases hv : s.get v with - | u
  · rfl
  · exact (h v u hv).symm

/-- **Success**, backwards along the run: an instance that respects the last substitution respects
every earlier one and makes the sides of every goal the same shape. -/
theorem shaped_of_steps {σ : TyVarId → Ty} (hs : s.Simple) (h₁ : t₁.Simple) (h₂ : t₂.Simple)
    (hfresh : FreshBinds s t₁ t₂) {s' : Subst} (hσ : ShapeModels σ s') {st : Subst × List Goal}
    (h : Relation.ReflTransGen Step st (s', [])) (hreach : Reached s t₁ t₂ st) :
    ShapeModels σ st.1 ∧ ∀ g ∈ st.2, g.Shaped σ := by
  induction h using Relation.ReflTransGen.head_induction_on with
  | refl => exact ⟨hσ, by simp⟩
  | @head a b hstep _ ih =>
    obtain ⟨hmod, hgoals⟩ := ih (hreach.tail hstep)
    obtain ⟨hsub, hsimple⟩ := simple_of_reached hs h₁ h₂ hreach
    cases hstep with
    | unify s₁ u₁ u₂ e gs =>
      obtain ⟨⟨hu₁, hu₂⟩, -⟩ := List.forall_mem_cons.1 hsimple
      refine ⟨hmod, List.forall_mem_cons.2 ⟨?_, fun g hg ↦ hgoals g (List.mem_append_right _ hg)⟩⟩
      have harms := sameShape_of_unifyArms (simple_applyTy hsub hu₁) (simple_applyTy hsub hu₂)
        fun g hg ↦ hgoals g (List.mem_append_left _ hg)
      exact ((hmod.applyTy hu₁).symm.trans harms).trans (hmod.applyTy hu₂)
    | @bind s₁ v t s₂ gs hbind =>
      obtain ⟨⟨ht, -⟩, -⟩ := List.forall_mem_cons.1 hsimple
      obtain ⟨hocc, rfl⟩ := bindVar_ok hbind
      have hnone := hfresh s₁ v t gs hreach hocc
      have hmod₁ : ShapeModels σ s₁ := by
        intro w u hw
        refine hmod w u ?_
        have hne : w ≠ v := by
          rintro rfl
          rw [hnone] at hw
          simp at hw
        rw [Subst.get_insert, if_neg hne, hw]
      refine ⟨hmod₁, List.forall_mem_cons.2 ⟨?_, hgoals⟩⟩
      have hv := hmod v _ (by rw [Subst.get_insert, if_pos rfl])
      rw [peelConstructorRefinement_of_simple ht] at hv
      exact hv.trans (hmod₁.applyTy ht)

/-- **Error**, forwards along the run: an instance that respects the substitution and solves the
goals keeps doing so, also where a variable is bound again. -/
theorem solved_of_reached {σ : TyVarId → Ty} (hs : s.Simple) (h₁ : t₁.Simple) (h₂ : t₂.Simple)
    (hσ : Models σ s) (heq : t₁.inst σ = t₂.inst σ) {st : Subst × List Goal}
    (h : Reached s t₁ t₂ st) : Models σ st.1 ∧ ∀ g ∈ st.2, g.Solved σ := by
  have hfrag := fun st ↦ @simple_of_reached s t₁ t₂ hs h₁ h₂ st
  unfold Reached at h hfrag
  induction h with
  | refl => exact ⟨hσ, by simpa [Goal.Solved] using heq⟩
  | @tail a b hrun hstep ih =>
    obtain ⟨hmod, hgoals⟩ := ih
    obtain ⟨hsub, hsimple⟩ := hfrag a hrun
    cases hstep with
    | unify s₁ u₁ u₂ e gs =>
      obtain ⟨⟨hu₁, hu₂⟩, -⟩ := List.forall_mem_cons.1 hsimple
      obtain ⟨hu, hrest⟩ := List.forall_mem_cons.1 hgoals
      refine ⟨hmod, fun g hg ↦ ?_⟩
      rcases List.mem_append.1 hg with hg | hg
      · refine solved_unifyArms (simple_applyTy hsub hu₁) (simple_applyTy hsub hu₂) ?_ g hg
        rw [hmod.inst_applyTy hu₁, hmod.inst_applyTy hu₂]
        exact hu
      · exact hrest g hg
    | @bind s₁ v t s₂ gs hbind =>
      obtain ⟨⟨ht, -⟩, -⟩ := List.forall_mem_cons.1 hsimple
      obtain ⟨hv, hrest⟩ := List.forall_mem_cons.1 hgoals
      obtain ⟨-, rfl⟩ := bindVar_ok hbind
      refine ⟨fun w u hw ↦ ?_, hrest⟩
      rw [Subst.get_insert, peelConstructorRefinement_of_simple ht] at hw
      split at hw
      · rename_i hwv
        rw [← Option.some.inj hw, hmod.inst_applyTy ht, hwv]
        exact hv
      · exact hmod w u hw

/-- A goal that an instance solves does not fail: a variable inside a larger type has a smaller
instance than the type. -/
theorem not_fails_of_solved {σ : TyVarId → Ty} {g : Goal} (hg : g.Simple) (h : g.Solved σ) :
    ¬ g.Fails s := by
  cases g with
  | unify => exact fun hf ↦ hf
  | fail => exact fun _ ↦ h
  | bind v t =>
    rintro ⟨e, he⟩
    obtain ⟨ht, hne⟩ := hg
    by_cases hocc : v ∈ t.ftv
    · have hlt := (eq_var_or_sizeOf_inst_lt σ ht hocc).resolve_left hne
      rw [show σ v = t.inst σ from h] at hlt
      exact absurd hlt (lt_irrefl _)
    · rw [bindVar_of_not_mem (by rwa [peelConstructorRefinement_of_simple ht])] at he
      simp at he

/-- Only a binding that leads back to its variable can close a cycle. -/
theorem acyclic_properEdge_of_reached (hs : Relation.Acyclic s.ProperEdge)
    (hc : ChainsChecked s t₁ t₂) {st : Subst × List Goal} (h : Reached s t₁ t₂ st) :
    Relation.Acyclic st.1.ProperEdge := by
  unfold Reached at h
  induction h with
  | refl => exact hs
  | @tail a b hrun hstep ih =>
    cases hstep with
    | unify => exact ih
    | @bind s₁ v t s₂ gs hbind =>
      obtain ⟨hocc, rfl⟩ := bindVar_ok hbind
      exact Subst.acyclic_properEdge_insert ih (hc s₁ v t gs hrun hocc)

end Run

/-! ### The pruned types as an instance -/

/-- Applying a substitution that changes nothing any more. -/
def Subst.Idempotent (s : Subst) : Prop :=
  ∀ v t, s.get v = some t → applyTy s t = t

/-- An idempotent substitution has no chain of two bindings that change something. -/
theorem Subst.Idempotent.acyclic {s : Subst} (hs : s.Simple) (hidem : s.Idempotent) :
    Relation.Acyclic s.ProperEdge := by
  have hend : ∀ u v w, s.ProperEdge u v → ¬ s.ProperEdge v w := by
    rintro u v w ⟨-, t, ht, hv⟩ ⟨hne, x, hx, -⟩
    have := fixes_of_replace_eq (hs u t ht) (hidem u t ht) v hv
    rw [hx, Option.getD_some] at this
    exact hne (by rw [hx, this])
  intro u hu
  obtain ⟨v, huv, hvu⟩ := Relation.TransGen.head'_iff.1 hu
  rcases Relation.ReflTransGen.cases_head hvu with rfl | ⟨w, hvw, -⟩
  · exact hend v v v huv huv
  · exact hend u v w huv hvw

/-- Rounds of applications act as an instance of the variables. -/
theorem iterate_applyTy_eq_inst {s : Subst} (hs : s.Simple) (n : ℕ) {t : Ty} (ht : t.Simple) :
    (applyTy s)^[n] t = t.inst fun v ↦ (applyTy s)^[n] (.var v) := by
  induction n generalizing t with
  | zero => exact (Ty.replace_of_fixes t fun v _ ↦ rfl).symm
  | succ n ih =>
    rw [Function.iterate_succ_apply, ih (simple_applyTy hs ht), applyTy, inst_replace _ _ ht]
    congr 1
    funext v
    rw [Function.iterate_succ_apply]
    exact (ih (simple_applyTy hs (t := .var v) (by simp))).symm

/-- Enough rounds respect the substitution. -/
theorem models_iterate {s : Subst} (hs : s.Simple) {n : ℕ}
    (hn : ∀ t, applyTy s ((applyTy s)^[n] t) = (applyTy s)^[n] t) :
    Models (fun v ↦ (applyTy s)^[n] (.var v)) s := by
  intro v t hv
  rw [← iterate_applyTy_eq_inst hs n (hs v t hv)]
  have happ : applyTy s (.var v) = t := by simp [applyTy, hv]
  rw [← happ, ← Function.iterate_succ_apply, Function.iterate_succ_apply', hn]

/-! ### Soundness -/

end CoilLang
