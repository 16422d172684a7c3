import CoilLang.Typechecking.Unify

/-!
# The first-order types

Types built from variables, constructors, functions, applications, tuples, arrays and records:
everything unification compares part by part. A property of all of them is proved by
`Ty.simple_induction`, over the parts of a type as members of its lists.

Two types count as *the same shape* when they are equal once array lengths are dropped, record
fields are put in order of their names and `unit` is written `()` (`Ty.canon true`); dropping the
lengths alone is `Ty.canon false`.
-/

namespace CoilLang

/-! ### Traversals as maps -/

theorem replaceTys_eq_map (f : TyVarId → Option Ty) (ts : List Ty) :
    replaceTys f ts = ts.map (Ty.replace f) := by
  induction ts with
  | nil => simp
  | cons t ts ih => simp [ih]

theorem replaceFields_eq_map (f : TyVarId → Option Ty) (fs : List (String × Ty)) :
    replaceFields f fs = fs.map fun g ↦ (g.1, g.2.replace f) := by
  induction fs with
  | nil => simp
  | cons g fs ih => simp [ih]

theorem mem_ftvTys {v : TyVarId} {ts : List Ty} : v ∈ ftvTys ts ↔ ∃ t ∈ ts, v ∈ t.ftv := by
  induction ts with
  | nil => simp
  | cons t ts ih => simp [ih]

theorem mem_ftvFields {v : TyVarId} {fs : List (String × Ty)} :
    v ∈ ftvFields fs ↔ ∃ f ∈ fs, v ∈ f.2.ftv := by
  induction fs with
  | nil => simp
  | cons f fs ih => simp [ih]

/-! ### The fragment -/

mutual

/-- Built from variables, constructors, functions, applications, tuples, arrays and records. -/
def Ty.Simple : Ty → Prop
  | .var _ | .con _ => True
  | .fn a b => a.Simple ∧ b.Simple
  | .app h as => h.Simple ∧ SimpleTys as
  | .tuple ts => SimpleTys ts
  | .array e _ => e.Simple
  | .record fs => SimpleFields fs
  | _ => False

def SimpleTys : List Ty → Prop
  | [] => True
  | t :: ts => t.Simple ∧ SimpleTys ts

def SimpleFields : List (String × Ty) → Prop
  | [] => True
  | (_, t) :: fs => t.Simple ∧ SimpleFields fs

end

theorem simpleTys_iff {ts : List Ty} : SimpleTys ts ↔ ∀ t ∈ ts, t.Simple := by
  induction ts with
  | nil => simp [SimpleTys]
  | cons t ts ih => simp [SimpleTys, ih]

theorem simpleFields_iff {fs : List (String × Ty)} : SimpleFields fs ↔ ∀ f ∈ fs, f.2.Simple := by
  induction fs with
  | nil => simp [SimpleFields]
  | cons f fs ih => simp [SimpleFields, ih]

attribute [simp] Ty.Simple

/-- **Induction on simple types.** -/
@[elab_as_elim]
theorem Ty.simple_induction {motive : (t : Ty) → t.Simple → Prop}
    (var : ∀ v, motive (.var v) trivial) (con : ∀ a, motive (.con a) trivial)
    (fn : ∀ a b h, motive a (And.left h) → motive b (And.right h) → motive (.fn a b) h)
    (app : ∀ c as h, motive c (And.left h) →
      (∀ a, ∀ ha : a ∈ as, motive a (simpleTys_iff.1 (And.right h) a ha)) → motive (.app c as) h)
    (tuple : ∀ ts h, (∀ t, ∀ ht : t ∈ ts, motive t (simpleTys_iff.1 h t ht)) →
      motive (.tuple ts) h)
    (array : ∀ e l h, motive e h → motive (.array e l) h)
    (record : ∀ fs h, (∀ f, ∀ hf : f ∈ fs, motive f.2 (simpleFields_iff.1 h f hf)) →
      motive (.record fs) h)
    (t : Ty) (h : t.Simple) : motive t h := by
  match t, h with
  | .var v, _ => exact var v
  | .con a, _ => exact con a
  | .fn a b, h =>
    exact fn a b h (Ty.simple_induction var con fn app tuple array record a h.1)
      (Ty.simple_induction var con fn app tuple array record b h.2)
  | .app c as, h =>
    refine app c as h (Ty.simple_induction var con fn app tuple array record c h.1) fun a ha ↦ ?_
    exact Ty.simple_induction var con fn app tuple array record a (simpleTys_iff.1 h.2 a ha)
  | .tuple ts, h =>
    refine tuple ts h fun t ht ↦ ?_
    exact Ty.simple_induction var con fn app tuple array record t (simpleTys_iff.1 h t ht)
  | .array e l, h =>
    exact array e l h (Ty.simple_induction var con fn app tuple array record e h)
  | .record fs, h =>
    refine record fs h fun f hf ↦ ?_
    exact Ty.simple_induction var con fn app tuple array record f.2 (simpleFields_iff.1 h f hf)
termination_by sizeOf t
decreasing_by
  all_goals simp only [Ty.fn.sizeOf_spec, Ty.app.sizeOf_spec, Ty.tuple.sizeOf_spec,
    Ty.array.sizeOf_spec, Ty.record.sizeOf_spec]
  · omega
  · omega
  · omega
  · have := List.sizeOf_lt_of_mem ha
    omega
  · have := List.sizeOf_lt_of_mem ht
    omega
  · omega
  · have h₁ := List.sizeOf_lt_of_mem hf
    have h₂ : sizeOf f.2 < sizeOf f := by
      rcases f with ⟨n, t⟩
      simp only [Prod.mk.sizeOf_spec]
      omega
    omega

/-! ### Instances -/

/-- Replace every variable. -/
def Ty.inst (σ : TyVarId → Ty) (t : Ty) : Ty :=
  t.replace fun v ↦ some (σ v)

section Inst

variable (σ : TyVarId → Ty)

@[simp] theorem inst_var (v : TyVarId) : (Ty.var v).inst σ = σ v := rfl

@[simp] theorem inst_con (a : String) : (Ty.con a).inst σ = .con a := by simp [Ty.inst]

@[simp] theorem inst_fn (a b : Ty) : (Ty.fn a b).inst σ = .fn (a.inst σ) (b.inst σ) := by
  simp [Ty.inst]

@[simp] theorem inst_app (c : Ty) (as : List Ty) :
    (Ty.app c as).inst σ = .app (c.inst σ) (as.map (Ty.inst σ)) := by
  simp only [Ty.inst, Ty.replace, replaceTys_eq_map]
  rfl

@[simp] theorem inst_tuple (ts : List Ty) : (Ty.tuple ts).inst σ = .tuple (ts.map (Ty.inst σ)) := by
  simp only [Ty.inst, Ty.replace, replaceTys_eq_map]
  rfl

@[simp] theorem inst_array (e : Ty) (l : ArrayLength) :
    (Ty.array e l).inst σ = .array (e.inst σ) l := by
  simp [Ty.inst]

@[simp] theorem inst_record (fs : List (String × Ty)) :
    (Ty.record fs).inst σ = .record (fs.map fun f ↦ (f.1, f.2.inst σ)) := by
  simp only [Ty.inst, Ty.replace, replaceFields_eq_map]

end Inst

theorem simple_replace {f : TyVarId → Option Ty} {t : Ty} (ht : t.Simple)
    (hf : ∀ v u, f v = some u → u.Simple) : (t.replace f).Simple := by
  induction t, ht using Ty.simple_induction with
  | var v =>
    rcases h : f v with - | u
    · simp [h]
    · simpa [h] using hf v u h
  | con a => simp
  | fn a b _ iha ihb => simpa using ⟨iha, ihb⟩
  | app c as _ ihc ih =>
    simp only [Ty.replace, Ty.Simple, simpleTys_iff, replaceTys_eq_map, List.mem_map]
    refine ⟨ihc, ?_⟩
    rintro _ ⟨a, ha, rfl⟩
    exact ih a ha
  | tuple ts _ ih =>
    simp only [Ty.replace, Ty.Simple, simpleTys_iff, replaceTys_eq_map, List.mem_map]
    rintro _ ⟨t, ht, rfl⟩
    exact ih t ht
  | array e l _ ih => simpa using ih
  | record fs _ ih =>
    simp only [Ty.replace, Ty.Simple, simpleFields_iff, replaceFields_eq_map, List.mem_map]
    rintro _ ⟨f, hf, rfl⟩
    exact ih f hf

/-- Instances compose: replacing and then instantiating is one instance. -/
theorem inst_replace (f : TyVarId → Option Ty) (σ : TyVarId → Ty) {t : Ty} (ht : t.Simple) :
    (t.replace f).inst σ = t.inst fun v ↦ ((f v).getD (.var v)).inst σ := by
  induction t, ht using Ty.simple_induction with
  | var v => simp
  | con a => simp
  | fn a b _ iha ihb => simp [iha, ihb]
  | app c as _ ihc ih =>
    simp only [Ty.replace, replaceTys_eq_map, inst_app, ihc, List.map_map, Ty.app.injEq, true_and]
    exact List.map_congr_left ih
  | tuple ts _ ih =>
    simp only [Ty.replace, replaceTys_eq_map, inst_tuple, List.map_map, Ty.tuple.injEq]
    exact List.map_congr_left ih
  | array e l _ ih => simp [ih]
  | record fs _ ih =>
    simp only [Ty.replace, replaceFields_eq_map, inst_record, List.map_map, Ty.record.injEq]
    refine List.map_congr_left fun f hf ↦ ?_
    simp [ih f hf]

theorem eq_of_map_eq_self {α : Type*} {f : α → α} {l : List α} (h : l.map f = l) :
    ∀ a ∈ l, f a = a :=
  List.map_eq_map_iff.1 (h.trans (List.map_id l).symm)

/-- A simple type that a replacement leaves as it is has no variable it changes. -/
theorem fixes_of_replace_eq {f : TyVarId → Option Ty} {t : Ty} (ht : t.Simple)
    (h : t.replace f = t) : Fixes f t.ftv := by
  induction t, ht using Ty.simple_induction with
  | var v => simpa [Fixes] using h
  | con a => simp [Fixes]
  | fn a b _ iha ihb =>
    simp only [Ty.replace, Ty.fn.injEq] at h
    exact fixes_append.2 ⟨iha h.1, ihb h.2⟩
  | app c as _ ihc ih =>
    simp only [Ty.replace, replaceTys_eq_map, Ty.app.injEq] at h
    refine fixes_append.2 ⟨ihc h.1, fun v hv ↦ ?_⟩
    obtain ⟨a, ha, hva⟩ := mem_ftvTys.1 hv
    exact ih a ha (eq_of_map_eq_self h.2 a ha) v hva
  | tuple ts _ ih =>
    simp only [Ty.replace, replaceTys_eq_map, Ty.tuple.injEq] at h
    intro v hv
    obtain ⟨t, ht, hvt⟩ := mem_ftvTys.1 hv
    exact ih t ht (eq_of_map_eq_self h t ht) v hvt
  | array e l _ ih =>
    simp only [Ty.replace, Ty.array.injEq, and_true] at h
    exact ih h
  | record fs _ ih =>
    simp only [Ty.replace, replaceFields_eq_map, Ty.record.injEq] at h
    intro v hv
    obtain ⟨f, hf, hvf⟩ := mem_ftvFields.1 hv
    exact ih f hf (congrArg Prod.snd (eq_of_map_eq_self h f hf)) v hvf

/-- A variable's instance is smaller than the instance of a larger type it occurs in. -/
theorem eq_var_or_sizeOf_inst_lt (σ : TyVarId → Ty) {t : Ty} (ht : t.Simple) {v : TyVarId}
    (hv : v ∈ t.ftv) : t = .var v ∨ sizeOf (σ v) < sizeOf (t.inst σ) := by
  have hle : ∀ t : Ty, (t = .var v ∨ sizeOf (σ v) < sizeOf (t.inst σ)) →
      sizeOf (σ v) ≤ sizeOf (t.inst σ) := by
    rintro t (rfl | h)
    · exact le_rfl
    · exact h.le
  induction t, ht using Ty.simple_induction with
  | var w =>
    simp only [Ty.ftv, List.mem_singleton] at hv
    exact Or.inl (by rw [hv])
  | con a => simp at hv
  | fn a b _ iha ihb =>
    refine Or.inr ?_
    simp only [inst_fn, Ty.fn.sizeOf_spec]
    rcases List.mem_append.1 hv with hv | hv
    · have := hle _ (iha hv)
      omega
    · have := hle _ (ihb hv)
      omega
  | app c as _ ihc ih =>
    refine Or.inr ?_
    simp only [inst_app, Ty.app.sizeOf_spec]
    rcases List.mem_append.1 hv with hv | hv
    · have := hle _ (ihc hv)
      omega
    · obtain ⟨a, ha, hva⟩ := mem_ftvTys.1 hv
      have h₁ := hle _ (ih a ha hva)
      have h₂ := List.sizeOf_lt_of_mem (List.mem_map_of_mem (f := Ty.inst σ) ha)
      omega
  | tuple ts _ ih =>
    obtain ⟨t, ht, hvt⟩ := mem_ftvTys.1 hv
    have h₁ := hle _ (ih t ht hvt)
    have h₂ := List.sizeOf_lt_of_mem (List.mem_map_of_mem (f := Ty.inst σ) ht)
    refine Or.inr ?_
    simp only [inst_tuple, Ty.tuple.sizeOf_spec]
    omega
  | array e l _ ih =>
    have := hle _ (ih hv)
    refine Or.inr ?_
    simp only [inst_array, Ty.array.sizeOf_spec]
    omega
  | record fs _ ih =>
    obtain ⟨f, hf, hvf⟩ := mem_ftvFields.1 hv
    have h₁ := hle _ (ih f hf hvf)
    have h₂ := List.sizeOf_lt_of_mem
      (List.mem_map_of_mem (f := fun f : String × Ty ↦ (f.1, f.2.inst σ)) hf)
    simp only [Prod.mk.sizeOf_spec] at h₂
    refine Or.inr ?_
    simp only [inst_record, Ty.record.sizeOf_spec]
    omega

/-! ### Types of the same shape -/

mutual

/-- A type without its array lengths and, when `loose`, with its record fields in order of their
names and `unit` written `()`. -/
def Ty.canon (loose : Bool) : Ty → Ty
  | .con a => if loose && a == unitName then .tuple [] else .con a
  | .fn a b => .fn (a.canon loose) (b.canon loose)
  | .app c as => .app (c.canon loose) (canonTys loose as)
  | .tuple ts => .tuple (canonTys loose ts)
  | .array e _ => .array (e.canon loose) .dynamic
  | .record fs =>
    .record (if loose then sortFields (canonFields loose fs) else canonFields loose fs)
  | t => t

def canonTys (loose : Bool) : List Ty → List Ty
  | [] => []
  | t :: ts => t.canon loose :: canonTys loose ts

def canonFields (loose : Bool) : List (String × Ty) → List (String × Ty)
  | [] => []
  | (n, t) :: fs => (n, t.canon loose) :: canonFields loose fs

end

theorem canonTys_eq_map (loose : Bool) (ts : List Ty) :
    canonTys loose ts = ts.map (Ty.canon loose) := by
  induction ts with
  | nil => simp [canonTys]
  | cons t ts ih => simp [canonTys, ih]

theorem canonFields_eq_map (loose : Bool) (fs : List (String × Ty)) :
    canonFields loose fs = fs.map fun f ↦ (f.1, f.2.canon loose) := by
  induction fs with
  | nil => simp [canonFields]
  | cons f fs ih => simp [canonFields, ih]

/-- Sorting fields by name commutes with changing their types. -/
theorem sortFields_map (g : Ty → Ty) (fs : List (String × Ty)) :
    sortFields (fs.map fun f ↦ (f.1, g f.2)) = (sortFields fs).map fun f ↦ (f.1, g f.2) := by
  symm
  unfold sortFields
  exact List.map_insertionSort _ _ (fun f : String × Ty ↦ (f.1, g f.2)) fs fun _ _ _ _ ↦ Iff.rfl

/-- Two types of the same shape. -/
def SameShape (t u : Ty) : Prop :=
  t.canon true = u.canon true

instance (t u : Ty) : Decidable (SameShape t u) :=
  inferInstanceAs (Decidable (_ = _))

/-- The shape of an instance depends on the shapes of the variables' instances alone. -/
theorem sameShape_inst {σ τ : TyVarId → Ty} {t : Ty} (ht : t.Simple)
    (h : ∀ v, SameShape (σ v) (τ v)) : SameShape (t.inst σ) (t.inst τ) := by
  induction t, ht using Ty.simple_induction with
  | var v => exact h v
  | con a => rfl
  | fn a b _ iha ihb =>
    simp only [SameShape, inst_fn, Ty.canon, Ty.fn.injEq] at iha ihb ⊢
    exact ⟨iha, ihb⟩
  | app c as _ ihc ih =>
    simp only [SameShape, inst_app, Ty.canon, canonTys_eq_map, List.map_map, Ty.app.injEq]
    exact ⟨ihc, List.map_congr_left ih⟩
  | tuple ts _ ih =>
    simp only [SameShape, inst_tuple, Ty.canon, canonTys_eq_map, List.map_map, Ty.tuple.injEq]
    exact List.map_congr_left ih
  | array e l _ ih =>
    simp only [SameShape, inst_array, Ty.canon, Ty.array.injEq, and_true] at ih ⊢
    exact ih
  | record fs _ ih =>
    simp only [SameShape, inst_record, Ty.canon, canonFields_eq_map, List.map_map, if_true,
      Ty.record.injEq]
    congr 1
    refine List.map_congr_left fun f hf ↦ ?_
    have := ih f hf
    simp only [SameShape] at this
    simp [this]

end CoilLang
