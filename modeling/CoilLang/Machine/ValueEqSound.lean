import CoilLang.Machine.ValueEqWalk

/-!
# When equality of values is equality of contents

On acyclic values the walk of `==` ends, and its answer is a fact about two things: whether the contents
are equal, and whether the objects the two sides lead to in step are paired **one to one**. An object that
one side shares and the other side holds in two equal copies stands opposite two objects, and the walk
answers `false` although the contents are equal. `valuesEq_structural_iff` says that nothing else goes
wrong: the answer is equality of contents exactly when equal contents are paired one to one.
-/

namespace CoilLang.Machine.ValueEq

open Snapshot (Obj Member Heap)

/-! ### The walk without memory -/

section Flat

/-- Two objects whose contents may be equal. -/
def Alike (u v : View) : Prop :=
  (∃ s, u = .text s ∧ v = .text s) ∨
    ∃ l ps qs, u = .node l ps ∧ v = .node l qs ∧ ps.length = qs.length

/-- Equal contents of distinct words lie in objects that are alike. -/
theorem alike_of_same {h : Heap} {a b : ℕ} {t : Tree} (hne : a ≠ b) (ea : a % 2 = 0)
    (eb : b % 2 = 0) (ha : HasTree h a t) (hb : HasTree h b t) :
    ∃ oa ob, h.find a = some oa ∧ h.find b = some ob ∧ Alike (view oa) (view ob) := by
  rcases even_cases h a with ⟨oa, s, fa, va⟩ | ⟨oa, l, ps, fa, va⟩ | hla
  · cases ha.of_text ea fa va
    rcases even_cases h b with ⟨ob, s', fb, vb⟩ | ⟨ob, l', qs, fb, vb⟩ | hlb
    · cases hb.of_text eb fb vb
      exact ⟨oa, ob, fa, fb, .inl ⟨s, va, vb⟩⟩
    · obtain ⟨us, hus, -⟩ := hb.of_node eb fb vb
      cases hus
    · cases hb.of_leaf eb hlb
  · obtain ⟨ts, rfl, hts⟩ := ha.of_node ea fa va
    rcases even_cases h b with ⟨ob, s', fb, vb⟩ | ⟨ob, l', qs, fb, vb⟩ | hlb
    · cases hb.of_text eb fb vb
    · obtain ⟨us, hus, hqs⟩ := hb.of_node eb fb vb
      cases hus
      exact ⟨oa, ob, fa, fb, .inr ⟨l, ps, qs, va, vb, by rw [hts.length_eq, hqs.length_eq]⟩⟩
    · cases hb.of_leaf eb hlb
  · cases ha.of_leaf ea hla
    exact absurd hb.word_eq hne

/-- The objects of the flat walk. -/
def flatObjects (f : ℕ → ℕ → Option (Option Bool)) (oa ob : Obj) : Option (Option Bool) :=
  match oa, ob with
  | .string s, .string t => some (some (s == t))
  | .enum tag _ _ xs, .enum tag' _ _ ys =>
    if tag ≠ tag' ∨ xs.length ≠ ys.length then some (some false)
    else
      match xs, ys with
      | [], [] => some (some true)
      | [x], [y] => f x y
      | _, _ => some none
  | .array _ _, _ => some none
  | .bytes _, _ => some none
  | .tuple _ _, _ => some none
  | .boxed _ _, _ => some none
  | .instance typeId slots, .instance typeId' slots' =>
    if (recordSlots typeId slots typeId' slots').isSome then some none else some (some false)
  | _, _ => some (some false)

theorem view_instance {typeId : ℕ} {slots : Option (List ℕ)} {l : Label} {ps : List ℕ}
    (hv : view (.instance typeId slots) = .node l ps) :
    slots = some ps ∧ isRecordTypeId typeId = true ∧ l = .record := by
  rcases view_node hv with ⟨_, h', -⟩ | ⟨_, h', -⟩ | ⟨_, h', -⟩ | ⟨_, _, _, h', -⟩ |
    ⟨_, _, h', -⟩ | ⟨_, h', hr, hl⟩ <;> cases h'
  exact ⟨rfl, hr, hl⟩

/-- What the flat walk makes of two objects. -/
theorem flatObjects_cases (f : ℕ → ℕ → Option (Option Bool)) (oa ob : Obj) :
    (∃ s t, view oa = .text s ∧ view ob = .text t ∧ flatObjects f oa ob = some (some (s == t))) ∨
    (∃ l, view oa = .node l [] ∧ view ob = .node l [] ∧ flatObjects f oa ob = some (some true)) ∨
    (∃ l x y, view oa = .node l [x] ∧ view ob = .node l [y] ∧ flatObjects f oa ob = f x y) ∨
    flatObjects f oa ob = some none ∨
    (flatObjects f oa ob = some (some false) ∧ ¬ Alike (view oa) (view ob)) := by
  cases oa with
  | array _ _ => exact .inr (.inr (.inr (.inl rfl)))
  | bytes _ => exact .inr (.inr (.inr (.inl rfl)))
  | tuple _ _ => exact .inr (.inr (.inr (.inl rfl)))
  | boxed _ _ => exact .inr (.inr (.inr (.inl rfl)))
  | other _ =>
    refine .inr (.inr (.inr (.inr ⟨by cases ob <;> rfl, ?_⟩)))
    rintro (⟨s', hu, -⟩ | ⟨l, ps, qs, hu, -⟩) <;> cases hu
  | string s =>
    by_cases hb : ∃ t, ob = .string t
    · obtain ⟨t, rfl⟩ := hb
      exact .inl ⟨s, t, rfl, rfl, rfl⟩
    · refine .inr (.inr (.inr (.inr ⟨?_, ?_⟩)))
      · cases ob <;> first | rfl | exact absurd ⟨_, rfl⟩ hb
      · rintro (⟨s', -, hv⟩ | ⟨l, ps, qs, hu, -⟩)
        · exact hb ⟨s', view_text hv⟩
        · cases hu
  | enum tag k x xs =>
    by_cases hb : ∃ tag' k' x' ys, ob = .enum tag' k' x' ys
    · obtain ⟨tag', k', x', ys, rfl⟩ := hb
      by_cases hc : tag ≠ tag' ∨ xs.length ≠ ys.length
      · refine .inr (.inr (.inr (.inr ⟨if_pos hc, ?_⟩)))
        rintro (⟨s', hv, -⟩ | ⟨l, ps, qs, hu, hv, hl⟩)
        · cases hv
        · cases hu
          cases hv
          simp [hl] at hc
      · have heq : flatObjects f (.enum tag k x xs) (.enum tag' k' x' ys) = _ := if_neg hc
        rw [heq]
        simp only [not_or, not_not] at hc
        obtain ⟨rfl, hl⟩ := hc
        match xs, ys, hl with
        | [], [], _ => exact .inr (.inl ⟨_, rfl, rfl, rfl⟩)
        | [x], [y], _ => exact .inr (.inr (.inl ⟨_, x, y, rfl, rfl, rfl⟩))
        | _ :: _ :: _, _ :: _ :: _, _ => exact .inr (.inr (.inr (.inl rfl)))
    · refine .inr (.inr (.inr (.inr ⟨?_, ?_⟩)))
      · cases ob <;> first | rfl | exact absurd ⟨_, _, _, _, rfl⟩ hb
      · rintro (⟨s', hu, -⟩ | ⟨l, ps, qs, hu, hv, -⟩)
        · cases hu
        · cases hu
          rcases view_node hv with ⟨_, -, h', -⟩ | ⟨_, -, h'⟩ | ⟨_, -, h'⟩ | ⟨_, _, _, rfl, -⟩ |
            ⟨_, _, -, h', -⟩ | ⟨_, -, -, h'⟩
          all_goals first | cases h' | exact hb ⟨_, _, _, _, rfl⟩
  | «instance» typeId slots =>
    by_cases hb : ∃ typeId' slots', ob = .instance typeId' slots'
    · obtain ⟨typeId', slots', rfl⟩ := hb
      by_cases hc : (recordSlots typeId slots typeId' slots').isSome
      · exact .inr (.inr (.inr (.inl (if_pos hc))))
      · refine .inr (.inr (.inr (.inr ⟨if_neg hc, ?_⟩)))
        rintro (⟨s', hu, -⟩ | ⟨l, ps, qs, hu, hv, hl⟩)
        · cases view_text hu
        · obtain ⟨rfl, hr, -⟩ := view_instance hu
          obtain ⟨rfl, hr', -⟩ := view_instance hv
          exact hc (by simp [recordSlots, hr, hr', hl])
    · refine .inr (.inr (.inr (.inr ⟨?_, ?_⟩)))
      · cases ob <;> first | rfl | exact absurd ⟨_, _, rfl⟩ hb
      · rintro (⟨s', hu, -⟩ | ⟨l, ps, qs, hu, hv, -⟩)
        · cases view_text hu
        · obtain ⟨-, -, rfl⟩ := view_instance hu
          rcases view_node hv with ⟨_, -, h', -⟩ | ⟨_, -, h'⟩ | ⟨_, -, h'⟩ | ⟨_, _, _, -, h'⟩ |
            ⟨_, _, -, h', -⟩ | ⟨_, rfl, -, -⟩
          all_goals first | cases h' | exact hb ⟨_, _, rfl⟩
/-- A pair on top of others, larger than they are on both sides. -/
theorem oneToOne_on_top {R S : ℕ → ℕ → Prop} {a b : ℕ} (hR : OneToOne R)
    (hS : ∀ x y, S x y ↔ (x = a ∧ y = b) ∨ R x y) (hnot : ∀ x y, R x y → x ≠ a ∧ y ≠ b) :
    OneToOne S := by
  intro x y x' y' h₁ h₂
  rcases (hS x y).mp h₁ with ⟨rfl, rfl⟩ | h₁ <;> rcases (hS x' y').mp h₂ with ⟨rfl, rfl⟩ | h₂
  · simp
  · have := hnot x' y' h₂
    exact ⟨fun he ↦ absurd he.symm this.1, fun he ↦ absurd he.symm this.2⟩
  · have := hnot x y h₁
    exact ⟨fun he ↦ absurd he this.1, fun he ↦ absurd he this.2⟩
  · exact hR x y x' y' h₁ h₂

theorem oneToOne_pair {S : ℕ → ℕ → Prop} {a b : ℕ} (hS : ∀ x y, S x y ↔ x = a ∧ y = b) :
    OneToOne S :=
  oneToOne_on_top (R := fun _ _ ↦ False) (a := a) (b := b) (fun _ _ _ _ h₁ ↦ h₁.elim)
    (fun x y ↦ by simp [hS x y]) fun _ _ h₁ ↦ h₁.elim

/-- The flat walk ends; where it answers, it says whether `same` holds, and if so `R` is one to one. -/
def Answers (R : ℕ → ℕ → Prop) (same : Prop) (res : Option (Option Bool)) : Prop :=
  ∃ ans, res = some ans ∧ (ans = some true → same ∧ OneToOne R) ∧ (ans = some false → ¬ same)

theorem Answers.of_true {R : ℕ → ℕ → Prop} {same : Prop} (hsame : same) (hR : OneToOne R) :
    Answers R same (some (some true)) :=
  ⟨_, rfl, fun _ ↦ ⟨hsame, hR⟩, fun hr ↦ by cases hr⟩

theorem Answers.of_false {R : ℕ → ℕ → Prop} {same : Prop} (hnot : ¬ same) :
    Answers R same (some (some false)) :=
  ⟨_, rfl, fun hr ↦ (by cases hr), fun _ ↦ hnot⟩

theorem Answers.imp {R S : ℕ → ℕ → Prop} {same same' : Prop} {res : Option (Option Bool)}
    (hres : Answers R same res) (hiff : same ↔ same') (hone : same → OneToOne R → OneToOne S) :
    Answers S same' res := by
  obtain ⟨ans, hans, htrue, hfalse⟩ := hres
  exact ⟨ans, hans, fun hr ↦ ⟨hiff.mp (htrue hr).1, hone (htrue hr).1 (htrue hr).2⟩,
    fun hr hs ↦ hfalse hr (hiff.mpr hs)⟩

theorem flatEq_spec (h : PagedHeap) {n a b : ℕ} {ta tb : Tree}
    (hua : unfold h.toHeap n a = some ta) (hb : HasTree h.toHeap b tb) :
    Answers (Meets h.toHeap a b) (ta = tb) (flatEq h.toHeap n a b) := by
  induction n generalizing a b ta tb with
  | zero => cases hua
  | succ n ih =>
    have ha : HasTree h.toHeap a ta := ⟨n + 1, hua⟩
    rw [flatEq]
    by_cases hab : a = b
    · subst hab
      rw [if_pos rfl]
      exact .of_true (ha.unique hb) fun _ _ _ _ h₁ ↦ absurd h₁ not_meets_self
    rw [if_neg hab]
    by_cases hz : a = 0 ∨ b = 0 ∨ a % 2 ≠ b % 2
    · rw [if_pos hz]
      refine .of_false ?_
      rcases or_assoc.mpr hz with hz | hp
      · exact h.tree_ne_of_zero hab hz ha hb
      · rintro rfl
        exact hp (ha.parity hb)
    rw [if_neg hz]
    simp only [not_or, not_not] at hz
    obtain ⟨-, -, hp⟩ := hz
    by_cases ho : a % 2 = 0
    swap
    · have ho' : b % 2 ≠ 0 := hp ▸ ho
      rw [if_pos ho]
      rw [unfold_odd ho, Option.map_eq_some_iff] at hua
      obtain ⟨ta', hua, rfl⟩ := hua
      obtain ⟨tb', hb', rfl⟩ := (hasTree_odd_iff ho').mp hb
      refine (ih hua hb').imp (by rw [Tree.err.injEq]) fun _ hone ↦ ?_
      exact hone.mono fun x y ↦ (meets_odd_iff hab ho ho').mp
    have ho' : b % 2 = 0 := hp ▸ ho
    rw [if_neg (not_not.mpr ho)]
    -- Distinct words with equal contents have objects, and these are alike.
    have halike : ta = tb → ∃ oa ob, h.toHeap.find a = some oa ∧ h.toHeap.find b = some ob ∧
        Alike (view oa) (view ob) := by
      rintro rfl
      exact alike_of_same hab ho ho' ha hb
    cases fa : h.toHeap.find a with
    | none =>
      refine .of_false fun hsame ↦ ?_
      obtain ⟨oa, ob, fa', -, -⟩ := halike hsame
      rw [fa] at fa'
      cases fa'
    | some oa =>
      cases fb : h.toHeap.find b with
      | none =>
        refine .of_false fun hsame ↦ ?_
        obtain ⟨oa, ob, -, fb', -⟩ := halike hsame
        rw [fb] at fb'
        cases fb'
      | some ob =>
        show Answers _ _ (flatObjects (flatEq h.toHeap n) oa ob)
        rcases flatObjects_cases (flatEq h.toHeap n) oa ob with ⟨s, t, va, vb, heq⟩ |
          ⟨l, va, vb, heq⟩ | ⟨l, p, q, va, vb, heq⟩ | heq | ⟨heq, hdiff⟩
        · rw [heq]
          cases ha.of_text ho fa va
          cases hb.of_text ho' fb vb
          by_cases hs : s = t
          · subst hs
            rw [beq_self_eq_true]
            exact .of_true rfl (oneToOne_pair fun x y ↦ meets_text_iff hab ho ho' fa va)
          · rw [beq_eq_false_iff_ne.mpr hs]
            exact .of_false fun hsame ↦ hs (by injection hsame)
        · rw [heq]
          obtain ⟨ts, rfl, hts⟩ := ha.of_node ho fa va
          obtain ⟨us, rfl, hus⟩ := hb.of_node ho' fb vb
          cases hts
          cases hus
          refine .of_true rfl (oneToOne_pair (a := a) (b := b) fun x y ↦ ?_)
          rw [meets_node_iff hab ho ho' fa va fb vb]
          simp
        · rw [heq]
          rw [unfold_node ho fa va, Option.map_eq_some_iff] at hua
          obtain ⟨ts, hts, rfl⟩ := hua
          obtain ⟨us, rfl, hus⟩ := hb.of_node ho' fb vb
          obtain - | ⟨htp, ⟨⟩⟩ := mapM_eq_some_iff.mp hts
          obtain - | ⟨htq, ⟨⟩⟩ := hus
          refine (ih htp htq).imp (by simp) fun _ hone ↦ ?_
          refine oneToOne_on_top (a := a) (b := b) hone (fun x y ↦ ?_) fun x y hxy ↦ ?_
          · exact (meets_node_iff hab ho ho' fa va fb vb).trans (by simp)
          · -- What lies under the payloads is smaller than the enums.
            obtain ⟨tx, ty, hx, hy, sx, sy⟩ := hxy.size ⟨n, htp⟩ htq
            constructor
            · rintro rfl
              rw [hx.unique ha] at sx
              exact Nat.not_le_of_lt (sizeOf_lt_node List.mem_cons_self) sx
            · rintro rfl
              rw [hy.unique hb] at sy
              exact Nat.not_le_of_lt (sizeOf_lt_node List.mem_cons_self) sy
        · rw [heq]
          exact ⟨none, rfl, fun hr ↦ (by cases hr), fun hr ↦ (by cases hr)⟩
        · rw [heq]
          refine .of_false fun hsame ↦ hdiff ?_
          obtain ⟨oa', ob', fa', fb', hal⟩ := halike hsame
          rw [fa] at fa'
          rw [fb] at fb'
          cases fa'
          cases fb'
          exact hal

end Flat

/-! ### Equality of contents -/

/-- `==` ends on `a` and `b` and says whether their contents are equal, and the flat walk, where it answers,
says what the full walk says. -/
def Structural (h : Heap) (a b : ℕ) (ta tb : Tree) : Prop :=
  ∃ n, ∀ fuel, n ≤ fuel →
    (valuesEq h fuel a b = some true ↔ ta = tb) ∧ (valuesEq h fuel a b = some false ↔ ta ≠ tb) ∧
    ∀ r, flatEq h fuel a b = some (some r) →
      ∃ m, valuesEqRec h fuel a b Maps.empty = some (r, m)

/-- The full walk says `true` exactly for equal contents paired one to one. -/
theorem valuesEqRec_empty (h : PagedHeap) {n a b : ℕ} {ta tb : Tree}
    (hua : unfold h.toHeap n a = some ta) (hb : HasTree h.toHeap b tb) :
    ∃ r m, valuesEqRec h.toHeap n a b Maps.empty = some (r, m) ∧
      (r = true ↔ ta = tb ∧ OneToOne (Meets h.toHeap a b)) := by
  obtain ⟨r, m, hres, htrue, hcomplete⟩ :=
    walkSpec_valuesEqRec h n a b ta tb Maps.empty hua hb (Maps.ok_empty _ _ _)
  have hnone : ∀ x y, ¬ Maps.empty.Has x y := fun _ _ ↦ List.not_mem_nil
  refine ⟨r, m, hres, fun hr ↦ ?_, fun ⟨hsame, hone⟩ ↦ hcomplete hsame (hone.mono fun x y hxy ↦ ?_)⟩
  · obtain ⟨hsame, -, hone, hgrow⟩ := htrue hr
    exact ⟨hsame, hone.mono fun x y hxy ↦ (hgrow x y).mpr (.inr hxy)⟩
  · exact hxy.resolve_left (hnone x y)

/-- The two walks together: `true` exactly for equal contents paired one to one. -/
theorem valuesEq_spec (h : PagedHeap) {n a b : ℕ} {ta tb : Tree}
    (hua : unfold h.toHeap n a = some ta) (hb : HasTree h.toHeap b tb) :
    ∃ r, valuesEq h.toHeap n a b = some r ∧
      (r = true ↔ ta = tb ∧ OneToOne (Meets h.toHeap a b)) ∧
      ∀ r', flatEq h.toHeap n a b = some (some r') →
        ∃ m, valuesEqRec h.toHeap n a b Maps.empty = some (r', m) := by
  obtain ⟨r, m, hres, hr⟩ := valuesEqRec_empty h hua hb
  obtain ⟨ans, hans, htrue, hfalse⟩ := flatEq_spec h hua hb
  -- Where the flat walk answers, it answers as the full walk does.
  have hagree : ∀ r', ans = some r' → r' = r := by
    rintro (- | -) hr'
    · have : r ≠ true := fun h' ↦ hfalse hr' (hr.mp h').1
      exact (eq_false_of_ne_true this).symm
    · exact (hr.mpr (htrue hr')).symm
  refine ⟨r, ?_, hr, fun r' hr' ↦ ?_⟩
  · cases ans with
    | none => simp [valuesEq, hans, hres]
    | some r' =>
      cases hagree r' rfl
      simp [valuesEq, hans]
  · rw [hans, Option.some.injEq] at hr'
    cases hagree r' hr'
    exact ⟨m, hres⟩

/-- **`==` on acyclic values is equality of contents exactly when equal contents are paired one to one**:
no object of either side stands opposite two of the other. -/
theorem valuesEq_structural_iff (h : PagedHeap) (a b : ℕ) (ta tb : Tree)
    (ha : HasTree h.toHeap a ta) (hb : HasTree h.toHeap b tb) :
    Structural h.toHeap a b ta tb ↔ (ta = tb → OneToOne (Meets h.toHeap a b)) := by
  obtain ⟨n, hn⟩ := ha
  constructor
  · rintro ⟨k, hk⟩ hsame
    obtain ⟨r, hr, hiff, -⟩ := valuesEq_spec h (unfold_mono hn (Nat.le_max_left n k)) hb
    have htrue := (hk _ (Nat.le_max_right n k)).1.mpr hsame
    rw [hr, Option.some.injEq] at htrue
    exact (hiff.mp htrue).2
  · intro hone
    refine ⟨n, fun fuel hfuel ↦ ?_⟩
    obtain ⟨r, hr, hiff, hflat⟩ := valuesEq_spec h (unfold_mono hn hfuel) hb
    rw [hr, Option.some.injEq, Option.some.injEq]
    have hsame : r = true ↔ ta = tb := hiff.trans ⟨fun h' ↦ h'.1, fun h' ↦ ⟨h', hone h'⟩⟩
    refine ⟨hsame, ?_, hflat⟩
    rw [← Bool.not_eq_true, hsame]

/-! #### A string held twice -/

/-- Four strings `x` and three arrays, `[s, s]`, `[s, s']` and `[u, v]`. -/
def sharingHeap : PagedHeap where
  objs := ⟨[⟨4096, .string "x"⟩, ⟨4112, .string "x"⟩, ⟨4128, .string "x"⟩, ⟨4144, .string "x"⟩,
    ⟨8192, .array true [4096, 4096]⟩, ⟨8208, .array true [4096, 4112]⟩,
    ⟨8224, .array true [4128, 4144]⟩], by
      show List.Nodup [4096, 4112, 4128, 4144, 8192, 8208, 8224]
      decide⟩
  classKinds := fun _ ↦ []
  unitEnums := ∅
  emptyTuple := none
  next := 0
  mapped := by
    intro a o ho
    have hmem : a ∈ [4096, 4112, 4128, 4144, 8192, 8208, 8224] :=
      AList.lookup_isSome.mp (Option.isSome_of_mem ho)
    have hall : ∀ a ∈ [4096, 4112, 4128, 4144, 8192, 8208, 8224], 4096 ≤ a := by decide
    exact hall a hmem

/-- The contents of all three arrays. -/
def twoTexts : Tree := .node .array [.text "x", .text "x"]

theorem hasTree_sharing : ∀ a ∈ [8192, 8208, 8224], HasTree sharingHeap.toHeap a twoTexts := by
  intro a ha
  refine ⟨3, ?_⟩
  simp only [List.mem_cons, List.not_mem_nil, or_false] at ha
  rcases ha with rfl | rfl | rfl <;> rfl

/-- The text `x` that `[s, s]` holds twice stands opposite both texts of `[u, v]`. -/
theorem sharing_not_oneToOne : ¬ OneToOne (Meets sharingHeap.toHeap 8192 8224) := by
  intro hone
  have hmeets : ∀ y, (4096, y) ∈ [4096, 4096].zip [4128, 4144] →
      Meets sharingHeap.toHeap 8192 8224 4096 y := by
    intro y hy
    refine (meets_node_iff (by decide) rfl rfl rfl rfl rfl rfl).mpr (.inr ⟨4096, y, hy, ?_⟩)
    simp at hy
    rcases hy with rfl | rfl <;> exact .here (by decide) rfl rfl
  have := (hone 4096 4128 4096 4144 (hmeets _ (by simp)) (hmeets _ (by simp))).mp rfl
  omega

/-- Equal contents that compare unequal because one side shares, between values that compare equal. -/
theorem sharing_breaks_equality :
    HasTree sharingHeap.toHeap 8192 twoTexts ∧ HasTree sharingHeap.toHeap 8224 twoTexts ∧
    ¬ Structural sharingHeap.toHeap 8192 8224 twoTexts twoTexts ∧
    valuesEq sharingHeap.toHeap 3 8192 8224 = some false ∧
    valuesEq sharingHeap.toHeap 3 8192 8208 = some true ∧
    valuesEq sharingHeap.toHeap 3 8208 8224 = some true := by
  refine ⟨hasTree_sharing _ (by simp), hasTree_sharing _ (by simp), ?_, ?_, ?_, ?_⟩
  · rintro ⟨n, hn⟩
    have hunfold : unfold sharingHeap.toHeap 3 8192 = some twoTexts := rfl
    obtain ⟨r, hr, hiff, -⟩ := valuesEq_spec sharingHeap (unfold_mono hunfold (Nat.le_max_left 3 n))
      (hasTree_sharing 8224 (by simp))
    have htrue := (hn _ (Nat.le_max_right 3 n)).1.mpr rfl
    rw [hr, Option.some.injEq] at htrue
    exact sharing_not_oneToOne (hiff.mp htrue).2
  all_goals decide

/-- Without sharing on either side the answer is right. -/
theorem unshared_structural : Structural sharingHeap.toHeap 8208 8224 twoTexts twoTexts := by
  refine (valuesEq_structural_iff sharingHeap 8208 8224 twoTexts twoTexts
    (hasTree_sharing _ (by simp)) (hasTree_sharing _ (by simp))).mpr fun _ ↦ ?_
  have hpairs : ∀ x y, Meets sharingHeap.toHeap 8208 8224 x y →
      (x, y) ∈ [(8208, 8224), (4096, 4128), (4112, 4144)] := by
    intro x y hxy
    rcases (meets_node_iff (by decide) rfl rfl rfl rfl rfl rfl).mp hxy with ⟨rfl, rfl⟩ |
      ⟨p, q, hz, hxy⟩
    · simp
    · simp only [List.zip_cons_cons, List.zip_nil_right, List.mem_cons, List.not_mem_nil, or_false,
        Prod.mk.injEq] at hz
      rcases hz with ⟨rfl, rfl⟩ | ⟨rfl, rfl⟩ <;>
      · obtain ⟨rfl, rfl⟩ := (meets_text_iff (by decide) rfl rfl rfl rfl).mp hxy
        simp
  intro x y x' y' h₁ h₂
  have h₁ := hpairs x y h₁
  have h₂ := hpairs x' y' h₂
  simp only [List.mem_cons, List.not_mem_nil, or_false, Prod.mk.injEq] at h₁ h₂
  omega

end CoilLang.Machine.ValueEq
