import Mathlib.Data.Nat.Basic
import Mathlib.Algebra.Order.Ring.Nat

/-!
# Union-find with path halving

Classes of the numbers below `n`, kept as a list of parents in which **every parent is at most its child**.
`find` follows the parents and halves the path on the way, `union` puts the larger of two representatives
under the smaller. Neither splits a class (`same_find`, `same_union_mono`), and `union` joins its arguments
(`same_union`).
-/

namespace CoilLang.UnionFind

/-- The parent of `x`; numbers outside the list are on their own. -/
def parentOf (p : List ℕ) (x : ℕ) : ℕ := (p[x]?).getD x

/-- Follow the parents to the representative, with each number passed put under its grandparent. -/
def find : ℕ → List ℕ → ℕ → List ℕ × ℕ
  | 0, p, x => (p, x)
  | fuel + 1, p, x =>
    if parentOf p x = x then (p, x)
    else
      let p' := p.set x (parentOf p (parentOf p x))
      find fuel p' (parentOf p' x)

/-- Join the classes of `a` and `b`; the smaller representative stays one. -/
def union (p : List ℕ) (a b : ℕ) : List ℕ :=
  let (p, ra) := find (a + 1) p a
  let (p, rb) := find (b + 1) p b
  if ra ≠ rb then p.set (max ra rb) (min ra rb) else p

/-- Parents lie below their children. -/
def Descends (p : List ℕ) : Prop := ∀ x, parentOf p x ≤ x

/-- The parents lead from `x` to the representative `r`. -/
inductive Rep (p : List ℕ) : ℕ → ℕ → Prop
  | self {x : ℕ} : parentOf p x = x → Rep p x x
  | up {x r : ℕ} : parentOf p x ≠ x → Rep p (parentOf p x) r → Rep p x r

/-- `x` and `y` are in one class. -/
def Same (p : List ℕ) (x y : ℕ) : Prop := ∃ r, Rep p x r ∧ Rep p y r

section

variable {p : List ℕ} {x y r s : ℕ}

theorem Rep.unique (h₁ : Rep p x r) (h₂ : Rep p x s) : r = s := by
  induction h₁ with
  | self hx =>
    cases h₂ with
    | self => rfl
    | up hne _ => exact absurd hx hne
  | up hne _ ih =>
    cases h₂ with
    | self hx => exact absurd hx hne
    | up _ h₂ => exact ih h₂

theorem Rep.root (h : Rep p x r) : parentOf p r = r := by
  induction h with
  | self hx => exact hx
  | up _ _ ih => exact ih

theorem Rep.le (hp : Descends p) (h : Rep p x r) : r ≤ x := by
  induction h with
  | self => exact le_rfl
  | up _ _ ih => exact ih.trans (hp _)

theorem Descends.lt (hp : Descends p) (hx : parentOf p x ≠ x) : parentOf p x < x :=
  lt_of_le_of_ne (hp x) hx

theorem exists_rep (hp : Descends p) (x : ℕ) : ∃ r, Rep p x r := by
  induction x using Nat.strongRecOn with
  | ind x ih =>
    by_cases hx : parentOf p x = x
    · exact ⟨x, .self hx⟩
    · obtain ⟨r, hr⟩ := ih _ (hp.lt hx)
      exact ⟨r, .up hx hr⟩

theorem parentOf_set_self (hx : x < p.length) : parentOf (p.set x y) x = y := by
  rw [parentOf, List.getElem?_set_self hx, Option.getD_some]

theorem parentOf_set_ne (hxy : x ≠ y) : parentOf (p.set x s) y = parentOf p y := by
  rw [parentOf, List.getElem?_set_ne hxy, parentOf]

theorem lt_length_of_parent (hx : parentOf p x ≠ x) : x < p.length := by
  by_contra hlen
  refine hx ?_
  rw [parentOf, List.getElem?_eq_none (by omega), Option.getD_none]

theorem Descends.set (hp : Descends p) (hy : y ≤ x) : Descends (p.set x y) := by
  intro z
  by_cases hxz : x = z
  · subst hxz
    by_cases hx : x < p.length
    · rw [parentOf_set_self hx]
      exact hy
    · rw [List.set_eq_of_length_le (by omega)]
      exact hp x
  · rw [parentOf_set_ne hxz]
    exact hp z

/-- Halving changes no representative. -/
theorem Rep.halve (hp : Descends p) (hx : parentOf p x ≠ x) {w : ℕ} (h : Rep p w r) :
    Rep (p.set x (parentOf p (parentOf p x))) w r := by
  have hlen := lt_length_of_parent hx
  -- By induction on `w`: the path from `w` only meets smaller numbers.
  induction w using Nat.strongRecOn with
  | ind w ih =>
    cases h with
    | self hw =>
      refine .self ?_
      rwa [parentOf_set_ne (by rintro rfl; exact hx hw)]
    | up hw hup =>
      by_cases hxw : x = w
      · subst hxw
        have hpx := parentOf_set_self (y := parentOf p (parentOf p x)) hlen
        have hlt : parentOf p (parentOf p x) < x := lt_of_le_of_lt (hp _) (hp.lt hx)
        refine .up (by rw [hpx]; exact hlt.ne) ?_
        rw [hpx]
        cases hup with
        | self hroot =>
          have hself := ih _ (hp.lt hx) (.self hroot)
          have hany : ∀ z, z = parentOf p x →
              Rep (p.set x (parentOf p (parentOf p x))) z (parentOf p x) := by
            rintro _ rfl
            exact hself
          exact hany _ hroot
        | up _ hup => exact ih _ hlt hup
      · have hpw := parentOf_set_ne (p := p) (s := parentOf p (parentOf p x)) hxw
        refine .up (by rwa [hpw]) ?_
        rw [hpw]
        exact ih _ (hp.lt hw) hup

end

/-- `find` gives the representative and changes no class. -/
theorem find_spec {fuel : ℕ} {p : List ℕ} {x : ℕ} (hp : Descends p) (hf : x < fuel) :
    Rep p x (find fuel p x).2 ∧ Descends (find fuel p x).1 ∧
      (find fuel p x).1.length = p.length ∧
      ∀ w r, Rep p w r → Rep (find fuel p x).1 w r := by
  induction fuel generalizing p x with
  | zero => omega
  | succ fuel ih =>
    rw [find]
    split
    · rename_i hx
      exact ⟨.self hx, hp, rfl, fun _ _ h ↦ h⟩
    · rename_i hx
      have hlen := lt_length_of_parent hx
      have hlt : parentOf p (parentOf p x) < x := lt_of_le_of_lt (hp _) (hp.lt hx)
      have hpx := parentOf_set_self (y := parentOf p (parentOf p x)) hlen
      obtain ⟨h₁, h₂, h₃, h₄⟩ := ih (hp.set hlt.le) (x := parentOf _ x) (by rw [hpx]; omega)
      refine ⟨?_, h₂, by rw [h₃, List.length_set], fun w r h ↦ h₄ w r (h.halve hp hx)⟩
      obtain ⟨r, hr⟩ := exists_rep hp x
      have hr' := hr.halve hp hx
      cases hr' with
      | self h' => exact absurd h' (by rw [hpx]; exact hlt.ne)
      | up _ hr' => rwa [h₁.unique hr']

theorem Same.of_rep {p q : List ℕ} {x y : ℕ} (hs : Same p x y) (hpq : ∀ w r, Rep p w r → Rep q w r) :
    Same q x y := by
  obtain ⟨r, hx, hy⟩ := hs
  exact ⟨r, hpq x r hx, hpq y r hy⟩

/-- One representative put under another: its class follows it. -/
theorem Rep.link {p : List ℕ} {a b w r : ℕ} (ha : parentOf p a = a)
    (hb : parentOf p b = b) (hab : b < a) (hlen : a < p.length) (h : Rep p w r) :
    Rep (p.set a b) w (if r = a then b else r) := by
  have hpa : parentOf (p.set a b) a = b := parentOf_set_self hlen
  have hpb : parentOf (p.set a b) b = b := by
    rw [parentOf_set_ne hab.ne']
    exact hb
  induction h with
  | @self x hx =>
    by_cases hxa : x = a
    · subst hxa
      rw [if_pos rfl]
      exact .up (by rw [hpa]; exact hab.ne) (by rw [hpa]; exact .self hpb)
    · rw [if_neg hxa]
      exact .self (by rwa [parentOf_set_ne (Ne.symm hxa)])
  | @up x r hx _ ih =>
    have hxa : a ≠ x := by
      rintro rfl
      exact hx ha
    have hpx := parentOf_set_ne (p := p) (s := b) hxa
    exact .up (by rwa [hpx]) (by rwa [hpx])

/-- Linking joins the two classes and splits none. -/
theorem link_joins {q : List ℕ} (hq : Descends q) {a b ra rb : ℕ} (ha : Rep q a ra)
    (hb : Rep q b rb) (hlt : rb < ra) (hlen : a < q.length) :
    Descends (q.set ra rb) ∧ (q.set ra rb).length = q.length ∧ Same (q.set ra rb) a b ∧
      ∀ x y, Same q x y → Same (q.set ra rb) x y := by
  have hlink : ∀ w r, Rep q w r → Rep (q.set ra rb) w (if r = ra then rb else r) :=
    fun w r h ↦ h.link ha.root hb.root hlt (lt_of_le_of_lt (ha.le hq) hlen)
  refine ⟨hq.set hlt.le, List.length_set, ⟨rb, ?_, ?_⟩, fun x y hs ↦ ?_⟩
  · have := hlink a ra ha
    rwa [if_pos rfl] at this
  · have := hlink b rb hb
    rwa [if_neg hlt.ne] at this
  · obtain ⟨r, hx, hy⟩ := hs
    exact ⟨_, hlink x r hx, hlink y r hy⟩

theorem Same.symm {p : List ℕ} {x y : ℕ} (hs : Same p x y) : Same p y x := by
  obtain ⟨r, hx, hy⟩ := hs
  exact ⟨r, hy, hx⟩

/-- Without its halvings `union` is one link between representatives. -/
theorem union_eq {p : List ℕ} (hp : Descends p) (a b : ℕ) :
    ∃ q ra rb, Descends q ∧ q.length = p.length ∧ Rep q a ra ∧ Rep q b rb ∧
      (∀ w r, Rep p w r → Rep q w r) ∧
        union p a b = if ra ≠ rb then q.set (max ra rb) (min ra rb) else q := by
  rw [union]
  cases hfa : find (a + 1) p a with
  | mk pa ra =>
    obtain ⟨ra₀, da, la, ka⟩ := find_spec (x := a) hp (Nat.lt_succ_self a)
    rw [hfa] at ra₀ da la ka
    cases hfb : find (b + 1) pa b with
    | mk q rb =>
      obtain ⟨rb₀, db, lb, kb⟩ := find_spec (x := b) da (Nat.lt_succ_self b)
      rw [hfb] at rb₀ db lb kb
      simp only [hfb]
      exact ⟨q, ra, rb, db, lb.trans la, kb _ _ (ka _ _ ra₀), kb _ _ rb₀,
        fun w r h ↦ kb _ _ (ka _ _ h), rfl⟩

theorem union_spec {p : List ℕ} (hp : Descends p) {a b : ℕ} (ha : a < p.length)
    (hb : b < p.length) : Descends (union p a b) ∧ (union p a b).length = p.length ∧
      Same (union p a b) a b ∧ ∀ x y, Same p x y → Same (union p a b) x y := by
  obtain ⟨q, ra, rb, hq, hlen, hqa, hqb, hreps, heq⟩ := union_eq hp a b
  have hpq : ∀ x y, Same p x y → Same q x y := fun x y hs ↦ hs.of_rep hreps
  rw [heq]
  split
  · rename_i hne
    rcases Nat.lt_or_gt_of_ne hne with hlt | hlt
    · rw [max_eq_right hlt.le, min_eq_left hlt.le]
      obtain ⟨h₁, h₂, h₃, h₄⟩ := link_joins hq hqb hqa hlt (hlen ▸ hb)
      exact ⟨h₁, h₂.trans hlen, h₃.symm, fun x y hs ↦ h₄ x y (hpq x y hs)⟩
    · rw [max_eq_left hlt.le, min_eq_right hlt.le]
      obtain ⟨h₁, h₂, h₃, h₄⟩ := link_joins hq hqa hqb hlt (hlen ▸ ha)
      exact ⟨h₁, h₂.trans hlen, h₃, fun x y hs ↦ h₄ x y (hpq x y hs)⟩
  · rename_i heq
    exact ⟨hq, hlen, ⟨ra, hqa, not_not.mp heq ▸ hqb⟩, hpq⟩

/-! ### No class is joined without need -/

/-- Moving every number to its old representative adds nothing to a class. -/
theorem Same.of_transport {p q : List ℕ} {x y : ℕ} (hp : Descends p)
    (hpq : ∀ w r, Rep p w r → Rep q w r) (hs : Same q x y) : Same p x y := by
  obtain ⟨r, hx, hy⟩ := hs
  obtain ⟨rx, hrx⟩ := exists_rep hp x
  obtain ⟨ry, hry⟩ := exists_rep hp y
  obtain rfl := hx.unique (hpq x rx hrx)
  obtain rfl := hy.unique (hpq y ry hry)
  exact ⟨r, hrx, hry⟩

section
variable {R : ℕ → ℕ → Prop}

theorem link_exact (hR : Equivalence R) {q : List ℕ} (hq : Descends q)
    (h : ∀ x y, Same q x y → R x y) {a b : ℕ} (ha : parentOf q a = a) (hb : parentOf q b = b)
    (hab : b < a) (hlen : a < q.length) (hr : R a b) {x y : ℕ} (hs : Same (q.set a b) x y) :
    R x y := by
  obtain ⟨s, hx, hy⟩ := hs
  -- both are related to the representative they now have
  have hnow : ∀ w, Rep (q.set a b) w s → R w s := by
    intro w hw
    obtain ⟨r, hr₀⟩ := exists_rep hq w
    have hwr := h w r ⟨r, hr₀, .self hr₀.root⟩
    have hs := hw.unique (hr₀.link ha hb hab hlen)
    by_cases hra : r = a
    · rw [if_pos hra] at hs
      subst hs hra
      exact hR.trans hwr hr
    · rwa [hs, if_neg hra]
  exact hR.trans (hnow x hx) (hR.symm (hnow y hy))

/-- An equivalence that holds within each class and of the two arguments holds within each class
afterwards. -/
theorem union_exact (hR : Equivalence R) {p : List ℕ} (hp : Descends p)
    (h : ∀ x y, Same p x y → R x y) {a b : ℕ} (ha : a < p.length) (hb : b < p.length) (hab : R a b)
    {x y : ℕ} (hs : Same (union p a b) x y) : R x y := by
  obtain ⟨q, ra, rb, hq, hlen, hqa, hqb, hreps, heq⟩ := union_eq hp a b
  have hqR : ∀ x y, Same q x y → R x y := fun x y hs ↦ h x y (hs.of_transport hp hreps)
  have hr : R ra rb :=
    hR.trans (hR.symm (hqR a ra ⟨ra, hqa, .self hqa.root⟩))
      (hR.trans hab (hqR b rb ⟨rb, hqb, .self hqb.root⟩))
  have hra := hqa.le hq
  have hrb := hqb.le hq
  rw [heq] at hs
  split at hs
  · rename_i hne
    rcases Nat.lt_or_gt_of_ne hne with hlt | hlt
    · rw [max_eq_right hlt.le, min_eq_left hlt.le] at hs
      exact link_exact hR hq hqR hqb.root hqa.root hlt (by omega) (hR.symm hr) hs
    · rw [max_eq_left hlt.le, min_eq_right hlt.le] at hs
      exact link_exact hR hq hqR hqa.root hqb.root hlt (by omega) hr hs
  · exact hqR x y hs
end

/-- The representatives of `0 .. n`, found in turn. -/
def allRoots (p : List ℕ) : ℕ → List ℕ × List ℕ
  | 0 => (p, [])
  | n + 1 =>
    let (p, rs) := allRoots p n
    let (p, r) := find (n + 1) p n
    (p, rs ++ [r])

/-- Numbers of one class are listed with one representative. -/
theorem allRoots_spec {p : List ℕ} (hp : Descends p) (n : ℕ) :
    Descends (allRoots p n).1 ∧ (∀ w r, Rep p w r → Rep (allRoots p n).1 w r) ∧
      (allRoots p n).2.length = n ∧
      ∀ x r, (allRoots p n).2[x]? = some r → Rep p x r := by
  induction n with
  | zero => exact ⟨hp, fun _ _ h ↦ h, rfl, fun x r h ↦ by simp [allRoots] at h⟩
  | succ n ih =>
    obtain ⟨d₁, k₁, l₁, g₁⟩ := ih
    obtain ⟨r₂, d₂, -, k₂⟩ := find_spec (x := n) d₁ (Nat.lt_succ_self n)
    refine ⟨d₂, fun w r h ↦ k₂ _ _ (k₁ _ _ h), ?_, fun x r hx ↦ ?_⟩
    · show ((allRoots p n).2 ++ [_]).length = n + 1
      rw [List.length_append, l₁, List.length_singleton]
    · have hx : ((allRoots p n).2 ++ [(find (n + 1) (allRoots p n).1 n).2])[x]? = some r := hx
      rcases Nat.lt_trichotomy x n with hlt | rfl | hgt
      · rw [List.getElem?_append_left (by omega)] at hx
        exact g₁ x r hx
      · rw [List.getElem?_append_right (Nat.le_of_eq l₁), l₁, Nat.sub_self, List.getElem?_cons_zero,
          Option.some.injEq] at hx
        obtain ⟨s, hs⟩ := exists_rep hp x
        rw [← hx, r₂.unique (k₁ _ _ hs)]
        exact hs
      · rw [List.getElem?_eq_none (by simp [l₁]; omega)] at hx
        cases hx

end CoilLang.UnionFind
