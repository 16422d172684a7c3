import CoilLang.Machine.ValueEq
import Mathlib.Data.List.Forall2

/-!
# Contents of values, and objects that stand opposite each other

The tree of contents of an acyclic value, one case for each kind of word, and the relation the walk of `==`
runs over: `Meets h a b x y` says that **the same steps** from `a` and from `b` lead to `x` and to `y`. Under
equal contents stand equal contents, and what stands under two values is no larger than they are.
-/

namespace CoilLang.Machine.ValueEq

open Snapshot (Obj Member Heap)

/-! ### Contents of a word -/

/-- A heap in mapped memory: nothing lives in the first page. -/
structure PagedHeap extends Heap where
  mapped : ∀ a o, toHeap.find a = some o → 4096 ≤ a

theorem mapM_eq_some_iff {α β : Type*} {f : α → Option β} {xs : List α} {ys : List β} :
    xs.mapM f = some ys ↔ List.Forall₂ (fun x y ↦ f x = some y) xs ys := by
  induction xs generalizing ys with
  | nil => simp [eq_comm]
  | cons x xs ih => cases ys <;> simp [List.mapM_cons, Option.bind_eq_some_iff, ih]

section Contents

variable {h : Heap} {n : ℕ} {w : ℕ} {t : Tree}

theorem unfold_odd (ho : w % 2 ≠ 0) : unfold h (n + 1) w = (unfold h n (w - 1)).map .err := by
  rw [unfold, if_pos ho]

theorem unfold_text {o : Obj} {s : String} (he : w % 2 = 0) (hf : h.find w = some o)
    (hv : view o = .text s) : unfold h (n + 1) w = some (.text s) := by
  rw [unfold, if_neg (by simpa using he), hf, Option.map_some, hv]

theorem unfold_node {o : Obj} {l : Label} {parts : List ℕ} (he : w % 2 = 0)
    (hf : h.find w = some o) (hv : view o = .node l parts) :
    unfold h (n + 1) w = (parts.mapM (unfold h n)).map (.node l) := by
  rw [unfold, if_neg (by simpa using he), hf, Option.map_some, hv]

/-- Only its own word is known of the value. -/
def IsLeaf (h : Heap) (w : ℕ) : Prop := ∀ o, h.find w = some o → view o = .self

theorem unfold_leaf (he : w % 2 = 0) (hl : IsLeaf h w) : unfold h (n + 1) w = some (.word w) := by
  rw [unfold, if_neg (by simpa using he)]
  cases hf : h.find w with
  | none => rfl
  | some o => rw [Option.map_some, hl o hf]

/-- What an even word can be. -/
theorem even_cases (h : Heap) (w : ℕ) :
    (∃ o s, h.find w = some o ∧ view o = .text s) ∨
      (∃ o l parts, h.find w = some o ∧ view o = .node l parts) ∨ IsLeaf h w := by
  cases hf : h.find w with
  | none => exact .inr (.inr fun o ho ↦ by rw [hf] at ho; cases ho)
  | some o =>
    cases hv : view o with
    | text s => exact .inl ⟨o, s, rfl, hv⟩
    | node l parts => exact .inr (.inl ⟨o, l, parts, rfl, hv⟩)
    | self => exact .inr (.inr fun o' ho ↦ by rw [hf] at ho; cases ho; exact hv)

theorem unfold_mono : ∀ {n : ℕ} {w : ℕ} {t : Tree}, unfold h n w = some t → ∀ {m : ℕ}, n ≤ m →
    unfold h m w = some t
  | 0, _, _, hu, _, _ => by cases hu
  | n + 1, w, t, hu, 0, hm => absurd hm (by omega)
  | n + 1, w, t, hu, m + 1, hm => by
    have hnm : n ≤ m := by omega
    by_cases ho : w % 2 = 0
    · rcases even_cases h w with ⟨o, s, hf, hv⟩ | ⟨o, l, parts, hf, hv⟩ | hl
      · rw [unfold_text ho hf hv] at hu ⊢
        exact hu
      · rw [unfold_node ho hf hv, Option.map_eq_some_iff] at hu
        obtain ⟨ts, hts, rfl⟩ := hu
        have hall := mapM_eq_some_iff.mp hts
        rw [unfold_node ho hf hv, Option.map_eq_some_iff]
        exact ⟨ts, mapM_eq_some_iff.mpr (hall.imp fun _ _ hx ↦ unfold_mono hx hnm), rfl⟩
      · rw [unfold_leaf ho hl] at hu ⊢
        exact hu
    · rw [unfold_odd ho, Option.map_eq_some_iff] at hu
      obtain ⟨t', ht, rfl⟩ := hu
      rw [unfold_odd ho, unfold_mono ht hnm, Option.map_some]

theorem HasTree.unique {t' : Tree} (ht : HasTree h w t) (ht' : HasTree h w t') : t = t' := by
  obtain ⟨n, hn⟩ := ht
  obtain ⟨m, hm⟩ := ht'
  have h₁ := unfold_mono hn (Nat.le_max_left n m)
  rw [unfold_mono hm (Nat.le_max_right n m)] at h₁
  exact (Option.some.inj h₁).symm

/-! #### One case for each kind of word -/

theorem hasTree_odd_iff (ho : w % 2 ≠ 0) :
    HasTree h w t ↔ ∃ t', HasTree h (w - 1) t' ∧ t = .err t' := by
  constructor
  · rintro ⟨n | n, hn⟩
    · cases hn
    · rw [unfold_odd ho, Option.map_eq_some_iff] at hn
      obtain ⟨t', ht, rfl⟩ := hn
      exact ⟨t', ⟨n, ht⟩, rfl⟩
  · rintro ⟨t', ⟨n, hn⟩, rfl⟩
    exact ⟨n + 1, by rw [unfold_odd ho, hn, Option.map_some]⟩

theorem HasTree.of_text {o : Obj} {s : String} (he : w % 2 = 0) (hf : h.find w = some o)
    (hv : view o = .text s) (ht : HasTree h w t) : t = .text s :=
  ht.unique ⟨1, unfold_text he hf hv⟩

theorem HasTree.of_leaf (he : w % 2 = 0) (hl : IsLeaf h w) (ht : HasTree h w t) : t = .word w :=
  ht.unique ⟨1, unfold_leaf he hl⟩

theorem HasTree.of_node {o : Obj} {l : Label} {parts : List ℕ} (he : w % 2 = 0)
    (hf : h.find w = some o) (hv : view o = .node l parts) (ht : HasTree h w t) :
    ∃ ts, t = .node l ts ∧ List.Forall₂ (HasTree h) parts ts := by
  obtain ⟨n | n, hn⟩ := ht
  · cases hn
  · rw [unfold_node he hf hv, Option.map_eq_some_iff] at hn
    obtain ⟨ts, hts, rfl⟩ := hn
    exact ⟨ts, rfl, (mapM_eq_some_iff.mp hts).imp fun _ _ hx ↦ ⟨n, hx⟩⟩

/-- Words whose contents are plain are the words themselves. -/
theorem HasTree.word_eq {v : ℕ} (ht : HasTree h w (.word v)) : v = w := by
  by_cases he : w % 2 = 0
  · rcases even_cases h w with ⟨o, s, hf, hv⟩ | ⟨o, l, parts, hf, hv⟩ | hl
    · cases ht.of_text he hf hv
    · obtain ⟨ts, hts, -⟩ := ht.of_node he hf hv
      cases hts
    · cases ht.of_leaf he hl
      rfl
  · obtain ⟨t', -, h'⟩ := (hasTree_odd_iff he).mp ht
    cases h'

/-- The parity of a word shows in its contents. -/
theorem HasTree.parity {v : ℕ} (ht : HasTree h w t) (ht' : HasTree h v t) : w % 2 = v % 2 := by
  have key : ∀ {x y : ℕ}, HasTree h x t → HasTree h y t → x % 2 ≠ 0 → y % 2 = 0 → False := by
    intro x y hx hy ho he
    obtain ⟨t', -, rfl⟩ := (hasTree_odd_iff ho).mp hx
    rcases even_cases h y with ⟨o, s, hf, hv⟩ | ⟨o, l, parts, hf, hv⟩ | hl
    · cases hy.of_text he hf hv
    · obtain ⟨ts, hts, -⟩ := hy.of_node he hf hv
      cases hts
    · cases hy.of_leaf he hl
  by_contra hne
  rcases Nat.mod_two_eq_zero_or_one w with hw | hw
  · exact key ht' ht (by omega) hw
  · exact key ht ht' (by omega) (by omega)

end Contents

/-- In the first page words and contents are the same thing. -/
theorem PagedHeap.isLeaf_of_lt (h : PagedHeap) {w : ℕ} (hw : w < 4096) : IsLeaf h.toHeap w :=
  fun o ho ↦ absurd (h.mapped w o ho) (by omega)

theorem PagedHeap.word_inj (h : PagedHeap) {x y : ℕ} {t : Tree} (hx : x < 4096) (hy : y < 4096)
    (tx : HasTree h.toHeap x t) (ty : HasTree h.toHeap y t) : x = y := by
  have even_inj : ∀ {u v : ℕ} {t : Tree}, u < 4096 → v < 4096 → u % 2 = 0 → v % 2 = 0 →
      HasTree h.toHeap u t → HasTree h.toHeap v t → u = v := by
    intro u v t hu hv he he' tu tv
    cases tu.of_leaf he (h.isLeaf_of_lt hu)
    exact tv.word_eq
  have hp := tx.parity ty
  by_cases he : x % 2 = 0
  · exact even_inj hx hy he (by omega) tx ty
  · obtain ⟨t', hx', rfl⟩ := (hasTree_odd_iff he).mp tx
    obtain ⟨t'', hy', h'⟩ := (hasTree_odd_iff (by omega)).mp ty
    cases h'
    have := even_inj (by omega) (by omega) (by omega) (by omega) hx' hy'
    omega

theorem trees_unique {h : Heap} {ps : List ℕ} {ts us : List Tree}
    (hts : List.Forall₂ (HasTree h) ps ts) (hus : List.Forall₂ (HasTree h) ps us) : ts = us := by
  induction hts generalizing us with
  | nil => cases hus; rfl
  | cons ht _ ih =>
    cases hus with
    | cons hu hus => rw [ht.unique hu, ih hus]

theorem PagedHeap.words_inj (h : PagedHeap) {ps qs : List ℕ} {ts : List Tree}
    (hp : List.Forall₂ (HasTree h.toHeap) ps ts) (hq : List.Forall₂ (HasTree h.toHeap) qs ts)
    (hps : ∀ p ∈ ps, p < 4096) (hqs : ∀ q ∈ qs, q < 4096) : ps = qs := by
  induction hp generalizing qs with
  | nil => cases hq; rfl
  | cons hx _ ih =>
    cases hq with
    | cons hy hq =>
      rw [List.forall_mem_cons] at hps hqs
      rw [h.word_inj hps.1 hqs.1 hx hy, ih hq hps.2 hqs.2]

theorem Tree.sizeOf_pos (t : Tree) : 0 < sizeOf t := by
  cases t <;> simp only [Tree.word.sizeOf_spec, Tree.err.sizeOf_spec, Tree.text.sizeOf_spec,
    Tree.node.sizeOf_spec] <;> omega

/-! ### Objects that stand opposite each other -/

/-- Following the same steps from `a` and from `b`, through distinct words only, leads to `x` and `y`. -/
inductive Meets (h : Heap) : ℕ → ℕ → ℕ → ℕ → Prop
  | here {a b : ℕ} : a ≠ b → a % 2 = 0 → b % 2 = 0 → Meets h a b a b
  | err {a b x y : ℕ} : a ≠ b → a % 2 ≠ 0 → b % 2 ≠ 0 → Meets h (a - 1) (b - 1) x y →
    Meets h a b x y
  | part {a b x y p q : ℕ} {oa ob : Obj} {l l' : Label} {ps qs : List ℕ} : a ≠ b → a % 2 = 0 →
    b % 2 = 0 → h.find a = some oa → view oa = .node l ps → h.find b = some ob →
    view ob = .node l' qs → (p, q) ∈ ps.zip qs → Meets h p q x y → Meets h a b x y

/-- No object of either side stands opposite two. -/
def OneToOne (R : ℕ → ℕ → Prop) : Prop := ∀ x y x' y', R x y → R x' y' → (x = x' ↔ y = y')

theorem OneToOne.mono {R S : ℕ → ℕ → Prop} (hS : OneToOne S) (hsub : ∀ x y, R x y → S x y) :
    OneToOne R :=
  fun x y x' y' h₁ h₂ ↦ hS x y x' y' (hsub _ _ h₁) (hsub _ _ h₂)

section Meets

variable {h : Heap} {a b x y : ℕ}

theorem not_meets_self : ¬ Meets h a a x y := by
  rintro (⟨hne, -, -⟩ | ⟨hne, -, -, -⟩ | ⟨hne, -, -, -, -, -, -, -, -⟩) <;> exact hne rfl

theorem meets_odd_iff (hne : a ≠ b) (ha : a % 2 ≠ 0) (hb : b % 2 ≠ 0) :
    Meets h a b x y ↔ Meets h (a - 1) (b - 1) x y := by
  constructor
  · intro hm
    cases hm with
    | here _ he _ => exact absurd he ha
    | err _ _ _ hm => exact hm
    | part _ he => exact absurd he ha
  · exact .err hne ha hb

theorem meets_node_iff {oa ob : Obj} {l l' : Label} {ps qs : List ℕ} (hne : a ≠ b)
    (ha : a % 2 = 0) (hb : b % 2 = 0) (fa : h.find a = some oa) (va : view oa = .node l ps)
    (fb : h.find b = some ob) (vb : view ob = .node l' qs) :
    Meets h a b x y ↔ (x = a ∧ y = b) ∨ ∃ p q, (p, q) ∈ ps.zip qs ∧ Meets h p q x y := by
  constructor
  · intro hm
    cases hm with
    | here => exact .inl ⟨rfl, rfl⟩
    | err _ ho => exact absurd ha ho
    | part _ _ _ fa' va' fb' vb' hpq hm =>
      rw [fa] at fa'
      cases fa'
      rw [fb] at fb'
      cases fb'
      rw [va] at va'
      cases va'
      rw [vb] at vb'
      cases vb'
      exact .inr ⟨_, _, hpq, hm⟩
  · rintro (⟨rfl, rfl⟩ | ⟨p, q, hpq, hm⟩)
    · exact .here hne ha hb
    · exact .part hne ha hb fa va fb vb hpq hm

theorem meets_text_iff {oa : Obj} {s : String} (hne : a ≠ b) (ha : a % 2 = 0) (hb : b % 2 = 0)
    (fa : h.find a = some oa) (va : view oa = .text s) : Meets h a b x y ↔ x = a ∧ y = b := by
  constructor
  · intro hm
    cases hm with
    | here => exact ⟨rfl, rfl⟩
    | err _ ho => exact absurd ha ho
    | part _ _ _ fa' va' =>
      rw [fa] at fa'
      cases fa'
      rw [va] at va'
      cases va'
  · rintro ⟨rfl, rfl⟩
    exact .here hne ha hb

theorem Meets.trans {x' y' : ℕ} (h₁ : Meets h a b x y) (h₂ : Meets h x y x' y') :
    Meets h a b x' y' := by
  induction h₁ with
  | here => exact h₂
  | err hne ha hb _ ih => exact .err hne ha hb (ih h₂)
  | part hne ha hb fa va fb vb hpq _ ih => exact .part hne ha hb fa va fb vb hpq (ih h₂)

/-- The trees of two lists of parts, at one place of both. -/
theorem zip_trees {ps qs : List ℕ} {p q : ℕ} (hpq : (p, q) ∈ ps.zip qs) {ts us : List Tree}
    (hp : List.Forall₂ (HasTree h) ps ts) (hq : List.Forall₂ (HasTree h) qs us) :
    ∃ tp tq, HasTree h p tp ∧ HasTree h q tq ∧ (tp, tq) ∈ ts.zip us := by
  induction hp generalizing qs us with
  | nil => simp at hpq
  | cons hx _ ih =>
    cases hq with
    | nil => simp at hpq
    | cons hy hq =>
      rw [List.zip_cons_cons, List.mem_cons] at hpq
      rcases hpq with hpq | hpq
      · cases hpq
        exact ⟨_, _, hx, hy, List.mem_cons_self⟩
      · obtain ⟨tp, tq, h₁, h₂, h₃⟩ := ih hpq hq
        exact ⟨tp, tq, h₁, h₂, List.mem_cons_of_mem _ h₃⟩

theorem eq_of_mem_zip_self {α : Type*} {xs : List α} {p q : α} (hpq : (p, q) ∈ xs.zip xs) :
    p = q := by
  induction xs with
  | nil => simp at hpq
  | cons x xs ih =>
    rw [List.zip_cons_cons, List.mem_cons] at hpq
    rcases hpq with hpq | hpq
    · cases hpq
      rfl
    · exact ih hpq

theorem sizeOf_lt_node {l : Label} {ts : List Tree} {t : Tree} (ht : t ∈ ts) :
    sizeOf t < sizeOf (Tree.node l ts) := by
  have := List.sizeOf_lt_of_mem ht
  simp only [Tree.node.sizeOf_spec]
  omega

/-- Under equal contents stand equal contents. -/
theorem Meets.same (hm : Meets h a b x y) {t : Tree} (ha : HasTree h a t) (hb : HasTree h b t) :
    ∃ t', HasTree h x t' ∧ HasTree h y t' := by
  induction hm generalizing t with
  | here => exact ⟨t, ha, hb⟩
  | err _ oa ob _ ih =>
    obtain ⟨t', ha', rfl⟩ := (hasTree_odd_iff oa).mp ha
    obtain ⟨t'', hb', h'⟩ := (hasTree_odd_iff ob).mp hb
    cases h'
    exact ih ha' hb'
  | part _ ea eb fa va fb vb hpq _ ih =>
    obtain ⟨ts, rfl, hts⟩ := ha.of_node ea fa va
    obtain ⟨us, hus, hqs⟩ := hb.of_node eb fb vb
    cases hus
    obtain ⟨tp, tq, hp, hq, hz⟩ := zip_trees hpq hts hqs
    cases eq_of_mem_zip_self hz
    exact ih hp hq

/-- What stands under two values is no larger than they are. -/
theorem Meets.size (hm : Meets h a b x y) {ta tb : Tree} (ha : HasTree h a ta)
    (hb : HasTree h b tb) : ∃ tx ty, HasTree h x tx ∧ HasTree h y ty ∧ sizeOf tx ≤ sizeOf ta ∧
      sizeOf ty ≤ sizeOf tb := by
  induction hm generalizing ta tb with
  | here => exact ⟨ta, tb, ha, hb, Nat.le_refl _, Nat.le_refl _⟩
  | err _ oa ob _ ih =>
    obtain ⟨t', ha', rfl⟩ := (hasTree_odd_iff oa).mp ha
    obtain ⟨t'', hb', rfl⟩ := (hasTree_odd_iff ob).mp hb
    obtain ⟨tx, ty, hx, hy, sx, sy⟩ := ih ha' hb'
    simp only [Tree.err.sizeOf_spec]
    exact ⟨tx, ty, hx, hy, by omega, by omega⟩
  | part _ ea eb fa va fb vb hpq _ ih =>
    obtain ⟨ts, rfl, hts⟩ := ha.of_node ea fa va
    obtain ⟨us, rfl, hqs⟩ := hb.of_node eb fb vb
    obtain ⟨tp, tq, hp, hq, hz⟩ := zip_trees hpq hts hqs
    obtain ⟨tx, ty, hx, hy, sx, sy⟩ := ih hp hq
    have hzm := List.of_mem_zip hz
    exact ⟨tx, ty, hx, hy, Nat.le_of_lt (Nat.lt_of_le_of_lt sx (sizeOf_lt_node hzm.1)),
      Nat.le_of_lt (Nat.lt_of_le_of_lt sy (sizeOf_lt_node hzm.2))⟩

end Meets

end CoilLang.Machine.ValueEq
