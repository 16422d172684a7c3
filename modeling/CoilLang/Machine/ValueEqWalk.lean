import CoilLang.Machine.ValueEqTrees

/-!
# The walk that pairs objects

What the maps of the walk of `==` hold: each pair is either finished, with **equal contents and with all
that lies under it already in the maps**, or an ancestor of the pair at hand, whose contents are larger. By
this invariant the walk ends on acyclic values and says `true` exactly for equal contents that can be paired
one to one together with what the maps hold (`walkSpec_valuesEqRec`).
-/

namespace CoilLang.Machine.ValueEq

open Snapshot (Obj Member Heap)

/-! ### What the maps hold -/

/-- `x` is paired with `y`. -/
def Maps.Has (m : Maps) (x y : ℕ) : Prop := (x, y) ∈ m.fwd

/-- The pair is finished: equal contents, and all that stands under it is paired too. -/
def Done (h : Heap) (R : ℕ → ℕ → Prop) (x y : ℕ) : Prop :=
  ∃ t, HasTree h x t ∧ HasTree h y t ∧ ∀ x' y', Meets h x y x' y' → R x' y'

/-- Both have contents larger than the given sizes. -/
def Larger (h : Heap) (A B x y : ℕ) : Prop :=
  ∃ tx ty, HasTree h x tx ∧ HasTree h y ty ∧ A < sizeOf tx ∧ B < sizeOf ty

/-- The two maps are one relation, one to one, of finished pairs and of pairs larger than `A` and `B`. -/
structure Maps.Ok (h : Heap) (A B : ℕ) (m : Maps) : Prop where
  mirror : m.rev = m.fwd.map Prod.swap
  oneToOne : OneToOne m.Has
  each : ∀ x y, m.Has x y → Done h m.Has x y ∨ Larger h A B x y

theorem Maps.ok_empty (h : Heap) (A B : ℕ) : Maps.empty.Ok h A B where
  mirror := rfl
  oneToOne := fun _ _ _ _ h₁ ↦ absurd h₁ List.not_mem_nil
  each := fun _ _ h₁ ↦ absurd h₁ List.not_mem_nil

section Maps

variable {h : Heap} {A B : ℕ} {m : Maps} {a b : ℕ}

theorem Done.mono {R S : ℕ → ℕ → Prop} {x y : ℕ} (hd : Done h R x y)
    (hsub : ∀ x y, R x y → S x y) : Done h S x y := by
  obtain ⟨t, hx, hy, hm⟩ := hd
  exact ⟨t, hx, hy, fun x' y' h' ↦ hsub _ _ (hm x' y' h')⟩

theorem Larger.mono {A' B' x y : ℕ} (hl : Larger h A B x y) (hA : A' ≤ A) (hB : B' ≤ B) :
    Larger h A' B' x y := by
  obtain ⟨tx, ty, hx, hy, sx, sy⟩ := hl
  exact ⟨tx, ty, hx, hy, by omega, by omega⟩

theorem Maps.Ok.mono {A' B' : ℕ} (hm : m.Ok h A B) (hA : A' ≤ A) (hB : B' ≤ B) : m.Ok h A' B' where
  mirror := hm.mirror
  oneToOne := hm.oneToOne
  each := fun x y hxy ↦ (hm.each x y hxy).imp_right fun hl ↦ hl.mono hA hB

theorem Maps.has_of_fwd {y : ℕ} (hl : m.fwd.lookup a = some y) : m.Has a y := by
  obtain ⟨l₁, l₂, hl, -⟩ := List.lookup_eq_some_iff.mp hl
  show (a, y) ∈ m.fwd
  rw [hl]
  simp

theorem Maps.Ok.has_of_rev {x : ℕ} (hm : m.Ok h A B) (hl : m.rev.lookup b = some x) :
    m.Has x b := by
  obtain ⟨l₁, l₂, hl, -⟩ := List.lookup_eq_some_iff.mp hl
  have hmem : (b, x) ∈ m.rev := by
    rw [hl]
    simp
  rw [hm.mirror, List.mem_map] at hmem
  obtain ⟨⟨u, v⟩, huv, hs⟩ := hmem
  cases hs
  exact huv

theorem Maps.not_has_of_fwd {y : ℕ} (hl : m.fwd.lookup a = none) : ¬ m.Has a y := by
  intro hh
  have := List.lookup_eq_none_iff.mp hl _ hh
  simp at this

theorem Maps.Ok.not_has_of_rev {x : ℕ} (hm : m.Ok h A B) (hl : m.rev.lookup b = none) :
    ¬ m.Has x b := by
  intro hh
  have hmem : (b, x) ∈ m.rev := by
    rw [hm.mirror]
    exact List.mem_map_of_mem (f := Prod.swap) hh
  have := List.lookup_eq_none_iff.mp hl _ hmem
  simp at this

theorem Maps.has_insert {x y : ℕ} : (m.insert a b).Has x y ↔ (x = a ∧ y = b) ∨ m.Has x y := by
  show (x, y) ∈ (a, b) :: m.fwd ↔ _
  rw [List.mem_cons, Prod.mk.injEq]
  rfl

/-- A new pair that is larger than what comes under it. -/
theorem Maps.Ok.insert {A' B' : ℕ} (hm : m.Ok h A B) (ha : m.fwd.lookup a = none)
    (hb : m.rev.lookup b = none) (hA : A' ≤ A) (hB : B' ≤ B) (hl : Larger h A' B' a b) :
    (m.insert a b).Ok h A' B' where
  mirror := by
    show (b, a) :: m.rev = ((a, b) :: m.fwd).map Prod.swap
    rw [hm.mirror]
    rfl
  oneToOne := by
    intro x y x' y' h₁ h₂
    rw [Maps.has_insert] at h₁ h₂
    rcases h₁ with ⟨rfl, rfl⟩ | h₁ <;> rcases h₂ with ⟨rfl, rfl⟩ | h₂
    · simp
    · constructor <;> rintro rfl
      · exact absurd h₂ (Maps.not_has_of_fwd ha)
      · exact absurd h₂ (hm.not_has_of_rev hb)
    · constructor <;> rintro rfl
      · exact absurd h₁ (Maps.not_has_of_fwd ha)
      · exact absurd h₁ (hm.not_has_of_rev hb)
    · exact hm.oneToOne x y x' y' h₁ h₂
  each := by
    intro x y hxy
    rcases Maps.has_insert.mp hxy with ⟨rfl, rfl⟩ | hxy
    · exact .inr hl
    · exact (hm.each x y hxy).imp (fun hd ↦ hd.mono fun x' y' h' ↦ Maps.has_insert.mpr (.inr h'))
        fun hl ↦ hl.mono hA hB

end Maps

/-! ### What a walk gives -/

/-- The walk ends. If it says `true`, then `same` holds and the maps have grown, one to one, by `R`; and it
says `true` if `same` holds and the maps can grow so. -/
def Walks (m : Maps) (R : ℕ → ℕ → Prop) (same : Prop) (res : Option (Bool × Maps)) : Prop :=
  ∃ r m', res = some (r, m') ∧
    (r = true → same ∧ m'.rev = m'.fwd.map Prod.swap ∧ OneToOne m'.Has ∧
      ∀ x y, m'.Has x y ↔ m.Has x y ∨ R x y) ∧
    (same → OneToOne (fun x y ↦ m.Has x y ∨ R x y) → r = true)

section Walks

variable {h : Heap} {m : Maps} {R : ℕ → ℕ → Prop} {same : Prop} {res : Option (Bool × Maps)}

theorem Walks.of_false (m' : Maps) (hres : res = some (false, m'))
    (hno : same → OneToOne (fun x y ↦ m.Has x y ∨ R x y) → False) : Walks m R same res :=
  ⟨false, m', hres, fun hr ↦ absurd hr Bool.false_ne_true, fun h₁ h₂ ↦ (hno h₁ h₂).elim⟩

/-- The maps stay, because they hold `R` already. -/
theorem Walks.of_true {A B : ℕ} (hm : m.Ok h A B) (hres : res = some (true, m)) (hsame : same)
    (hsub : ∀ x y, R x y → m.Has x y) : Walks m R same res :=
  ⟨true, m, hres, fun _ ↦ ⟨hsame, hm.mirror, hm.oneToOne,
    fun x y ↦ ⟨.inl, fun hxy ↦ hxy.elim id (hsub x y)⟩⟩, fun _ _ ↦ rfl⟩

/-- After a walk that said `true` the maps are as they should be. -/
theorem ok_after {A B p q : ℕ} {m' : Maps} {t : Tree} (hm : m.Ok h A B) (hp : HasTree h p t)
    (hq : HasTree h q t) (hmir : m'.rev = m'.fwd.map Prod.swap) (hone : OneToOne m'.Has)
    (hgrow : ∀ x y, m'.Has x y ↔ m.Has x y ∨ Meets h p q x y) : m'.Ok h A B where
  mirror := hmir
  oneToOne := hone
  each := by
    intro x y hxy
    rcases (hgrow x y).mp hxy with hxy | hxy
    · exact (hm.each x y hxy).imp_left fun hd ↦ hd.mono fun x' y' h' ↦ (hgrow x' y').mpr (.inl h')
    · obtain ⟨t', hx, hy⟩ := hxy.same hp hq
      exact .inl ⟨t', hx, hy, fun x' y' h' ↦ (hgrow x' y').mpr (.inr (hxy.trans h'))⟩

end Walks

/-- A walk that is right on words with contents up to depth `n`. -/
def WalkSpec (h : Heap) (n : ℕ) (f : Walk) : Prop :=
  ∀ p q tp tq m, unfold h n p = some tp → HasTree h q tq → m.Ok h (sizeOf tp) (sizeOf tq) →
    Walks m (Meets h p q) (tp = tq) (f p q m)

/-- The parts of two lists, place by place. -/
def PartsMeet (h : Heap) (ps qs : List ℕ) (x y : ℕ) : Prop :=
  ∃ p q, (p, q) ∈ ps.zip qs ∧ Meets h p q x y

theorem partsMeet_cons {h : Heap} {p q : ℕ} {ps qs : List ℕ} {x y : ℕ} :
    PartsMeet h (p :: ps) (q :: qs) x y ↔ Meets h p q x y ∨ PartsMeet h ps qs x y := by
  constructor
  · rintro ⟨p', q', hz, hm⟩
    rw [List.zip_cons_cons, List.mem_cons] at hz
    rcases hz with hz | hz
    · cases hz
      exact .inl hm
    · exact .inr ⟨p', q', hz, hm⟩
  · rintro (hm | ⟨p', q', hz, hm⟩)
    · exact ⟨p, q, List.mem_cons_self, hm⟩
    · exact ⟨p', q', List.mem_cons_of_mem _ hz, hm⟩

/-- All parts in turn: each part finds the maps as the parts before left them. -/
theorem walks_allEq {h : Heap} {n A B : ℕ} {f : Walk} (hf : WalkSpec h n f) {ps : List ℕ}
    {ts : List Tree} (hts : List.Forall₂ (fun p t ↦ unfold h n p = some t) ps ts) {qs : List ℕ}
    {us : List Tree} (hus : List.Forall₂ (HasTree h) qs us) (hlen : ps.length = qs.length)
    (hA : ∀ t ∈ ts, sizeOf t ≤ A) (hB : ∀ t ∈ us, sizeOf t ≤ B) {m : Maps} (hm : m.Ok h A B) :
    Walks m (PartsMeet h ps qs) (ts = us) (allEq f ps qs m) := by
  induction hts generalizing qs us m with
  | nil =>
    cases hus with
    | cons => cases hlen
    | nil =>
      refine Walks.of_true hm rfl rfl fun x y hxy ↦ ?_
      obtain ⟨p, q, hz, -⟩ := hxy
      cases hz
  | @cons p t ps ts hp hps ih =>
    cases hus with
    | nil => cases hlen
    | @cons q u qs us hq hqs =>
      rw [List.forall_mem_cons] at hA hB
      obtain ⟨r, m₁, hr, htrue, hcomplete⟩ := hf p q t u m hp hq (hm.mono hA.1 hB.1)
      cases r with
      | false =>
        refine Walks.of_false m₁ (by simp [allEq, hr]) fun hsame hone ↦ ?_
        rw [List.cons.injEq] at hsame
        refine absurd (hcomplete hsame.1 (hone.mono fun x y hxy ↦ ?_)) Bool.false_ne_true
        exact hxy.imp_right fun hxy ↦ partsMeet_cons.mpr (.inl hxy)
      | true =>
        obtain ⟨rfl, hmir, hone, hgrow⟩ := htrue rfl
        have hm₁ := ok_after hm ⟨n, hp⟩ hq hmir hone hgrow
        obtain ⟨r, m₂, hr₂, htrue₂, hcomplete₂⟩ := ih hqs (by simpa using hlen) hA.2 hB.2 hm₁
        have hall : ∀ x y, (m₁.Has x y ∨ PartsMeet h ps qs x y) ↔
            (m.Has x y ∨ PartsMeet h (p :: ps) (q :: qs) x y) := by
          intro x y
          rw [hgrow, partsMeet_cons, or_assoc]
        refine ⟨r, m₂, by simp [allEq, hr, hr₂], fun hr ↦ ?_, fun hsame hone₂ ↦ ?_⟩
        · obtain ⟨rfl, hmir₂, hone₂, hgrow₂⟩ := htrue₂ hr
          exact ⟨rfl, hmir₂, hone₂, fun x y ↦ (hgrow₂ x y).trans (hall x y)⟩
        · rw [List.cons.injEq] at hsame
          exact hcomplete₂ hsame.2 (hone₂.mono fun x y ↦ (hall x y).mp)

/-! ### Two objects -/

section Objects

theorem view_text {o : Obj} {s : String} (hv : view o = .text s) : o = .string s := by
  cases o with
  | string s' =>
    cases hv
    rfl
  | «instance» typeId slots =>
    cases slots with
    | none => cases hv
    | some slots =>
      simp only [view] at hv
      split at hv <;> cases hv
  | _ => cases hv

theorem view_node {o : Obj} {l : Label} {ps : List ℕ} (hv : view o = .node l ps) :
    (∃ b, o = .bytes b ∧ l = .array ∧ ps = b.map UInt8.toNat) ∨
    (∃ k, o = .array k ps ∧ l = .array) ∨
    (∃ k, o = .tuple k ps ∧ l = .tuple) ∨
    (∃ tag x y, o = .enum tag x y ps ∧ l = .enum tag) ∨
    (∃ k p, o = .boxed k p ∧ l = .boxed ∧ ps = [memberWord p]) ∨
    (∃ typeId, o = .instance typeId (some ps) ∧ isRecordTypeId typeId = true ∧ l = .record) := by
  cases o with
  | string s => cases hv
  | bytes b =>
    cases hv
    exact .inl ⟨b, rfl, rfl, rfl⟩
  | array k ws =>
    cases hv
    exact .inr (.inl ⟨k, rfl, rfl⟩)
  | tuple k ws =>
    cases hv
    exact .inr (.inr (.inl ⟨k, rfl, rfl⟩))
  | enum tag x y ws =>
    cases hv
    exact .inr (.inr (.inr (.inl ⟨tag, x, y, rfl, rfl⟩)))
  | boxed k p =>
    cases hv
    exact .inr (.inr (.inr (.inr (.inl ⟨k, p, rfl, rfl, rfl⟩))))
  | «instance» typeId slots =>
    cases slots with
    | none => cases hv
    | some slots =>
      simp only [view] at hv
      split at hv
      · cases hv
        exact .inr (.inr (.inr (.inr (.inr ⟨typeId, rfl, ‹_›, rfl⟩))))
      · cases hv
  | other u => cases hv

theorem view_self {o : Obj} (hv : view o = .self) : (∃ u, o = .other u) ∨
    ∃ typeId slots, o = .instance typeId slots ∧
      (slots = none ∨ isRecordTypeId typeId = false) := by
  cases o with
  | other u => exact .inl ⟨u, rfl⟩
  | «instance» typeId slots =>
    refine .inr ⟨typeId, slots, rfl, ?_⟩
    cases slots with
    | none => exact .inl rfl
    | some slots =>
      simp only [view] at hv
      split at hv
      · cases hv
      · exact .inr (eq_false_of_ne_true ‹_›)
  | _ => cases hv

variable {f : Walk} {oa ob : Obj} {m : Maps}

theorem objectsEq_text {s t : String} (va : view oa = .text s) (vb : view ob = .text t) :
    objectsEq f oa ob m = some (s == t, m) := by
  rw [view_text va, view_text vb]
  rfl

theorem objectsEq_mixed {s : String} {l : Label} {ps : List ℕ}
    (hv : view oa = .text s ∧ view ob = .node l ps ∨ view oa = .node l ps ∧ view ob = .text s) :
    objectsEq f oa ob m = some (false, m) := by
  rcases hv with ⟨va, vb⟩ | ⟨va, vb⟩
  · rw [view_text va]
    rcases view_node vb with ⟨_, rfl, -⟩ | ⟨_, rfl, -⟩ | ⟨_, rfl, -⟩ | ⟨_, _, _, rfl, -⟩ |
      ⟨_, _, rfl, -⟩ | ⟨_, rfl, -⟩ <;> rfl
  · rw [view_text vb]
    rcases view_node va with ⟨_, rfl, -⟩ | ⟨_, rfl, -⟩ | ⟨_, rfl, -⟩ | ⟨_, _, _, rfl, -⟩ |
      ⟨_, _, rfl, -⟩ | ⟨_, rfl, -⟩ <;> rfl

theorem recordSlots_none {typeId typeId' : ℕ} {slots slots' : Option (List ℕ)}
    (hn : (slots = none ∨ isRecordTypeId typeId = false) ∨
      (slots' = none ∨ isRecordTypeId typeId' = false)) :
    recordSlots typeId slots typeId' slots' = none := by
  rw [recordSlots]
  rcases hn with (rfl | hn) | (rfl | hn)
  · split <;> rfl
  · rw [hn]
    rfl
  · split
    · rfl
    · cases slots <;> rfl
  · rw [hn]
    simp

theorem objectsEq_self (hv : view oa = .self ∨ view ob = .self) :
    objectsEq f oa ob m = some (false, m) := by
  rcases hv with hv | hv
  · rcases view_self hv with ⟨u, rfl⟩ | ⟨typeId, slots, rfl, hn⟩
    · cases ob <;> rfl
    · cases ob with
      | «instance» typeId' slots' => simp only [objectsEq, recordSlots_none (.inl hn)]
      | _ => rfl
  · rcases view_self hv with ⟨u, rfl⟩ | ⟨typeId, slots, rfl, hn⟩
    · cases oa <;> rfl
    · cases oa with
      | «instance» typeId' slots' => simp only [objectsEq, recordSlots_none (.inr hn)]
      | _ => rfl

theorem objectsEq_label_ne {l l' : Label} {ps qs : List ℕ} (va : view oa = .node l ps)
    (vb : view ob = .node l' qs) (hne : l ≠ l') : objectsEq f oa ob m = some (false, m) := by
  rcases view_node va with ⟨_, rfl, rfl, -⟩ | ⟨_, rfl, rfl⟩ | ⟨_, rfl, rfl⟩ |
    ⟨tag, _, _, rfl, rfl⟩ | ⟨_, _, rfl, rfl, -⟩ | ⟨_, rfl, -, rfl⟩ <;>
  rcases view_node vb with ⟨_, rfl, rfl, -⟩ | ⟨_, rfl, rfl⟩ | ⟨_, rfl, rfl⟩ |
    ⟨tag', _, _, rfl, rfl⟩ | ⟨_, _, rfl, rfl, -⟩ | ⟨_, rfl, -, rfl⟩
  all_goals first
    | exact absurd rfl hne
    | rfl
    | exact if_pos (.inl fun htag ↦ hne (congrArg _ htag))

/-- Aggregates of one label and length are compared part by part, two byte arrays at once. -/
theorem objectsEq_node {l : Label} {ps qs : List ℕ} (va : view oa = .node l ps)
    (vb : view ob = .node l qs) :
    (ps.length ≠ qs.length ∧ objectsEq f oa ob m = some (false, m)) ∨
    (ps.length = qs.length ∧ objectsEq f oa ob m = allEq f ps qs m) ∨
    (ps.length = qs.length ∧ (∀ p ∈ ps, p < 4096) ∧ (∀ q ∈ qs, q < 4096) ∧
      objectsEq f oa ob m = some (decide (ps = qs), m)) := by
  -- Most pairs first compare lengths and then walk over the parts.
  have hlen : (objectsEq f oa ob m =
      if ps.length ≠ qs.length then some (false, m) else allEq f ps qs m) →
      (ps.length ≠ qs.length ∧ objectsEq f oa ob m = some (false, m)) ∨
      (ps.length = qs.length ∧ objectsEq f oa ob m = allEq f ps qs m) := by
    intro heq
    by_cases hl : ps.length = qs.length
    · exact .inr ⟨hl, by rw [heq, if_neg (not_not.mpr hl)]⟩
    · exact .inl ⟨hl, by rw [heq, if_pos hl]⟩
  rcases view_node va with ⟨b, rfl, rfl, rfl⟩ | ⟨_, rfl, rfl⟩ | ⟨_, rfl, rfl⟩ |
    ⟨tag, _, _, rfl, rfl⟩ | ⟨_, p, rfl, rfl, rfl⟩ | ⟨_, rfl, hr, rfl⟩ <;>
  rcases view_node vb with ⟨b', rfl, h', rfl⟩ | ⟨_, rfl, h'⟩ | ⟨_, rfl, h'⟩ |
    ⟨tag', _, _, rfl, h'⟩ | ⟨_, p', rfl, h', rfl⟩ | ⟨_, rfl, hr', h'⟩ <;> cases h'
  · have hbyte : ∀ (c : List UInt8), ∀ p ∈ c.map UInt8.toNat, p < 4096 := by
      intro c p hp
      obtain ⟨x, -, rfl⟩ := List.mem_map.mp hp
      have := x.toNat_lt
      omega
    by_cases hl : b.length = b'.length
    · refine .inr (.inr ⟨by simpa using hl, hbyte b, hbyte b', ?_⟩)
      have hinj : (b.map UInt8.toNat = b'.map UInt8.toNat) ↔ b = b' :=
        (List.map_injective_iff.mpr fun _ _ ↦ UInt8.toNat.inj).eq_iff
      simp only [objectsEq, hl, ne_eq, not_true_eq_false, if_false, hinj, beq_eq_decide]
    · exact .inl ⟨by simpa using hl, by simp only [objectsEq, ne_eq, hl, not_false_eq_true, if_true]⟩
  · exact (hlen rfl).imp_right .inl
  · exact (hlen rfl).imp_right .inl
  · exact (hlen rfl).imp_right .inl
  · exact (hlen rfl).imp_right .inl
  · exact (hlen (by simp [objectsEq])).imp_right .inl
  · refine .inr (.inl ⟨rfl, ?_⟩)
    simp only [objectsEq, allEq]
    rcases f (memberWord p) (memberWord p') m with - | ⟨- | -, m'⟩ <;> rfl
  · refine (hlen ?_).imp_right .inl
    by_cases hl : ps.length = qs.length <;> simp [objectsEq, recordSlots, hr, hr', hl]

end Objects

/-! ### The walk -/

section Pairs

variable {h : Heap} {m : Maps} {a b n : ℕ} {ta tb : Tree}

/-- One of the two stands in the maps already: the answer is whether it stands opposite the other. -/
theorem walks_met (hne : a ≠ b) (ea : a % 2 = 0) (eb : b % 2 = 0) (ha : HasTree h a ta)
    (hb : HasTree h b tb) (hm : m.Ok h (sizeOf ta) (sizeOf tb)) {x y : ℕ} (hxy : m.Has x y)
    (hx : x = a ∨ y = b) (r : Bool) (hr : r = true ↔ x = a ∧ y = b) :
    Walks m (Meets h a b) (ta = tb) (some (r, m)) := by
  cases r with
  | true =>
    obtain ⟨rfl, rfl⟩ := hr.mp rfl
    rcases hm.each x y hxy with ⟨t, hx', hy', hdone⟩ | ⟨tx, ty, hx', -, sx, -⟩
    · exact Walks.of_true hm rfl ((ha.unique hx').trans (hy'.unique hb)) hdone
    · rw [ha.unique hx'] at sx
      omega
  | false =>
    refine Walks.of_false m rfl fun _ hone ↦ ?_
    have hiff := hone x y a b (.inl hxy) (.inr (.here hne ea eb))
    refine absurd (hr.mpr ?_) Bool.false_ne_true
    rcases hx with rfl | rfl
    · exact ⟨rfl, hiff.mp rfl⟩
    · exact ⟨hiff.mpr rfl, rfl⟩

/-- A new pair with equal contents and nothing under it. -/
theorem walks_insert (hm : m.Ok h (sizeOf ta) (sizeOf tb)) (ha : HasTree h a ta)
    (hb : HasTree h b tb) (hfwd : m.fwd.lookup a = none) (hrev : m.rev.lookup b = none)
    (hsame : ta = tb) (honly : ∀ x y, Meets h a b x y ↔ x = a ∧ y = b) :
    Walks m (Meets h a b) (ta = tb) (some (true, m.insert a b)) := by
  have hok : (m.insert a b).Ok h 0 0 :=
    hm.insert hfwd hrev (Nat.zero_le _) (Nat.zero_le _) ⟨ta, tb, ha, hb, ta.sizeOf_pos, tb.sizeOf_pos⟩
  refine ⟨true, _, rfl, fun _ ↦ ⟨hsame, hok.mirror, hok.oneToOne, fun x y ↦ ?_⟩, fun _ _ ↦ rfl⟩
  rw [Maps.has_insert, honly, or_comm]

/-- Two aggregates of one label: the parts are walked with the new pair in the maps. -/
theorem walks_node {oa ob : Obj} {l : Label} {ps qs : List ℕ} {ts us : List Tree} {f : Walk}
    (hf : WalkSpec h n f) (hne : a ≠ b) (ea : a % 2 = 0) (eb : b % 2 = 0)
    (fa : h.find a = some oa) (va : view oa = .node l ps) (fb : h.find b = some ob)
    (vb : view ob = .node l qs) (hts : List.Forall₂ (fun p t ↦ unfold h n p = some t) ps ts)
    (hus : List.Forall₂ (HasTree h) qs us) (hlen : ps.length = qs.length)
    (ha : HasTree h a (.node l ts)) (hb : HasTree h b (.node l us))
    (hm : m.Ok h (sizeOf (Tree.node l ts)) (sizeOf (Tree.node l us)))
    (hfwd : m.fwd.lookup a = none) (hrev : m.rev.lookup b = none) :
    Walks m (Meets h a b) (Tree.node l ts = .node l us) (allEq f ps qs (m.insert a b)) := by
  have hA : ∀ t ∈ ts, sizeOf t ≤ sizeOf (Tree.node l ts) - 1 := by
    intro t ht
    have := sizeOf_lt_node (l := l) ht
    omega
  have hB : ∀ t ∈ us, sizeOf t ≤ sizeOf (Tree.node l us) - 1 := by
    intro t ht
    have := sizeOf_lt_node (l := l) ht
    omega
  have hok := hm.insert hfwd hrev (Nat.sub_le _ 1) (Nat.sub_le _ 1)
    ⟨_, _, ha, hb, Nat.sub_lt (Tree.sizeOf_pos _) Nat.one_pos,
      Nat.sub_lt (Tree.sizeOf_pos _) Nat.one_pos⟩
  obtain ⟨r, m', hres, htrue, hcomplete⟩ := walks_allEq hf hts hus hlen hA hB hok
  have hall : ∀ x y, ((m.insert a b).Has x y ∨ PartsMeet h ps qs x y) ↔
      (m.Has x y ∨ Meets h a b x y) := by
    intro x y
    rw [meets_node_iff hne ea eb fa va fb vb, Maps.has_insert]
    show (_ ∨ PartsMeet h ps qs x y) ↔ (_ ∨ _ ∨ PartsMeet h ps qs x y)
    rw [← or_assoc, or_comm (a := m.Has x y)]
  refine ⟨r, m', hres, fun hr ↦ ?_, fun hsame hone ↦ ?_⟩
  · obtain ⟨rfl, hmir, hone, hgrow⟩ := htrue hr
    exact ⟨rfl, hmir, hone, fun x y ↦ (hgrow x y).trans (hall x y)⟩
  · rw [Tree.node.injEq] at hsame
    exact hcomplete hsame.2 (hone.mono fun x y ↦ (hall x y).mp)

end Pairs

section Walk

variable (h : PagedHeap)

/-- What a pair of new words gives, with the pair in the maps. -/
def compareNew (h : Heap) (f : Walk) (a b : ℕ) (m : Maps) : Option (Bool × Maps) :=
  match h.find a, h.find b with
  | some oa, some ob => objectsEq f oa ob m
  | _, _ => some (false, m)

theorem compareNew_some {f : Walk} {h : Heap} {a b : ℕ} {m : Maps} {oa ob : Obj}
    (fa : h.find a = some oa) (fb : h.find b = some ob) :
    compareNew h f a b m = objectsEq f oa ob m := by
  rw [compareNew, fa, fb]

theorem compareNew_leaf {f : Walk} {h : Heap} {a b : ℕ} {m : Maps}
    (hl : IsLeaf h a ∨ IsLeaf h b) : compareNew h f a b m = some (false, m) := by
  rw [compareNew]
  cases fa : h.find a with
  | none => rfl
  | some oa =>
    cases fb : h.find b with
    | none => rfl
    | some ob => exact objectsEq_self (hl.imp (fun hl ↦ hl oa fa) fun hl ↦ hl ob fb)

theorem walks_compareNew {n : ℕ} {f : Walk} (hf : WalkSpec h.toHeap n f) {a b : ℕ} {ta tb : Tree}
    {m : Maps} (hne : a ≠ b) (ea : a % 2 = 0) (eb : b % 2 = 0)
    (hua : unfold h.toHeap (n + 1) a = some ta) (hb : HasTree h.toHeap b tb)
    (hm : m.Ok h.toHeap (sizeOf ta) (sizeOf tb)) (hfwd : m.fwd.lookup a = none)
    (hrev : m.rev.lookup b = none) :
    Walks m (Meets h.toHeap a b) (ta = tb) (compareNew h.toHeap f a b (m.insert a b)) := by
  have ha : HasTree h.toHeap a ta := ⟨n + 1, hua⟩
  have hdiff : ∀ m', ta ≠ tb → Walks m (Meets h.toHeap a b) (ta = tb) (some (false, m')) :=
    fun m' hta ↦ Walks.of_false m' rfl fun hsame _ ↦ hta hsame
  rcases even_cases h.toHeap a with ⟨oa, s, fa, va⟩ | ⟨oa, l, ps, fa, va⟩ | hla
  · rcases even_cases h.toHeap b with ⟨ob, s', fb, vb⟩ | ⟨ob, l', qs, fb, vb⟩ | hlb
    · cases ha.of_text ea fa va
      cases hb.of_text eb fb vb
      rw [compareNew_some fa fb, objectsEq_text va vb]
      by_cases hs : s = s'
      · subst hs
        rw [beq_self_eq_true]
        exact walks_insert hm ha hb hfwd hrev rfl
          fun x y ↦ meets_text_iff hne ea eb fa va
      · rw [beq_eq_false_iff_ne.mpr hs]
        exact hdiff _ fun hsame ↦ hs (by injection hsame)
    · cases ha.of_text ea fa va
      obtain ⟨us, rfl, -⟩ := hb.of_node eb fb vb
      rw [compareNew_some fa fb, objectsEq_mixed (.inl ⟨va, vb⟩)]
      exact hdiff _ (by simp)
    · cases ha.of_text ea fa va
      cases hb.of_leaf eb hlb
      rw [compareNew_leaf (.inr hlb)]
      exact hdiff _ (by simp)
  · rcases even_cases h.toHeap b with ⟨ob, s', fb, vb⟩ | ⟨ob, l', qs, fb, vb⟩ | hlb
    · obtain ⟨ts, rfl, -⟩ := ha.of_node ea fa va
      cases hb.of_text eb fb vb
      rw [compareNew_some fa fb, objectsEq_mixed (.inr ⟨va, vb⟩)]
      exact hdiff _ (by simp)
    · rw [unfold_node ea fa va, Option.map_eq_some_iff] at hua
      obtain ⟨ts, hts, rfl⟩ := hua
      have hts := mapM_eq_some_iff.mp hts
      obtain ⟨us, rfl, hus⟩ := hb.of_node eb fb vb
      rw [compareNew_some fa fb]
      by_cases hl : l = l'
      · subst hl
        rcases objectsEq_node va vb with ⟨hlen, heq⟩ | ⟨hlen, heq⟩ | ⟨hlen, hps, hqs, heq⟩
        · rw [heq]
          refine hdiff _ fun hsame ↦ hlen ?_
          rw [Tree.node.injEq] at hsame
          rw [hts.length_eq, hus.length_eq, hsame.2]
        · rw [heq]
          exact walks_node hf hne ea eb fa va fb vb hts hus hlen ha hb hm hfwd hrev
        · rw [heq]
          have hts' := hts.imp fun p t ht ↦ (⟨n, ht⟩ : HasTree h.toHeap p t)
          by_cases hpq : ps = qs
          · subst hpq
            rw [decide_eq_true rfl]
            refine walks_insert hm ha hb hfwd hrev (by rw [trees_unique hts' hus]) fun x y ↦ ?_
            rw [meets_node_iff hne ea eb fa va fb vb]
            refine or_iff_left ?_
            rintro ⟨p, q, hz, hxy⟩
            cases eq_of_mem_zip_self hz
            exact not_meets_self hxy
          · rw [decide_eq_false hpq]
            refine hdiff _ fun hsame ↦ hpq ?_
            rw [Tree.node.injEq] at hsame
            rw [hsame.2] at hts'
            exact h.words_inj hts' hus hps hqs
      · rw [objectsEq_label_ne va vb hl]
        exact hdiff _ fun hsame ↦ hl (by injection hsame)
    · obtain ⟨ts, rfl, -⟩ := ha.of_node ea fa va
      cases hb.of_leaf eb hlb
      rw [compareNew_leaf (.inr hlb)]
      exact hdiff _ (by simp)
  · cases ha.of_leaf ea hla
    rw [compareNew_leaf (.inl hla)]
    exact hdiff _ fun hsame ↦ hne (by rw [← hsame] at hb; exact hb.word_eq)

theorem PagedHeap.tree_ne_of_zero {a b : ℕ} {ta tb : Tree} (hab : a ≠ b) (hz : a = 0 ∨ b = 0)
    (ha : HasTree h.toHeap a ta) (hb : HasTree h.toHeap b tb) : ta ≠ tb := by
  rintro rfl
  rcases hz with rfl | rfl
  · cases ha.of_leaf rfl (h.isLeaf_of_lt (by omega))
    exact hab hb.word_eq
  · cases hb.of_leaf rfl (h.isLeaf_of_lt (by omega))
    exact hab ha.word_eq.symm

theorem walkSpec_valuesEqRec (n : ℕ) : WalkSpec h.toHeap n (valuesEqRec h.toHeap n) := by
  induction n with
  | zero =>
    intro a b ta tb m ha
    cases ha
  | succ n ih =>
    intro a b ta tb m hua hb hm
    have ha : HasTree h.toHeap a ta := ⟨n + 1, hua⟩
    rw [valuesEqRec]
    by_cases hab : a = b
    · subst hab
      rw [if_pos rfl]
      exact Walks.of_true hm rfl (ha.unique hb) fun x y hxy ↦ absurd hxy not_meets_self
    rw [if_neg hab]
    by_cases hz : a = 0 ∨ b = 0
    · rw [if_pos hz]
      exact Walks.of_false m rfl fun hsame _ ↦ h.tree_ne_of_zero hab hz ha hb hsame
    rw [if_neg hz]
    by_cases hp : a % 2 = b % 2
    swap
    · rw [if_pos hp]
      refine Walks.of_false m rfl fun hsame _ ↦ hp ?_
      subst hsame
      exact ha.parity hb
    rw [if_neg (not_not.mpr hp)]
    by_cases ho : a % 2 = 0
    swap
    · -- Both are `Err`: the payloads decide.
      have ho' : b % 2 ≠ 0 := hp ▸ ho
      rw [if_pos ho]
      rw [unfold_odd ho, Option.map_eq_some_iff] at hua
      obtain ⟨ta', hua, rfl⟩ := hua
      obtain ⟨tb', hb', rfl⟩ := (hasTree_odd_iff ho').mp hb
      obtain ⟨r, m', hres, htrue, hcomplete⟩ := ih (a - 1) (b - 1) ta' tb' m hua hb'
        (hm.mono (by simp) (by simp))
      refine ⟨r, m', hres, fun hr ↦ ?_, fun hsame hone ↦ ?_⟩
      · obtain ⟨rfl, hmir, hone, hgrow⟩ := htrue hr
        refine ⟨rfl, hmir, hone, fun x y ↦ ?_⟩
        rw [hgrow, meets_odd_iff hab ho ho']
      · rw [Tree.err.injEq] at hsame
        refine hcomplete hsame (hone.mono fun x y hxy ↦ ?_)
        rwa [meets_odd_iff hab ho ho']
    have ho' : b % 2 = 0 := hp ▸ ho
    rw [if_neg (not_not.mpr ho)]
    cases hfwd : m.fwd.lookup a with
    | some y =>
      exact walks_met hab ho ho' ha hb hm (Maps.has_of_fwd hfwd) (.inl rfl) _ (by simp)
    | none =>
      cases hrev : m.rev.lookup b with
      | some x =>
        exact walks_met hab ho ho' ha hb hm (hm.has_of_rev hrev) (.inr rfl) _ (by simp)
      | none => exact walks_compareNew h ih hab ho ho' hua hb hm hfwd hrev

end Walk

end CoilLang.Machine.ValueEq
