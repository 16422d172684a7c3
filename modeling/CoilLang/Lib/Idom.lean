import CoilLang.Lib.Dominance
import CoilLang.Lib.Postorder

/-!
# Immediate dominators by intersecting

The nodes of a graph are numbered by a postorder, and each gets a pointer `up` to a node with a greater
number. A **round** goes through the nodes in reverse postorder and points each to the place where the
ways up from its predecessors meet (`intersect`); rounds are made until one changes nothing.

On a graph with irreducible loops a pointer may have to be corrected, and then the ways up of the nodes
below it change as well. What a round relies on nevertheless is `IdomInv`. Besides soundness (`dom`) it
says that no meeting place of the predecessors is below the pointer (`low`), and that for the nodes
already visited in the round the pointer lies on the way up from the parent in the depth-first walk
(`near`). From this a corrected pointer moves **up along the old way** (`IdomInv.anc_of_parents`), so the
ways up only get shorter (`IdomInv.anc_of_update`), and the invariant is kept (`IdomInv.update`).
-/

namespace CoilLang

/-- `d` is met on the way up from `b`. -/
inductive Anc {α : Type*} (up : α → Option α) : α → α → Prop
  | refl (b : α) : Anc up b b
  | up {b c d : α} (h : up b = some c) (hd : Anc up d c) : Anc up d b

namespace Anc

variable {α : Type*} {up : α → Option α} {a b c d : α}

theorem trans (h : Anc up c d) (h' : Anc up d b) : Anc up c b := by
  induction h' with
  | refl => exact h
  | up hb _ ih => exact .up hb (ih h)

/-- Above another node one has gone one step up. -/
theorem of_ne (h : Anc up d b) (hne : d ≠ b) (hb : up b = some c) : Anc up d c := by
  cases h with
  | refl => exact absurd rfl hne
  | up hb' hd =>
    obtain rfl := Option.some.inj (hb.symm.trans hb')
    exact hd

theorem exists_up (h : Anc up d b) (hne : d ≠ b) : ∃ c, up b = some c := by
  cases h with
  | refl => exact absurd rfl hne
  | up hb _ => exact ⟨_, hb⟩

theorem num_le {num : α → ℕ} (hup : ∀ {x y}, up x = some y → num x ≤ num y) (h : Anc up d b) :
    num b ≤ num d := by
  induction h with
  | refl => exact le_rfl
  | up hc _ ih => exact (hup hc).trans ih

/-- What every step up keeps. -/
theorem preserves {P : α → Prop} (hP : ∀ x y, P x → up x = some y → P y) (h : Anc up d b)
    (hb : P b) : P d := by
  induction h with
  | refl => exact hb
  | up hc _ ih => exact ih (hP _ _ hb hc)

end Anc

/-! ### The algorithm -/

section
variable {α : Type*} [DecidableEq α]

/-- Where the ways up from two nodes meet: the one with the lesser number goes up. -/
def intersect (num : α → ℕ) (up : α → Option α) : ℕ → α → α → Option α
  | 0, _, _ => none
  | n + 1, a, b =>
    if a = b then some a
    else if num a < num b then (up a).bind fun a ↦ intersect num up n a b
    else if num b < num a then (up b).bind fun b ↦ intersect num up n a b
    else intersect num up n a b

/-- Where the ways up from the nodes with a pointer meet, if there is one. -/
def meetAll (num : α → ℕ) (up : α → Option α) (fuel : ℕ) :
    List α → Option α → Option (Option α)
  | [], new => some new
  | p :: ps, new =>
    match up p, new with
    | none, new => meetAll num up fuel ps new
    | some _, none => meetAll num up fuel ps (some p)
    | some _, some q => (intersect num up fuel p q).bind fun m ↦ meetAll num up fuel ps (some m)

/-- Set the pointer of one node; the flag says whether one has changed. -/
def visitNode (num : α → ℕ) (preds : α → List α) (root : α) (fuel : ℕ) (st : (α → Option α) × Bool)
    (b : α) : Option ((α → Option α) × Bool) :=
  if b = root then some st
  else (meetAll num st.1 fuel (preds b) none).map fun new ↦
    if st.1 b = new then st else (Function.update st.1 b new, true)

/-- One round in reverse postorder. -/
def idomRound (preds : α → List α) (root : α) (order : List α) (fuel : ℕ) (up : α → Option α) :
    Option ((α → Option α) × Bool) :=
  order.reverse.foldlM (visitNode order.idxOf preds root fuel) (up, false)

/-- Rounds until one changes nothing. -/
def idomRounds (preds : α → List α) (root : α) (order : List α) (fuel : ℕ) :
    ℕ → (α → Option α) → Option (α → Option α)
  | 0, _ => none
  | n + 1, up => (idomRound preds root order fuel up).bind fun r ↦
    if r.2 then idomRounds preds root order fuel n r.1 else some r.1

def idoms (preds : α → List α) (root : α) (order : List α) (fuel : ℕ) : Option (α → Option α) :=
  idomRounds preds root order fuel fuel (Function.update (fun _ ↦ none) root (some root))

/-! ### More fuel gives the same end -/

variable {num : α → ℕ} {preds : α → List α} {root : α} {order : List α} {up : α → Option α} {n m : ℕ}

theorem intersect_mono (hnm : n ≤ m) {a b r : α} (h : intersect num up n a b = some r) :
    intersect num up m a b = some r := by
  induction n generalizing a b m with
  | zero => cases h
  | succ n ih =>
    obtain ⟨m, rfl⟩ : ∃ k, m = k + 1 := ⟨m - 1, by omega⟩
    have hnm' : n ≤ m := by omega
    unfold intersect at h ⊢
    split at h
    · rename_i hab
      rw [if_pos hab]
      exact h
    · rename_i hab
      rw [if_neg hab]
      split at h
      · rename_i hlt
        obtain ⟨c, hc, hr⟩ := Option.bind_eq_some_iff.1 h
        rw [if_pos hlt, hc]
        exact ih hnm' hr
      · rename_i hlt
        rw [if_neg hlt]
        split at h
        · rename_i hlt'
          obtain ⟨c, hc, hr⟩ := Option.bind_eq_some_iff.1 h
          rw [if_pos hlt', hc]
          exact ih hnm' hr
        · rename_i hlt'
          rw [if_neg hlt']
          exact ih hnm' h

theorem meetAll_mono (hnm : n ≤ m) {l : List α} {new r : Option α}
    (h : meetAll num up n l new = some r) : meetAll num up m l new = some r := by
  induction l generalizing new with
  | nil => exact h
  | cons p ps ih =>
    unfold meetAll at h ⊢
    split at h
    · exact ih h
    · exact ih h
    · obtain ⟨c, hc, hr⟩ := Option.bind_eq_some_iff.1 h
      rw [intersect_mono hnm hc]
      exact ih hr

theorem visitNode_mono (hnm : n ≤ m) {st r : (α → Option α) × Bool} {b : α}
    (h : visitNode num preds root n st b = some r) : visitNode num preds root m st b = some r := by
  unfold visitNode at h ⊢
  split at h
  · rename_i hb
    rw [if_pos hb]
    exact h
  · rename_i hb
    obtain ⟨new, hnew, rfl⟩ := Option.map_eq_some_iff.1 h
    rw [if_neg hb, meetAll_mono hnm hnew, Option.map_some]

theorem idomRound_mono (hnm : n ≤ m) {r : (α → Option α) × Bool}
    (h : idomRound preds root order n up = some r) : idomRound preds root order m up = some r := by
  unfold idomRound at h ⊢
  generalize (up, false) = st at h ⊢
  generalize order.reverse = l at h ⊢
  induction l generalizing st with
  | nil => exact h
  | cons b l ih =>
    rw [List.foldlM_cons] at h ⊢
    obtain ⟨st', hst', hr⟩ := Option.bind_eq_some_iff.1 h
    show (visitNode _ preds root m st b).bind _ = _
    rw [visitNode_mono hnm hst']
    exact ih st' hr

theorem idoms_mono (hnm : n ≤ m) {r : α → Option α} (h : idoms preds root order n = some r) :
    idoms preds root order m = some r := by
  have key : ∀ {k l : ℕ} {up : α → Option α}, k ≤ l → idomRounds preds root order n k up = some r →
      idomRounds preds root order m l up = some r := by
    intro k
    induction k with
    | zero => exact fun _ h ↦ (by cases h)
    | succ k ih =>
      intro l up hkl h
      obtain ⟨l, rfl⟩ : ∃ j, l = j + 1 := ⟨l - 1, by omega⟩
      unfold idomRounds at h ⊢
      obtain ⟨st, hst, hr⟩ := Option.bind_eq_some_iff.1 h
      rw [idomRound_mono hnm hst, Option.bind_some]
      split at hr
      · rename_i hflag
        rw [if_pos hflag]
        exact ih (by omega) hr
      · rename_i hflag
        rw [if_neg hflag]
        exact hr
  exact key hnm h

end

/-! ### The graph and its numbering -/

variable {α : Type*}

/-- The nodes reached from the root, numbered such that each other one has a predecessor `tp` with a
greater number. -/
structure Numbering (root : α) (E : α → α → Prop) (preds : α → List α) (M : α → Prop)
    (num : α → ℕ) (tp : α → Option α) : Prop where
  root_mem : M root
  inj : ∀ {a b}, M a → M b → num a = num b → a = b
  le_root : ∀ {a}, M a → num a ≤ num root
  mem_preds : ∀ {b}, M b → b ≠ root → ∀ p, p ∈ preds b ↔ E p b
  closed : ∀ {a b}, M a → E a b → M b
  tp_root : tp root = none
  exists_tp : ∀ {b}, M b → b ≠ root → ∃ p, tp b = some p
  parent : ∀ {b p}, M b → tp b = some p → M p ∧ p ∈ preds b ∧ num b < num p

namespace Numbering

variable {root : α} {E : α → α → Prop} {preds : α → List α} {M : α → Prop} {num : α → ℕ}
  {tp : α → Option α} (hn : Numbering root E preds M num tp) {b d x : α}
include hn

/-- A walk from the root that comes down in the numbers to the node. -/
theorem exists_walk (hx : M x) : ∃ h, Walk (· = root) E x h ∧ ∀ y ∈ h, num x ≤ num y := by
  induction hk : num root - num x using Nat.strong_induction_on generalizing x with
  | _ k ih =>
    by_cases hroot : x = root
    · subst hroot
      exact ⟨[x], .start rfl, by simp⟩
    · obtain ⟨p, hp⟩ := hn.exists_tp hx hroot
      obtain ⟨hpM, hpx, hlt⟩ := hn.parent hx hp
      have hle := hn.le_root hpM
      obtain ⟨h, hw, hnum⟩ := ih _ (by omega) hpM rfl
      refine ⟨x :: h, .step hw ((hn.mem_preds hx hroot p).1 hpx), fun y hy ↦ ?_⟩
      rcases List.mem_cons.1 hy with rfl | hy
      · exact le_rfl
      · exact (le_of_lt hlt).trans (hnum y hy)

theorem mem_of_walk {h : List α} (hw : Walk (· = root) E x h) : M x := by
  induction hw with
  | start ha => exact ha ▸ hn.root_mem
  | step _ he ih => exact hn.closed ih he

theorem num_le_of_dominates (hx : M x) (hd : Dominates (· = root) E d x) : num x ≤ num d := by
  obtain ⟨h, hw, hnum⟩ := hn.exists_walk hx
  exact hnum d (hd h hw)

end Numbering

/-! ### What holds while the pointers are corrected -/

/-- The pointers, when the nodes `done` have been visited in this round. -/
structure IdomInv (root : α) (E : α → α → Prop) (preds : α → List α) (M : α → Prop) (num : α → ℕ)
    (tp : α → Option α) (up : α → Option α) (done : α → Prop) : Prop where
  up_root : up root = some root
  mem : ∀ {x y}, up x = some y → M x ∧ M y ∧ ∃ z, up y = some z
  lt : ∀ {x y}, up x = some y → x ≠ root → num x < num y
  tree : ∀ {x y}, up x = some y → Anc tp y x
  assigned : ∀ {x}, done x → ∃ y, up x = some y
  /-- A visited node points to a place above its parent. -/
  near : ∀ {x y p}, done x → up x = some y → tp x = some p → Anc up y p
  /-- Where the predecessors meet is not below the pointer. -/
  low : ∀ {x y d}, up x = some y → x ≠ root →
    (∀ p ∈ preds x, (∃ z, up p = some z) → Anc up d p) → num y ≤ num d
  dom : ∀ {x y d}, up x = some y → x ≠ root → Dominates (· = root) E d x → d ≠ x →
    Dominates (· = root) E d y

namespace IdomInv

variable {root : α} {E : α → α → Prop} {preds : α → List α} {M : α → Prop} {num : α → ℕ}
  {tp up : α → Option α} {done : α → Prop} {a b d h r x y z : α}

/-- Nothing has been visited in a new round. -/
theorem newRound (hi : IdomInv root E preds M num tp up done) :
    IdomInv root E preds M num tp up fun _ ↦ False :=
  { hi with assigned := fun h ↦ h.elim, near := fun h ↦ h.elim }

variable (hi : IdomInv root E preds M num tp up done)
include hi

theorem assigned_of_anc (h : Anc up d x) (hx : up x = some y) : ∃ z, up d = some z :=
  h.preserves (P := fun x ↦ ∃ y, up x = some y)
    (fun _ _ _ h ↦ (hi.mem h).2.2) ⟨y, hx⟩

theorem up_le (h : up x = some y) : num x ≤ num y := by
  by_cases hroot : x = root
  · rw [hroot, Option.some.inj (hi.up_root.symm.trans (hroot ▸ h))]
  · exact le_of_lt (hi.lt h hroot)

theorem num_le (h : Anc up d x) : num x ≤ num d := h.num_le hi.up_le

theorem eq_root_of_anc (h : Anc up d root) : d = root :=
  h.preserves (P := (· = root)) (fun x y hx hxy ↦ by
    rw [hx] at hxy
    exact Option.some.inj (hxy.symm.trans hi.up_root)) rfl

theorem anc_tp (h : Anc up d x) : Anc tp d x := by
  induction h with
  | refl => exact .refl _
  | up hc _ ih => exact ih.trans (hi.tree hc)

/-- The ways up from two nodes meet. What holds of both, and goes on holding on the way up as far as
`d`, holds where they meet. -/
theorem intersect_spec [DecidableEq α] (hn : Numbering root E preds M num tp) {n : ℕ}
    (hfuel : (num root - num a) + (num root - num b) < n) (ha : up a = some y) (hb : up b = some z) :
    ∃ r, intersect num up n a b = some r ∧ Anc up r a ∧ Anc up r b ∧
      ∀ (P : α → Prop) (d : α), (∀ x, P x → num x ≤ num d) →
        (∀ x y, P x → x ≠ d → up x = some y → P y) → P a → P b → P r := by
  induction n generalizing a b y z with
  | zero => omega
  | succ n ih =>
    have haM := (hi.mem ha).1
    have hbM := (hi.mem hb).1
    unfold intersect
    split
    · rename_i hab
      exact ⟨a, rfl, .refl a, hab ▸ .refl a, fun P d _ _ hPa _ ↦ hPa⟩
    · rename_i hab
      split
      · rename_i hlt
        -- `a` is not the root, and goes up
        have hle := hn.le_root hbM
        have hroot : a ≠ root := by
          rintro rfl
          omega
        have hlt' := hi.lt ha hroot
        obtain ⟨hyM, w, hw⟩ := (hi.mem ha).2
        have hle' := hn.le_root hyM
        obtain ⟨r, hr, hra, hrb, hP⟩ := ih (by omega) hw hb
        refine ⟨r, by simp [ha, hr], .up ha hra, hrb, fun P d hnum hup hPa hPb ↦ ?_⟩
        refine hP P d hnum hup (hup a y hPa ?_ ha) hPb
        rintro rfl
        have := hnum b hPb
        omega
      · split
        · rename_i hlt
          have hle := hn.le_root haM
          have hroot : b ≠ root := by
            rintro rfl
            omega
          have hlt' := hi.lt hb hroot
          obtain ⟨hzM, w, hw⟩ := (hi.mem hb).2
          have hle' := hn.le_root hzM
          obtain ⟨r, hr, hra, hrb, hP⟩ := ih (by omega) ha hw
          refine ⟨r, by simp [hb, hr], hra, .up hb hrb, fun P d hnum hup hPa hPb ↦ ?_⟩
          refine hP P d hnum hup hPa (hup b z hPb ?_ hb)
          rintro rfl
          have := hnum a hPa
          omega
        · exact absurd (hn.inj haM hbM (by omega)) hab

/-- The meeting place of the nodes with a pointer. -/
theorem meetAll_spec [DecidableEq α] (hn : Numbering root E preds M num tp) {fuel : ℕ}
    (hfuel : 2 * num root < fuel) (l : List α) (new : Option α)
    (hnew : ∀ q, new = some q → ∃ z, up q = some z) :
    ∃ m, meetAll num up fuel l new = some m ∧
      (∀ p ∈ l, ∀ z, up p = some z → ∃ r, m = some r ∧ Anc up r p) ∧
      (∀ q, new = some q → ∃ r, m = some r ∧ Anc up r q) ∧
      ∀ r, m = some r → (∃ z, up r = some z) ∧
        ∀ (P : α → Prop) (d : α), (∀ x, P x → num x ≤ num d) →
          (∀ x y, P x → x ≠ d → up x = some y → P y) → (∀ q, new = some q → P q) →
          (∀ p ∈ l, ∀ z, up p = some z → P p) → P r := by
  induction l generalizing new with
  | nil =>
    refine ⟨new, rfl, by simp, fun q hq ↦ ⟨q, hq, .refl q⟩, fun r hr ↦ ⟨hnew r hr, ?_⟩⟩
    exact fun P d _ _ hPn _ ↦ hPn r hr
  | cons p ps ih =>
    unfold meetAll
    split
    · -- a predecessor without a pointer
      rename_i hp
      obtain ⟨m, hm, hps, hq, hr⟩ := ih _ hnew
      refine ⟨m, hm, fun x hx z hz ↦ ?_, hq, fun r hr' ↦ ⟨(hr r hr').1, fun P d hnum hup hPn hPl ↦ ?_⟩⟩
      · rcases List.mem_cons.1 hx with rfl | hx
        · rw [hp] at hz
          cases hz
        · exact hps x hx z hz
      · exact (hr r hr').2 P d hnum hup hPn fun x hx ↦ hPl x (List.mem_cons_of_mem _ hx)
    · -- the first with one
      rename_i w hp
      obtain ⟨m, hm, hps, hq, hr⟩ := ih (some p) fun q hq ↦ ⟨w, Option.some.inj hq ▸ hp⟩
      refine ⟨m, hm, fun x hx z hz ↦ ?_, fun q hq' ↦ (by cases hq'), fun r hr' ↦
        ⟨(hr r hr').1, fun P d hnum hup _ hPl ↦ ?_⟩⟩
      · rcases List.mem_cons.1 hx with rfl | hx
        · exact hq _ rfl
        · exact hps x hx z hz
      · refine (hr r hr').2 P d hnum hup (fun q hq' ↦ ?_) fun x hx ↦
          hPl x (List.mem_cons_of_mem _ hx)
        obtain rfl := Option.some.inj hq'
        exact hPl p List.mem_cons_self w hp
    · rename_i w q hp
      obtain ⟨v, hv⟩ := hnew q rfl
      have hpM := hn.le_root (hi.mem hp).1
      have hqM := hn.le_root (hi.mem hv).1
      obtain ⟨c, hc, hcp, hcq, hcP⟩ := hi.intersect_spec hn (n := fuel) (by omega) hp hv
      obtain ⟨m, hm, hps, hq, hr⟩ := ih (some c) fun e he ↦
        Option.some.inj he ▸ hi.assigned_of_anc hcp hp
      obtain ⟨r₀, hr₀, hrc⟩ := hq c rfl
      refine ⟨m, by simp [hc, hm], fun x hx z hz ↦ ?_, fun e he ↦ ?_, fun r hr' ↦
        ⟨(hr r hr').1, fun P d hnum hup hPn hPl ↦ ?_⟩⟩
      · rcases List.mem_cons.1 hx with rfl | hx
        · exact ⟨r₀, hr₀, hrc.trans hcp⟩
        · exact hps x hx z hz
      · obtain rfl := Option.some.inj he
        exact ⟨r₀, hr₀, hrc.trans hcq⟩
      · refine (hr r hr').2 P d hnum hup (fun e he ↦ ?_) fun x hx ↦
          hPl x (List.mem_cons_of_mem _ hx)
        obtain rfl := Option.some.inj he
        exact hcP P d hnum hup (hPl p List.mem_cons_self w hp) (hPn q rfl)

/-! ### Correcting one pointer -/

/-- **A meeting place above the parent is on the old way up**, if it is not below the old pointer: it
is above each node on the way from the parent to the old pointer. -/
theorem anc_of_parents (hn : Numbering root E preds M num tp) (hdone : ∀ x, M x → num b < num x → done x)
    (hyM : M y) (hby : num b < num y) (hr : Anc up r y) (hle : num h ≤ num r) (hty : Anc tp h y) :
    Anc up r h := by
  -- the numbers go up along the parents
  have hnum : ∀ {d x}, Anc tp d x → M x → num x ≤ num d := by
    intro d x hd hx
    induction hd with
    | refl => exact le_rfl
    | up hc _ ih =>
      obtain ⟨hcM, -, hlt⟩ := hn.parent hx hc
      exact (le_of_lt hlt).trans (ih hcM)
  induction hty with
  | refl => exact hr
  | up hc htd ih =>
    rename_i y c h
    obtain ⟨hcM, -, hlt⟩ := hn.parent hyM hc
    have hhc := hnum htd hcM
    have hne : r ≠ y := by
      rintro rfl
      omega
    obtain ⟨z, hz⟩ := hr.exists_up hne
    exact ih hcM (by omega) ((hr.of_ne hne hz).trans (hi.near (hdone y hyM hby) hz hc)) hle

variable [DecidableEq α]

/-- Above a node with a greater number the way up does not come by `b`. -/
theorem anc_update_iff (hx : ∃ y, up x = some y) (hbx : num b < num x) :
    Anc (Function.update up b (some r)) d x ↔ Anc up d x := by
  have hne : ∀ {x}, num b < num x → x ≠ b := fun h hxb ↦ by
    rw [hxb] at h
    omega
  have hstep : ∀ {x y}, up x = some y → num b < num x → num b < num y := fun {x y} hxy hbx ↦ by
    have := hi.num_le (.up hxy (.refl y))
    omega
  constructor
  · intro hd
    induction hd with
    | refl => exact .refl _
    | up hc _ ih =>
      rw [Function.update_of_ne (hne hbx)] at hc
      exact .up hc (ih (hi.mem hc).2.2 (hstep hc hbx))
  · intro hd
    induction hd with
    | refl => exact .refl _
    | up hc _ ih =>
      refine .up ?_ (ih (hi.mem hc).2.2 (hstep hc hbx))
      rw [Function.update_of_ne (hne hbx)]
      exact hc

/-- **The ways up only get shorter.** -/
theorem anc_of_update (hr : ∃ z, up r = some z) (hold : ∀ h, up b = some h → Anc up r h)
    (hx : ∃ y, up x = some y) (hd : Anc (Function.update up b (some r)) d x) : Anc up d x := by
  induction hd with
  | refl => exact .refl _
  | up hc _ ih =>
    rename_i x c d _
    by_cases hxb : x = b
    · rw [hxb, Function.update_self] at hc
      obtain rfl := Option.some.inj hc
      obtain ⟨h, hh⟩ := hx
      exact .up hh ((ih hr).trans (hold h (hxb ▸ hh)))
    · rw [Function.update_of_ne hxb] at hc
      exact .up hc (ih (hi.mem hc).2.2)

/-- **Pointing `b` to the meeting place of its predecessors** keeps the invariant, and the pointer
does not go down. -/
theorem update (hn : Numbering root E preds M num tp) (hbM : M b) (hroot : b ≠ root)
    (hdone : ∀ x, done x ↔ M x ∧ num b < num x) (hr : ∃ z, up r = some z)
    (hpreds : ∀ p ∈ preds b, (∃ z, up p = some z) → Anc up r p)
    (hlow : ∀ d, (∀ p ∈ preds b, (∃ z, up p = some z) → Anc up d p) → Anc up d r)
    (hdom : ∀ d, Dominates (· = root) E d b → d ≠ b → Dominates (· = root) E d r) :
    IdomInv root E preds M num tp (Function.update up b (some r)) (fun x ↦ done x ∨ x = b) ∧
      ∀ h, up b = some h → num h ≤ num r := by
  obtain ⟨p, hp⟩ := hn.exists_tp hbM hroot
  obtain ⟨hpM, hpb, hlt⟩ := hn.parent hbM hp
  have hpdone : done p := (hdone p).2 ⟨hpM, hlt⟩
  have hrp : Anc up r p := hpreds p hpb (hi.assigned hpdone)
  have hbr : num b < num r := lt_of_lt_of_le hlt (hi.num_le hrp)
  have hrb : r ≠ b := by
    rintro rfl
    omega
  obtain ⟨w, hw⟩ := hr
  have hrM : M r := (hi.mem hw).1
  have hup : ∀ h, up b = some h → num h ≤ num r := fun h hh ↦ hi.low hh hroot hpreds
  have hold : ∀ h, up b = some h → Anc up r h := fun h hh ↦ by
    have hlth := hi.lt hh hroot
    refine hi.anc_of_parents hn (fun x hx hbx ↦ (hdone x).2 ⟨hx, hbx⟩) hpM hlt hrp (hup h hh) ?_
    refine (hi.tree hh).of_ne ?_ hp
    rintro rfl
    omega
  have hself : Function.update up b (some r) b = some r := Function.update_self ..
  have hother : ∀ {x}, x ≠ b → Function.update up b (some r) x = up x :=
    fun h ↦ Function.update_of_ne h _ _
  have hassigned : ∀ {x}, (∃ z, up x = some z) → ∃ z, Function.update up b (some r) x = some z := by
    intro x hx
    by_cases hxb : x = b
    · exact ⟨r, hxb ▸ hself⟩
    · rwa [hother hxb]
  refine ⟨⟨?_, ?_, ?_, ?_, ?_, ?_, ?_, ?_⟩, hup⟩
  · rw [hother hroot.symm]
    exact hi.up_root
  · intro x y hxy
    by_cases hxb : x = b
    · rw [hxb, hself] at hxy
      obtain rfl := Option.some.inj hxy
      exact ⟨hxb ▸ hbM, hrM, w, by rw [hother hrb, hw]⟩
    · rw [hother hxb] at hxy
      obtain ⟨hxM, hyM, hz⟩ := hi.mem hxy
      exact ⟨hxM, hyM, hassigned hz⟩
  · intro x y hxy hxr
    by_cases hxb : x = b
    · rw [hxb, hself] at hxy
      obtain rfl := Option.some.inj hxy
      rwa [hxb]
    · rw [hother hxb] at hxy
      exact hi.lt hxy hxr
  · intro x y hxy
    by_cases hxb : x = b
    · rw [hxb, hself] at hxy
      obtain rfl := Option.some.inj hxy
      rw [hxb]
      exact .up hp (hi.anc_tp hrp)
    · rw [hother hxb] at hxy
      exact hi.tree hxy
  · rintro x (hx | rfl)
    · exact hassigned (hi.assigned hx)
    · exact ⟨r, hself⟩
  · -- the parent has a greater number, so its way up is the old one
    intro x y q hx hxy hq
    rcases hx with hx | rfl
    · obtain ⟨hxM, hbx⟩ := (hdone x).1 hx
      have hxb : x ≠ b := by
        rintro rfl
        omega
      rw [hother hxb] at hxy
      obtain ⟨hqM, -, hlt'⟩ := hn.parent hxM hq
      have hbq : num b < num q := by omega
      exact (hi.anc_update_iff (hi.assigned ((hdone q).2 ⟨hqM, hbq⟩)) hbq).2 (hi.near hx hxy hq)
    · rw [hself] at hxy
      obtain rfl := Option.some.inj hxy
      obtain rfl := Option.some.inj (hp.symm.trans hq)
      exact (hi.anc_update_iff (hi.assigned hpdone) hlt).2 hrp
  · -- a meeting place on the new ways up is one on the old ways up
    intro x y d hxy hxr hd
    have hd' : ∀ p ∈ preds x, (∃ z, up p = some z) → Anc up d p := fun p hpx hz ↦
      hi.anc_of_update ⟨w, hw⟩ hold hz (hd p hpx (hassigned hz))
    by_cases hxb : x = b
    · rw [hxb, hself] at hxy
      obtain rfl := Option.some.inj hxy
      exact hi.num_le (hlow d (hxb ▸ hd'))
    · rw [hother hxb] at hxy
      exact hi.low hxy hxr hd'
  · intro x y d hxy hxr hd hdx
    by_cases hxb : x = b
    · rw [hxb, hself] at hxy
      obtain rfl := Option.some.inj hxy
      exact hdom d (hxb ▸ hd) (hxb ▸ hdx)
    · rw [hother hxb] at hxy
      exact hi.dom hxy hxr hd hdx

end IdomInv

end CoilLang
