import CoilLang.Typechecking.SubstOverlay

/-!
# Substitutions that share their data

A substitution points to its data, and a clone points to the same. A write to shared data goes to an
overlay of the writer's own; `absorb` folds an extension made that way back in place. Here all
substitutions of a program are the owners of a `Pool`: what an operation does depends on **whether
another owner points to the same data**, which is all that `Arc::get_mut` and `Arc::make_mut` ask.

Every owner stands for a plain ordered map, its bindings in the order of `iter` (`Pool.plain`). Each
operation does to it what its name says and leaves the other owners alone (`step_plain`), but for one:
an `insert` of a new variable writes to the data as soon as nobody else points there, although the
overlay holds bindings that are older. That binding is then iterated before them.
-/

namespace CoilLang

/-! ### The owners -/

/-- A substitution: the address of its data and its overlay. -/
structure Shared where
  data : ℕ
  overlay : Subst

/-- All substitutions of a program. An owner that was moved or dropped is `none`. -/
structure Pool where
  datas : List SubstData
  owners : List (Option Shared)

namespace Pool

def owner? (p : Pool) (i : ℕ) : Option Shared := p.owners[i]?.join

def data (p : Pool) (a : ℕ) : SubstData := p.datas.getD a .empty

/-- No owner but `i` points to the data at `a`. -/
def Unshared (p : Pool) (i a : ℕ) : Prop :=
  ∀ k < p.owners.length, k ≠ i → (p.owner? k).map Shared.data ≠ some a

instance (p : Pool) (i a : ℕ) : Decidable (p.Unshared i a) :=
  inferInstanceAs (Decidable (∀ k < _, _))

/-- Owner `i`, without an overlay, writes `d` to its data at `a`, or to a copy when that is shared. -/
def makeMut (p : Pool) (i a : ℕ) (d : SubstData) : Pool :=
  if p.Unshared i a then ⟨p.datas.set a d, p.owners.set i (some ⟨a, []⟩)⟩
  else ⟨p.datas ++ [d], p.owners.set i (some ⟨p.datas.length, []⟩)⟩

def drop (p : Pool) (i : ℕ) : Pool := { p with owners := p.owners.set i none }

def insert (p : Pool) (i : ℕ) (s : Shared) (v : TyVarId) (t : Ty) : Pool :=
  if v ∈ s.overlay.dom then { p with owners := p.owners.set i (some ⟨s.data, s.overlay.insert v t⟩) }
  else if p.Unshared i s.data then { p with datas := p.datas.set s.data ((p.data s.data).insert v t) }
  else { p with owners := p.owners.set i (some ⟨s.data, s.overlay ++ [(v, t)]⟩) }

/-- The data with the overlay folded in. -/
def own (p : Pool) (s : Shared) : SubstData :=
  s.overlay.foldl (fun d b ↦ d.insert b.1 b.2) (p.data s.data)

def remove (p : Pool) (i : ℕ) (s : Shared) (v : TyVarId) : Pool :=
  if (p.data s.data).contains s.overlay v then p.makeMut i s.data ((p.own s).remove v) else p

/-- `s` is this very substitution, never written to. -/
def IsSame (s base : Shared) : Prop := s.data = base.data ∧ base.overlay = [] ∧ s.overlay = []

instance (s base : Shared) : Decidable (IsSame s base) := inferInstanceAs (Decidable (_ ∧ _))

/-- `s` is `base` with new bindings in its overlay. -/
def Extends (p : Pool) (s base : Shared) : Prop :=
  s.data = base.data ∧ base.overlay = [] ∧ ∀ b ∈ s.overlay, (p.data s.data).index b.1 = none

instance (p : Pool) (s base : Shared) : Decidable (p.Extends s base) :=
  inferInstanceAs (Decidable (_ ∧ _))

/-- Owner `i` (which is `base`) takes owner `j` (which is `s`) in. -/
def absorb (p : Pool) (i j : ℕ) (s base : Shared) : Pool :=
  let d := p.data s.data
  if IsSame s base then p.drop j
  else if p.Extends s base then
    (p.drop j).makeMut i base.data (d.extend (d.updates s.overlay (d.get s.overlay)) s.overlay)
  else
    let r := SubstData.compose (d.get s.overlay) (d.iter s.overlay) ((p.data base.data).iter base.overlay)
    ⟨p.datas ++ [r], (p.owners.set j none).set i (some ⟨p.datas.length, []⟩)⟩

end Pool

/-- The operations on the substitutions of a program. -/
inductive SubstOp
  | empty
  | clone (i : ℕ)
  | drop (i : ℕ)
  | insert (i : ℕ) (v : TyVarId) (t : Ty)
  | remove (i : ℕ) (v : TyVarId)
  | absorb (i j : ℕ)

namespace Pool

/-- One operation; on an owner that is not there it does nothing. -/
def step (p : Pool) : SubstOp → Pool
  | .empty => ⟨p.datas ++ [.empty], p.owners ++ [some ⟨p.datas.length, []⟩]⟩
  | .clone i =>
    match p.owner? i with
    | some s => { p with owners := p.owners ++ [some s] }
    | none => p
  | .drop i => p.drop i
  | .insert i v t =>
    match p.owner? i with
    | some s => p.insert i s v t
    | none => p
  | .remove i v =>
    match p.owner? i with
    | some s => p.remove i s v
    | none => p
  | .absorb i j =>
    match p.owner? i, p.owner? j with
    | some base, some s => if i = j then p else p.absorb i j s base
    | _, _ => p

/-- The substitutions after a list of operations, none to begin with. -/
def run (ops : List SubstOp) : Pool := ops.foldl step ⟨[], []⟩

end Pool

/-! ### One step of the owners -/

namespace Pool

/-- The plain ordered map of owner `i`. -/
def plain (p : Pool) (i : ℕ) : Option Subst :=
  (p.owner? i).map fun s ↦ (p.data s.data).iter s.overlay

/-- The data is tracked, and every owner points to some, with an overlay that binds once. -/
structure Valid (p : Pool) : Prop where
  tracked : ∀ d ∈ p.datas, d.Tracked
  owner : ∀ i s, p.owner? i = some s → s.data < p.datas.length ∧ s.overlay.Distinct

section
variable {p : Pool} {i k : ℕ} {s : Shared}

theorem owner?_eq_some : p.owner? i = some s ↔ p.owners[i]? = some (some s) := by
  rw [owner?, Option.join_eq_some_iff]

theorem lt_of_owner? (h : p.owner? i = some s) : i < p.owners.length :=
  (List.getElem?_eq_some_iff.1 (owner?_eq_some.1 h)).1

theorem owner?_set (datas : List SubstData) (hi : i < p.owners.length) (o : Option Shared) :
    owner? ⟨datas, p.owners.set i o⟩ k = if k = i then o else p.owner? k := by
  unfold owner?
  rw [List.getElem?_set]
  by_cases hk : k = i
  · subst hk
    simp [hi]
  · simp [hk, show ¬i = k from fun h ↦ hk h.symm]

theorem Valid.data (h : p.Valid) (a : ℕ) : (p.data a).Tracked := by
  unfold Pool.data
  rw [List.getD_eq_getElem?_getD]
  cases ha : p.datas[a]? with
  | none => exact SubstData.Tracked.empty
  | some d => exact h.tracked d (List.mem_of_getElem? ha)

theorem data_set (datas : List SubstData) (owners : List (Option Shared)) (a b : ℕ) (d : SubstData)
    (ha : a < datas.length) :
    data ⟨datas.set a d, owners⟩ b = if b = a then d else data ⟨datas, owners⟩ b := by
  unfold data
  rw [List.getD_eq_getElem?_getD, List.getD_eq_getElem?_getD, List.getElem?_set]
  by_cases hb : b = a
  · subst hb
    simp [ha]
  · simp [hb, show ¬a = b from fun h ↦ hb h.symm]

theorem data_append (datas : List SubstData) (owners : List (Option Shared)) (b : ℕ) (d : SubstData) :
    data ⟨datas ++ [d], owners⟩ b =
      if b = datas.length then d else data ⟨datas, owners⟩ b := by
  unfold data
  rw [List.getD_eq_getElem?_getD, List.getD_eq_getElem?_getD]
  rcases lt_trichotomy b datas.length with hlt | rfl | hgt
  · rw [List.getElem?_append_left hlt, if_neg (by omega)]
  · simp
  · rw [if_neg (by omega), List.getElem?_eq_none (by simp; omega)]
    rw [show (⟨datas, owners⟩ : Pool).datas[b]? = none from List.getElem?_eq_none hgt.le]

end

/-- An owner whose pointer and data are as before stands for the same map. -/
theorem plain_congr {p q : Pool} {k : ℕ} (ho : q.owner? k = p.owner? k)
    (hd : ∀ s, p.owner? k = some s → q.data s.data = p.data s.data) : q.plain k = p.plain k := by
  unfold plain
  rw [ho]
  cases hs : p.owner? k with
  | none => rfl
  | some s => rw [Option.map_some, Option.map_some, hd s hs]

/-- `q` is `p` with owner `i` standing for `m`. -/
structure Sets (p q : Pool) (i : ℕ) (m : Subst) : Prop where
  valid : q.Valid
  count : q.owners.length = p.owners.length
  self : q.plain i = some m
  other : ∀ k, k ≠ i → q.plain k = p.plain k

section
variable {p : Pool} {i : ℕ} {s : Shared}

/-- An owner gets another overlay. -/
theorem sets_over (h : p.Valid) (hi : p.owner? i = some s) {overlay : Subst} (hover : overlay.Distinct) :
    Sets p { p with owners := p.owners.set i (some ⟨s.data, overlay⟩) } i
      ((p.data s.data).iter overlay) := by
  have hlt := lt_of_owner? hi
  refine ⟨⟨h.tracked, fun k u hk ↦ ?_⟩, List.length_set, ?_, fun k hk ↦ ?_⟩
  · rw [owner?_set _ hlt] at hk
    split at hk
    · cases hk
      exact ⟨(h.owner i s hi).1, hover⟩
    · exact h.owner k u hk
  · rw [plain, owner?_set _ hlt, if_pos rfl]
    rfl
  · exact plain_congr ((owner?_set _ hlt _).trans (if_neg hk)) fun _ _ ↦ rfl

/-- An owner that shares its data with nobody writes to it. -/
theorem sets_data (h : p.Valid) (hi : p.owner? i = some s) (hun : p.Unshared i s.data)
    {d : SubstData} (hd : d.Tracked) {overlay : Subst} (hover : overlay.Distinct) :
    Sets p ⟨p.datas.set s.data d, p.owners.set i (some ⟨s.data, overlay⟩)⟩ i (d.iter overlay) := by
  have hlt := lt_of_owner? hi
  have ha := (h.owner i s hi).1
  refine ⟨⟨fun e he ↦ ?_, fun k u hk ↦ ?_⟩, List.length_set, ?_, fun k hk ↦ ?_⟩
  · rcases List.mem_or_eq_of_mem_set he with he | rfl
    · exact h.tracked e he
    · exact hd
  · rw [List.length_set]
    rw [owner?_set _ hlt] at hk
    split at hk
    · cases hk
      exact ⟨ha, hover⟩
    · exact h.owner k u hk
  · rw [plain, owner?_set _ hlt, if_pos rfl, Option.map_some, data_set _ _ _ _ _ ha, if_pos rfl]
  · refine plain_congr ((owner?_set _ hlt _).trans (if_neg hk)) fun u hu ↦ ?_
    -- nobody else points to the data that was written
    have hne : u.data ≠ s.data := by
      intro heq
      refine hun k (lt_of_owner? hu) hk ?_
      rw [hu, Option.map_some, heq]
    rw [data_set _ _ _ _ _ ha, if_neg hne]
    rfl

/-- An owner moves to data of its own. -/
theorem sets_new (h : p.Valid) (hi : p.owner? i = some s) {d : SubstData} (hd : d.Tracked) :
    Sets p ⟨p.datas ++ [d], p.owners.set i (some ⟨p.datas.length, []⟩)⟩ i d.mappings := by
  have hlt := lt_of_owner? hi
  refine ⟨⟨fun e he ↦ ?_, fun k u hk ↦ ?_⟩, List.length_set, ?_, fun k hk ↦ ?_⟩
  · rcases List.mem_append.1 he with he | he
    · exact h.tracked e he
    · rw [List.mem_singleton.1 he]
      exact hd
  · rw [List.length_append, List.length_singleton]
    rw [owner?_set _ hlt] at hk
    split at hk
    · cases hk
      exact ⟨Nat.lt_succ_self _, List.nodup_nil⟩
    · have hu := h.owner k u hk
      exact ⟨Nat.lt_succ_of_lt hu.1, hu.2⟩
  · rw [plain, owner?_set _ hlt, if_pos rfl, Option.map_some, data_append, if_pos rfl, hd.iter_nil]
  · refine plain_congr ((owner?_set _ hlt _).trans (if_neg hk)) fun u hu ↦ ?_
    rw [data_append, if_neg (h.owner k u hu).1.ne]
    rfl

theorem sets_makeMut (h : p.Valid) (hi : p.owner? i = some s) {d : SubstData} (hd : d.Tracked) :
    Sets p (p.makeMut i s.data d) i d.mappings := by
  unfold makeMut
  split
  · rename_i hun
    rw [← hd.iter_nil]
    exact sets_data h hi hun hd List.nodup_nil
  · exact sets_new h hi hd

theorem Valid.drop (h : p.Valid) (i : ℕ) : (p.drop i).Valid := by
  refine ⟨h.tracked, fun k u hk ↦ h.owner k u ?_⟩
  by_cases hlt : i < p.owners.length
  · rw [Pool.drop, owner?_set _ hlt] at hk
    split at hk
    · cases hk
    · exact hk
  · rwa [Pool.drop, List.set_eq_of_length_le (Nat.le_of_not_lt hlt)] at hk

theorem owner?_drop (p : Pool) (i k : ℕ) :
    (p.drop i).owner? k = if k = i then none else p.owner? k := by
  by_cases hlt : i < p.owners.length
  · exact owner?_set _ hlt none
  · rw [Pool.drop, List.set_eq_of_length_le (Nat.le_of_not_lt hlt)]
    split
    · rename_i hk
      subst hk
      rw [owner?, List.getElem?_eq_none (Nat.le_of_not_lt hlt)]
      rfl
    · rfl

theorem plain_drop (p : Pool) (i k : ℕ) :
    (p.drop i).plain k = if k = i then none else p.plain k := by
  unfold plain
  rw [owner?_drop]
  split <;> rfl

/-- The order of an owner's map is the order of its inserts so far: a new variable does not go to data
that nobody shares any more under an overlay with new variables of its own. -/
def InOrder (p : Pool) : SubstOp → Prop
  | .insert i v _ =>
    match p.owner? i with
    | some s => p.Unshared i s.data → (p.data s.data).contains s.overlay v = false →
        ∀ b ∈ s.overlay, ((p.data s.data).index b.1).isSome
    | none => True
  | _ => True

theorem sets_insert (h : p.Valid) (hi : p.owner? i = some s) (v : TyVarId) (t : Ty) :
    ∃ m, Sets p (p.insert i s v t) i m ∧
      (p.InOrder (.insert i v t) → m = ((p.data s.data).iter s.overlay).insert v t) := by
  have hd := h.data s.data
  have hover := (h.owner i s hi).2
  unfold insert
  split
  · exact ⟨_, sets_over h hi (hover.insert v t), fun _ ↦ hd.iter_insert_over hover v t⟩
  rename_i hv
  split
  · rename_i hun
    have hset : p.owners.set i (some ⟨s.data, s.overlay⟩) = p.owners := by
      obtain ⟨hlt, heq⟩ := List.getElem?_eq_some_iff.1 (owner?_eq_some.1 hi)
      rw [← heq, List.set_getElem_self]
    have hsets := sets_data h hi hun (hd.insert v t) hover
    rw [hset] at hsets
    refine ⟨_, hsets, fun hord ↦ (hd.iter_insert_data hover hv t).2 ?_⟩
    by_cases hmem : v ∈ (p.data s.data).mappings.dom
    · exact .inl hmem
    · simp only [InOrder, hi] at hord
      refine .inr fun b hb ↦ hd.isSome_index.1 (hord hun ?_ b hb)
      rw [SubstData.contains, hd.get_iter hover, Subst.get_eq_none_iff.2]
      · rfl
      · rw [hd.dom_iter hover, List.mem_append, not_or]
        exact ⟨hmem, fun hm ↦ hv (List.mem_filter.1 hm).1⟩
  · rw [← Subst.insert_of_notMem hv]
    exact ⟨_, sets_over h hi (hover.insert v t), fun _ ↦ hd.iter_insert_over hover v t⟩

theorem sets_remove (h : p.Valid) (hi : p.owner? i = some s) (v : TyVarId) :
    Sets p (p.remove i s v) i (((p.data s.data).iter s.overlay).erase v) := by
  have hd := h.data s.data
  have hover := (h.owner i s hi).2
  unfold remove
  split
  · obtain ⟨htr, hmap⟩ := hd.foldl_insert s.overlay
    rw [hd.foldl_over hover] at hmap
    obtain ⟨htr', hmap'⟩ := htr.remove v
    rw [hmap] at hmap'
    rw [← hmap']
    exact sets_makeMut h hi htr'
  · rename_i hno
    have hnone : ((p.data s.data).iter s.overlay).get v = none := by
      rw [← hd.get_iter hover]
      simpa [SubstData.contains] using hno
    rw [Subst.erase_of_notMem (Subst.get_eq_none_iff.1 hnone)]
    exact ⟨h, rfl, by rw [plain, hi, Option.map_some], fun _ _ ↦ rfl⟩

/-- **Absorbing is composing**, unless what is absorbed is the very same substitution. -/
theorem sets_absorb (h : p.Valid) {j : ℕ} {base : Shared} (hij : i ≠ j)
    (hi : p.owner? i = some base) (hj : p.owner? j = some s) (hsame : ¬IsSame s base) :
    Sets (p.drop j) (p.absorb i j s base) i
      (((p.data s.data).iter s.overlay).compose ((p.data base.data).iter base.overlay)) := by
  have hd := h.data s.data
  have hover := (h.owner j s hj).2
  have hi' : (p.drop j).owner? i = some base := by rw [owner?_drop, if_neg hij, hi]
  have hget : (p.data s.data).get s.overlay = ((p.data s.data).iter s.overlay).get :=
    funext fun v ↦ hd.get_iter hover v
  unfold absorb
  rw [if_neg hsame]
  split
  · rename_i hext
    obtain ⟨hdata, hnil, hnew⟩ := hext
    -- the bindings of the extension are the data's, then those of its overlay
    have hiter : (p.data s.data).iter s.overlay = (p.data s.data).mappings ++ s.overlay := by
      rw [← hd.foldl_over hover, Subst.foldl_insert_eq_append]
      rw [Subst.Distinct, Subst.dom_append, List.nodup_append]
      refine ⟨hd.distinct, hover, fun a ha b hb ↦ ?_⟩
      rintro rfl
      obtain ⟨c, hc, rfl⟩ := List.mem_map.1 hb
      exact hd.index_eq_none.1 (hnew c hc) ha
    have hdist : ((p.data s.data).mappings ++ s.overlay).Distinct := hiter ▸ hd.distinct_iter hover
    obtain ⟨htr, hmap⟩ := hd.extend hdist
    simp only [hget]
    have hsets := sets_makeMut (h.drop j) hi' htr
    rw [← hdata] at hsets
    rwa [hnil, ← hdata, hd.iter_nil, hiter, ← hmap]
  · obtain ⟨htr, hmap⟩ := SubstData.tracked_compose ((p.data s.data).iter s.overlay)
      ((p.data base.data).iter base.overlay)
    simp only [hget]
    rw [← hmap]
    exact sets_new (h.drop j) hi' htr

end

/-- The plain ordered maps of all owners. -/
structure Plain where
  count : ℕ
  maps : ℕ → Option Subst

namespace Plain

/-- The owners an operation works on are there. -/
def Enabled (a : Plain) : SubstOp → Prop
  | .empty => True
  | .clone i => (a.maps i).isSome
  | .drop _ => True
  | .insert i _ _ => (a.maps i).isSome
  | .remove i _ => (a.maps i).isSome
  | .absorb i j => i ≠ j ∧ (a.maps i).isSome ∧ (a.maps j).isSome

/-- The operations on plain ordered maps. -/
inductive Step (a : Plain) : SubstOp → Plain → Prop
  | empty : Step a .empty ⟨a.count + 1, Function.update a.maps a.count (some [])⟩
  | clone {i s} : a.maps i = some s →
      Step a (.clone i) ⟨a.count + 1, Function.update a.maps a.count (some s)⟩
  | drop {i} : Step a (.drop i) ⟨a.count, Function.update a.maps i none⟩
  | insert {i s v t} : a.maps i = some s →
      Step a (.insert i v t) ⟨a.count, Function.update a.maps i (some (s.insert v t))⟩
  | remove {i s v} : a.maps i = some s →
      Step a (.remove i v) ⟨a.count, Function.update a.maps i (some (s.erase v))⟩
  | absorb {i j s base} : i ≠ j → a.maps i = some base → a.maps j = some s →
      Step a (.absorb i j)
        ⟨a.count, Function.update (Function.update a.maps j none) i (some (s.compose base))⟩
  | absorb_same {i j base} : i ≠ j → a.maps i = some base → a.maps j = some base →
      Step a (.absorb i j) ⟨a.count, Function.update a.maps j none⟩
  | idle {op} : ¬a.Enabled op → Step a op a

/-- The maps a list of operations leads to. -/
inductive Run : Plain → List SubstOp → Plain → Prop
  | nil {a} : Run a [] a
  | cons {a op b ops c} : Step a op b → Run b ops c → Run a (op :: ops) c

section
variable {a b : Plain} {i : ℕ} {s : Subst}

theorem Step.eq_of_empty (h : Step a .empty b) :
    b = ⟨a.count + 1, Function.update a.maps a.count (some [])⟩ := by
  cases h with
  | empty => rfl
  | idle hno => exact (hno trivial).elim

theorem Step.eq_of_clone (h : Step a (.clone i) b) (hs : a.maps i = some s) :
    b = ⟨a.count + 1, Function.update a.maps a.count (some s)⟩ := by
  cases h with
  | clone hs' => rw [Option.some.inj (hs.symm.trans hs')]
  | idle hno => exact (hno (by simp [Enabled, hs])).elim

theorem Step.eq_of_insert {v : TyVarId} {t : Ty} (h : Step a (.insert i v t) b)
    (hs : a.maps i = some s) : b = ⟨a.count, Function.update a.maps i (some (s.insert v t))⟩ := by
  cases h with
  | insert hs' => rw [Option.some.inj (hs.symm.trans hs')]
  | idle hno => exact (hno (by simp [Enabled, hs])).elim

theorem Step.eq_of_remove {v : TyVarId} (h : Step a (.remove i v) b)
    (hs : a.maps i = some s) : b = ⟨a.count, Function.update a.maps i (some (s.erase v))⟩ := by
  cases h with
  | remove hs' => rw [Option.some.inj (hs.symm.trans hs')]
  | idle hno => exact (hno (by simp [Enabled, hs])).elim

end

/-- No substitution. -/
def none : Plain := ⟨0, fun _ ↦ Option.none⟩

theorem Run.snoc {a b c : Plain} {ops : List SubstOp} {op : SubstOp} (h : Run a ops b)
    (hstep : Step b op c) : Run a (ops ++ [op]) c := by
  induction h with
  | nil => exact .cons hstep .nil
  | cons hfirst _ ih => exact .cons hfirst (ih hstep)

end Plain

/-- What the owners stand for. -/
def toPlain (p : Pool) : Plain := ⟨p.owners.length, p.plain⟩

theorem toPlain_of_sets {p q : Pool} {i : ℕ} {m : Subst} (h : Sets p q i m) :
    q.toPlain = ⟨p.owners.length, Function.update p.plain i (some m)⟩ := by
  rw [toPlain, h.count]
  congr 1
  funext k
  by_cases hk : k = i
  · subst hk
    rw [h.self, Function.update_self]
  · rw [h.other k hk, Function.update_of_ne hk]

/-- A new owner, pointing to data that is there or was just added. -/
theorem push_plain {p : Pool} (h : p.Valid) {datas : List SubstData} {s : Shared} {m : Subst}
    (htr : ∀ d ∈ datas, d.Tracked) (hlen : p.datas.length ≤ datas.length)
    (hold : ∀ a < p.datas.length, data ⟨datas, p.owners ++ [some s]⟩ a = p.data a)
    (hs : s.data < datas.length) (hover : s.overlay.Distinct)
    (hm : (data ⟨datas, p.owners ++ [some s]⟩ s.data).iter s.overlay = m) :
    Valid ⟨datas, p.owners ++ [some s]⟩ ∧ toPlain ⟨datas, p.owners ++ [some s]⟩ =
      ⟨p.owners.length + 1, Function.update p.plain p.owners.length (some m)⟩ := by
  have howner : ∀ k, owner? ⟨datas, p.owners ++ [some s]⟩ k =
      if k = p.owners.length then some s else p.owner? k := by
    intro k
    unfold owner?
    rcases lt_trichotomy k p.owners.length with hlt | rfl | hgt
    · rw [List.getElem?_append_left hlt, if_neg (by omega)]
    · simp
    · rw [if_neg (by omega), List.getElem?_eq_none (by simp; omega), List.getElem?_eq_none hgt.le]
  refine ⟨⟨htr, fun k u hk ↦ ?_⟩, ?_⟩
  · rw [howner] at hk
    split at hk
    · cases hk
      exact ⟨hs, hover⟩
    · have hu := h.owner k u hk
      exact ⟨hu.1.trans_le hlen, hu.2⟩
  · rw [toPlain, List.length_append, List.length_singleton]
    congr 1
    funext k
    by_cases hk : k = p.owners.length
    · rw [hk, Function.update_self, plain, howner, if_pos rfl, Option.map_some, hm]
    · rw [Function.update_of_ne hk]
      exact plain_congr ((howner k).trans (if_neg hk)) fun u hu ↦ hold _ (h.owner k u hu).1

theorem toPlain_drop (p : Pool) (i : ℕ) :
    (p.drop i).toPlain = ⟨p.owners.length, Function.update p.plain i none⟩ := by
  rw [toPlain, show (p.drop i).owners.length = p.owners.length from List.length_set]
  congr 1
  funext k
  rw [plain_drop]
  by_cases hk : k = i
  · rw [if_pos hk, hk, Function.update_self]
  · rw [if_neg hk, Function.update_of_ne hk]

/-- **A step does to the plain maps what it says**, if it keeps the order. -/
theorem step_plain {p : Pool} (h : p.Valid) (op : SubstOp) :
    (p.step op).Valid ∧ (p.InOrder op → Plain.Step p.toPlain op (p.step op).toPlain) := by
  have hplain : ∀ {i s}, p.owner? i = some s → p.plain i = some ((p.data s.data).iter s.overlay) :=
    fun hi ↦ by rw [plain, hi, Option.map_some]
  have hnone : ∀ {i}, p.owner? i = none → (p.plain i).isSome = false := fun hi ↦ by
    rw [plain, hi]
    rfl
  cases op with
  | empty =>
    have htr : ∀ d ∈ p.datas ++ [.empty], d.Tracked := by
      intro d hd
      rcases List.mem_append.1 hd with hd | hd
      · exact h.tracked d hd
      · rw [List.mem_singleton.1 hd]
        exact SubstData.Tracked.empty
    obtain ⟨hv, hp⟩ := push_plain (s := ⟨p.datas.length, []⟩) (m := []) h htr (by simp)
      (fun a ha ↦ by rw [data_append, if_neg ha.ne]; rfl) (by simp) List.nodup_nil
      (by rw [data_append, if_pos rfl, SubstData.Tracked.empty.iter_nil]; rfl)
    refine ⟨hv, fun _ ↦ ?_⟩
    rw [step, hp]
    exact Plain.Step.empty
  | clone i =>
    rw [step]
    cases hi : p.owner? i with
    | none => exact ⟨h, fun _ ↦ .idle (by simp [Plain.Enabled, toPlain, hnone hi])⟩
    | some s =>
      obtain ⟨hv, hp⟩ := push_plain h h.tracked le_rfl (fun _ _ ↦ rfl) (h.owner i s hi).1
        (h.owner i s hi).2 rfl
      refine ⟨hv, fun _ ↦ ?_⟩
      rw [hp]
      exact Plain.Step.clone (hplain hi)
  | drop i =>
    refine ⟨h.drop i, fun _ ↦ ?_⟩
    rw [step, toPlain_drop]
    exact Plain.Step.drop
  | insert i v t =>
    rw [step]
    cases hi : p.owner? i with
    | none => exact ⟨h, fun _ ↦ .idle (by simp [Plain.Enabled, toPlain, hnone hi])⟩
    | some s =>
      obtain ⟨m, hsets, hm⟩ := sets_insert h hi v t
      refine ⟨hsets.valid, fun hord ↦ ?_⟩
      rw [toPlain_of_sets hsets, hm hord]
      exact Plain.Step.insert (hplain hi)
  | remove i v =>
    rw [step]
    cases hi : p.owner? i with
    | none => exact ⟨h, fun _ ↦ .idle (by simp [Plain.Enabled, toPlain, hnone hi])⟩
    | some s =>
      have hsets := sets_remove h hi v
      refine ⟨hsets.valid, fun _ ↦ ?_⟩
      rw [toPlain_of_sets hsets]
      exact Plain.Step.remove (hplain hi)
  | absorb i j =>
    rw [step]
    cases hi : p.owner? i with
    | none => exact ⟨h, fun _ ↦ .idle (by simp [Plain.Enabled, toPlain, hnone hi])⟩
    | some base =>
      cases hj : p.owner? j with
      | none => exact ⟨h, fun _ ↦ .idle (by simp [Plain.Enabled, toPlain, hnone hj])⟩
      | some s =>
        simp only
        split
        · rename_i hij
          exact ⟨h, fun _ ↦ .idle (by simp [Plain.Enabled, hij])⟩
        rename_i hij
        by_cases hsame : IsSame s base
        · -- the same substitution again: nothing to take in
          obtain rfl : s = base := by
            cases s
            cases base
            obtain ⟨rfl, rfl, rfl⟩ := hsame
            rfl
          rw [absorb, if_pos hsame, toPlain_drop]
          exact ⟨h.drop j, fun _ ↦ .absorb_same hij (hplain hi) (hplain hj)⟩
        · have hsets := sets_absorb h hij hi hj hsame
          refine ⟨hsets.valid, fun _ ↦ ?_⟩
          have hdrop := toPlain_drop p j
          simp only [toPlain, Plain.mk.injEq] at hdrop
          rw [toPlain_of_sets hsets, hdrop.1, hdrop.2]
          exact Plain.Step.absorb hij (hplain hi) (hplain hj)

/-! ### Every run -/

theorem valid_run (ops : List SubstOp) : (run ops).Valid := by
  have hstart : Valid ⟨[], []⟩ :=
    ⟨fun d hd ↦ (List.not_mem_nil hd).elim, fun i s hi ↦ absurd (lt_of_owner? hi) (Nat.not_lt_zero i)⟩
  rw [run]
  generalize (⟨[], []⟩ : Pool) = p at hstart
  induction ops generalizing p with
  | nil => exact hstart
  | cons op ops ih => exact ih (p.step op) (step_plain hstart op).1

/-- Every step of a run keeps the order. -/
def Ordered : Pool → List SubstOp → Prop
  | _, [] => True
  | p, op :: ops => p.InOrder op ∧ Ordered (p.step op) ops

theorem ordered_append {p : Pool} {ops rest : List SubstOp} :
    Ordered p (ops ++ rest) ↔ Ordered p ops ∧ Ordered (ops.foldl step p) rest := by
  induction ops generalizing p with
  | nil => simp [Ordered]
  | cons op ops ih => rw [List.cons_append, Ordered, Ordered, ih, and_assoc, List.foldl_cons]

theorem plainRun_run {ops : List SubstOp} (h : Ordered ⟨[], []⟩ ops) :
    Plain.Run .none ops (run ops).toPlain := by
  induction ops using List.reverseRecOn with
  | nil => exact Plain.Run.nil
  | append_singleton ops op ih =>
    obtain ⟨hops, hlast, -⟩ := ordered_append.1 h
    have hrun : run (ops ++ [op]) = (run ops).step op := List.foldl_append
    rw [hrun]
    exact (ih hops).snoc ((step_plain (valid_run ops) op).2 hlast)

/-! ### Absorbing an extension -/

/-- Bind variables in owner `j`, one after another. -/
def bindAll (p : Pool) (j : ℕ) (news : Subst) : Pool :=
  news.foldl (fun p b ↦ p.step (.insert j b.1 b.2)) p

theorem valid_bindAll {p : Pool} (h : p.Valid) (j : ℕ) (news : Subst) : (p.bindAll j news).Valid := by
  induction news generalizing p with
  | nil => exact h
  | cons b news ih => exact ih (step_plain h (.insert j b.1 b.2)).1

/-- While owner `i` points to the same data, owner `j` writes to its overlay. -/
theorem bindAll_shared {p : Pool} {i j : ℕ} (hij : i ≠ j) {base : Shared} {overlay : Subst}
    (hi : p.owner? i = some base) (hj : p.owner? j = some ⟨base.data, overlay⟩) (news : Subst) :
    p.bindAll j news = ⟨p.datas, p.owners.set j (some ⟨base.data, overlay.insertAll news⟩)⟩ := by
  induction news generalizing p overlay with
  | nil =>
    obtain ⟨hlt, heq⟩ := List.getElem?_eq_some_iff.1 (owner?_eq_some.1 hj)
    rw [Subst.insertAll, List.foldl_nil, ← heq, List.set_getElem_self]
    rfl
  | cons b news ih =>
    have hlt := lt_of_owner? hj
    have hshared : ¬p.Unshared j base.data := fun hun ↦
      hun i (lt_of_owner? hi) hij (by rw [hi, Option.map_some])
    have hstep : p.step (.insert j b.1 b.2) =
        ⟨p.datas, p.owners.set j (some ⟨base.data, overlay.insert b.1 b.2⟩)⟩ := by
      simp only [step, hj, insert, if_neg hshared]
      split
      · rfl
      · rename_i hv
        rw [Subst.insert_of_notMem hv]
    have hi' : (p.step (.insert j b.1 b.2)).owner? i = some base := by
      rw [hstep, owner?_set _ hlt, if_neg hij, hi]
    have hj' : (p.step (.insert j b.1 b.2)).owner? j =
        some ⟨base.data, overlay.insert b.1 b.2⟩ := by
      rw [hstep, owner?_set _ hlt, if_pos rfl]
    rw [bindAll, List.foldl_cons, ← bindAll, ih hi' hj', hstep, List.set_set]
    rfl

/-- **Absorbing a clone that was bound further** composes it with what it was cloned from. -/
theorem absorb_extension {p : Pool} (h : p.Valid) {i : ℕ} {base : Subst} (hi : p.plain i = some base)
    {news : Subst} (hnews : news ≠ []) :
    ((p.step (.clone i)).bindAll p.owners.length news).plain p.owners.length =
        some (base.insertAll news) ∧
      (((p.step (.clone i)).bindAll p.owners.length news).step
        (.absorb i p.owners.length)).plain i = some ((base.insertAll news).compose base) := by
  obtain ⟨b, hb, rfl⟩ := Option.map_eq_some_iff.1 hi
  have hd := h.data b.data
  have hover := (h.owner i b hb).2
  have hlt := lt_of_owner? hb
  have hij : i ≠ p.owners.length := hlt.ne
  have hvalid := valid_bindAll (step_plain h (.clone i)).1 p.owners.length news
  set p₁ : Pool := ⟨p.datas, p.owners ++ [some b]⟩ with hp₁
  have hclone : p.step (.clone i) = p₁ := by
    rw [step, hb]
  have hi₁ : p₁.owner? i = some b := by
    rw [owner?, List.getElem?_append_left hlt]
    exact hb
  have hj₁ : p₁.owner? p.owners.length = some ⟨b.data, b.overlay⟩ := by
    rw [owner?]
    simp [hp₁]
  rw [hclone] at hvalid ⊢
  -- the clone writes to its overlay, since owner `i` still points to the data
  rw [bindAll_shared hij hi₁ hj₁] at hvalid ⊢
  set q : Pool := ⟨p₁.datas, p₁.owners.set p.owners.length
    (some ⟨b.data, b.overlay.insertAll news⟩)⟩ with hq
  have hlt₁ := lt_of_owner? hj₁
  have hqi : q.owner? i = some b := by rw [hq, owner?_set _ hlt₁, if_neg hij, hi₁]
  have hqj : q.owner? p.owners.length = some ⟨b.data, b.overlay.insertAll news⟩ := by
    rw [hq, owner?_set _ hlt₁, if_pos rfl]
  have hdata : q.data b.data = p.data b.data := rfl
  refine ⟨by rw [plain, hqj, Option.map_some, hdata, hd.iter_insertAll hover], ?_⟩
  have hsame : ¬IsSame ⟨b.data, b.overlay.insertAll news⟩ b :=
    fun hs ↦ Subst.insertAll_ne_nil _ hnews hs.2.2
  have hsets := sets_absorb hvalid hij hqi hqj hsame
  rw [step]
  simp only [hqi, hqj, if_neg hij]
  rw [hsets.self, hdata, hd.iter_insertAll hover]

/-- An owner reads as a plain ordered map does. -/
def Reads (p : Pool) (s : Shared) (m : Subst) : Prop :=
  let d := p.data s.data
  m.Distinct ∧ d.iter s.overlay = m ∧ (∀ v, d.get s.overlay v = m.get v) ∧
    (∀ v, d.contains s.overlay v = (m.get v).isSome) ∧ d.len s.overlay = m.length ∧
    d.isEmpty s.overlay = m.isEmpty

theorem Valid.reads {p : Pool} (h : p.Valid) {i : ℕ} {s : Shared} (hi : p.owner? i = some s) :
    p.Reads s ((p.data s.data).iter s.overlay) := by
  have hd := h.data s.data
  have hover := (h.owner i s hi).2
  refine ⟨hd.distinct_iter hover, rfl, hd.get_iter hover, fun v ↦ ?_,
    SubstData.Tracked.len_iter _ _, hd.isEmpty_iter hover⟩
  rw [SubstData.contains, hd.get_iter hover]

/-- **Shared substitutions are plain ordered maps**: in every state of a run that keeps the order, the
owners stand for the maps that the same operations lead to, every lookup, length and iteration agrees
with them, and absorbing a clone that was bound further is composing. -/
theorem run_plain {ops : List SubstOp} (hord : Ordered ⟨[], []⟩ ops) :
    ∀ pre, pre <+: ops → ∃ a, Plain.Run .none pre a ∧
      (∀ i s, (run pre).owner? i = some s → ∃ m, a.maps i = some m ∧ (run pre).Reads s m) ∧
      ∀ i base, a.maps i = some base → ∀ news, news ≠ [] →
        let j := (run pre).owners.length
        let q := ((run pre).step (.clone i)).bindAll j news
        q.plain j = some (base.insertAll news) ∧
          (q.step (.absorb i j)).plain i = some ((base.insertAll news).compose base) := by
  rintro pre ⟨rest, rfl⟩
  refine ⟨(run pre).toPlain, plainRun_run (ordered_append.1 hord).1, fun i s hi ↦ ?_,
    fun i base hi news hnews ↦ absorb_extension (valid_run pre) hi hnews⟩
  refine ⟨_, ?_, (valid_run pre).reads hi⟩
  show (run pre).plain i = _
  rw [plain, hi, Option.map_some]

/-- A substitution with one binding, extended and absorbed. -/
theorem run_plain_singleton : ∃ a, Plain.Run .none [.empty, .insert 0 0 (.var 1)] a ∧
    ∃ m, a.maps 0 = some m ∧ m = [(0, .var 1)] ∧
      let p := run [.empty, .insert 0 0 (.var 1)]
      ((((p.step (.clone 0)).bindAll 1 [(1, .con "int")]).step (.absorb 0 1)).plain 0 =
        some [(0, .con "int"), (1, .con "int")]) := by
  have hord : Ordered ⟨[], []⟩ [.empty, .insert 0 0 (.var 1)] :=
    ⟨trivial, fun _ _ b hb ↦ (List.not_mem_nil hb).elim, trivial⟩
  obtain ⟨a, hrun, hreads, habsorb⟩ := run_plain hord _ List.prefix_rfl
  obtain ⟨m, hm, -, rfl, -⟩ := hreads 0 ⟨0, []⟩ rfl
  refine ⟨a, hrun, _, hm, rfl, ?_⟩
  exact (habsorb 0 _ hm [(1, .con "int")] (List.cons_ne_nil _ _)).2

/-- **The order is lost** when a binding is written to data that is no longer shared, under an overlay:
here owner `1` binds `1` while owner `0` shares its data, owner `0` moves away by a `remove`, and the
next binding comes before `1` in the iteration. -/
theorem insert_before_overlay :
    let ops : List SubstOp := [.empty, .insert 0 0 (.con "int"), .clone 0, .insert 1 1 (.con "int"),
      .remove 0 0, .insert 1 2 (.con "int")]
    ¬∃ a, Plain.Run .none ops a ∧
      ∀ i s, (run ops).owner? i = some s → ∃ m, a.maps i = some m ∧ (run ops).Reads s m := by
  rintro ops ⟨a, hrun, hreads⟩
  obtain ⟨m, hm, -, rfl, -⟩ := hreads 1 ⟨0, [(1, .con "int")]⟩ (by rfl)
  -- the plain maps of the run
  have hplain : a.maps 1 = some [(0, .con "int"), (1, .con "int"), (2, .con "int")] := by
    change Plain.Run .none (_ :: _) a at hrun
    cases hrun with | cons h₁ hrun =>
    cases hrun with | cons h₂ hrun =>
    cases hrun with | cons h₃ hrun =>
    cases hrun with | cons h₄ hrun =>
    cases hrun with | cons h₅ hrun =>
    cases hrun with | cons h₆ hrun =>
    cases hrun with | nil =>
    obtain rfl := h₁.eq_of_empty
    obtain rfl := h₂.eq_of_insert rfl
    obtain rfl := h₃.eq_of_clone rfl
    obtain rfl := h₄.eq_of_insert rfl
    obtain rfl := h₅.eq_of_remove rfl
    obtain rfl := h₆.eq_of_insert rfl
    rfl
  rw [hplain, Option.some.injEq] at hm
  revert hm
  decide

end Pool

end CoilLang
