import CoilLang.Typechecking.SubstData

/-!
# Data under an overlay

A substitution that shares its data keeps what it binds itself in an overlay, where a binding for a
variable of the data shadows it. Together they stand for a plain ordered map, the bindings in the order
of `iter`: **the data's first, then those the overlay adds**. Lookups, length and folding the overlay in
agree with it, and so does a write to the overlay (`iter_insert_over`). A write to the data under an
overlay does in all cases but one (`iter_insert_data`).
-/

namespace CoilLang

/-! ### Data under an overlay -/

namespace SubstData

variable (d : SubstData) (overlay : Subst)

/-- The overlay's binding of `v`, the newest one. -/
def shadowed (v : TyVarId) : Option Ty := Subst.get overlay.reverse v

def get (v : TyVarId) : Option Ty :=
  (shadowed overlay v).or (((d.index v).bind fun pos ↦ d.mappings[pos]?).map Prod.snd)

def contains (v : TyVarId) : Bool := (d.get overlay v).isSome

def len : ℕ := d.mappings.length + (overlay.filter fun b ↦ (d.index b.1).isNone).length

def isEmpty : Bool := d.mappings.isEmpty && overlay.isEmpty

/-- The bindings in order: those of the data, with what shadows them, then the overlay's own. -/
def iter : Subst :=
  d.mappings.map (fun b ↦ (b.1, (shadowed overlay b.1).getD b.2)) ++
    overlay.filter fun b ↦ (d.index b.1).isNone

end SubstData

/-! ### What an overlay shows -/

namespace Subst

theorem get_reverse {s : Subst} (hs : s.Distinct) (v : TyVarId) : get s.reverse v = s.get v := by
  have hrev : Distinct s.reverse := by rwa [Distinct, dom, List.map_reverse, List.nodup_reverse]
  cases h : s.get v with
  | none =>
    rw [get_eq_none_iff] at h ⊢
    rwa [dom, List.map_reverse, List.mem_reverse]
  | some t => exact get_of_mem hrev (List.mem_reverse.2 (mem_of_get h))

/-- Overwriting a bound variable changes one binding. -/
theorem map_update_eq_insert {s : Subst} (hs : s.Distinct) (f : TyVarId × Ty → Ty) {v : TyVarId}
    (hv : v ∈ s.dom) (t : Ty) :
    s.map (fun b ↦ (b.1, if b.1 = v then t else f b)) =
      Subst.insert (s.map fun b ↦ (b.1, f b)) v t := by
  induction s with
  | nil => cases hv
  | cons b s ih =>
    obtain ⟨w, u⟩ := b
    obtain ⟨hw, hs⟩ := List.nodup_cons.1 hs
    rw [List.map_cons, List.map_cons, insert]
    by_cases hwv : w = v
    · subst hwv
      rw [if_pos rfl, if_pos rfl]
      congr 1
      refine List.map_congr_left fun b hb ↦ ?_
      rw [if_neg]
      rintro rfl
      exact hw (mem_dom hb)
    · rw [if_neg hwv, if_neg hwv, ih hs ((List.mem_cons.1 hv).resolve_left (Ne.symm hwv))]

theorem map_insert (s : Subst) (f : TyVarId → Ty → Ty) (v : TyVarId) (t : Ty) :
    (s.insert v t).map (fun b ↦ (b.1, f b.1 b.2)) =
      Subst.insert (s.map fun b ↦ (b.1, f b.1 b.2)) v (f v t) := by
  induction s with
  | nil => rfl
  | cons b s ih =>
    obtain ⟨w, u⟩ := b
    rw [insert, List.map_cons, insert]
    split
    · rfl
    · rw [List.map_cons, ih]

/-- The bindings of variables that are not in `D`. -/
def outside (s : Subst) (D : List TyVarId) : Subst := s.filter fun b ↦ b.1 ∉ D

theorem outside_cons (b : TyVarId × Ty) (s : Subst) (D : List TyVarId) :
    outside (b :: s) D = if b.1 ∈ D then s.outside D else b :: s.outside D := by
  by_cases h : b.1 ∈ D <;> simp [outside, h]

theorem dom_outside (s : Subst) (D : List TyVarId) : (s.outside D).dom = s.dom.filter (· ∉ D) := by
  rw [outside, dom, dom, List.filter_map]
  rfl

theorem outside_insert_of_mem {s : Subst} {D : List TyVarId} {v : TyVarId} (hv : v ∈ D) (t : Ty) :
    (s.insert v t).outside D = s.outside D := by
  induction s with
  | nil => rw [insert, outside_cons, if_pos hv]
  | cons b s ih =>
    obtain ⟨w, u⟩ := b
    rw [insert]
    split
    · rename_i hw
      subst hw
      rw [outside_cons, outside_cons, if_pos hv, if_pos hv]
    · rw [outside_cons, outside_cons, ih]

theorem outside_insert_of_notMem {s : Subst} {D : List TyVarId} {v : TyVarId} (hv : v ∉ D)
    (t : Ty) : (s.insert v t).outside D = (s.outside D).insert v t := by
  induction s with
  | nil => rw [insert, outside_cons, if_neg hv]; rfl
  | cons b s ih =>
    obtain ⟨w, u⟩ := b
    rw [insert]
    by_cases hw : w = v
    · subst hw
      rw [if_pos rfl, outside_cons, outside_cons, if_neg hv, if_neg hv, insert, if_pos rfl]
    · rw [if_neg hw, outside_cons, outside_cons, ih]
      split
      · rfl
      · rw [insert, if_neg hw]

theorem get_outside {s : Subst} {D : List TyVarId} {v : TyVarId} (hv : v ∉ D) :
    (s.outside D).get v = s.get v := by
  induction s with
  | nil => rfl
  | cons b s ih =>
    obtain ⟨w, u⟩ := b
    rw [outside_cons, get_cons]
    split
    · rename_i hw
      rw [ih, if_neg]
      rintro rfl
      exact hv hw
    · rw [get_cons, ih]

/-- A binding that is replaced is found under its variable. -/
theorem get_map (s : Subst) (f : TyVarId → Ty → Ty) (v : TyVarId) :
    get (s.map fun b ↦ (b.1, f b.1 b.2)) v = (s.get v).map (f v) := by
  induction s with
  | nil => rfl
  | cons b s ih =>
    obtain ⟨w, u⟩ := b
    rw [List.map_cons, get_cons, get_cons, ih]
    split
    · rename_i hv
      rw [hv, Option.map_some]
    · rfl

end Subst

namespace SubstData.Tracked

variable {d : SubstData} (h : d.Tracked) {overlay : Subst} (hover : overlay.Distinct)

include h in
theorem isNone_index (v : TyVarId) : (d.index v).isNone = decide (v ∉ d.mappings.dom) := by
  rw [Bool.eq_iff_iff, Option.isNone_iff_eq_none, h.index_eq_none, decide_eq_true_iff]

include h hover in
/-- The iteration in terms of the plain maps below and above. -/
theorem iter_eq : d.iter overlay = d.mappings.map (fun b ↦ (b.1, (overlay.get b.1).getD b.2)) ++
    overlay.outside d.mappings.dom := by
  unfold SubstData.iter shadowed
  simp only [Subst.get_reverse hover, h.isNone_index]
  rfl

include h in
theorem iter_nil : d.iter [] = d.mappings := by
  rw [h.iter_eq (by simp [Subst.Distinct, Subst.dom])]
  simp [Subst.outside]

/-- The data's part of the iteration binds the data's variables. -/
theorem dom_shadow (s overlay : Subst) :
    Subst.dom (s.map fun b ↦ (b.1, (overlay.get b.1).getD b.2)) = s.dom := by
  rw [Subst.dom, List.map_map]
  rfl

include h hover in
theorem dom_iter : (d.iter overlay).dom = d.mappings.dom ++ overlay.dom.filter (· ∉ d.mappings.dom) := by
  rw [h.iter_eq hover, Subst.dom_append, dom_shadow, Subst.dom_outside]

include h hover in
theorem distinct_iter : (d.iter overlay).Distinct := by
  rw [Subst.Distinct, h.dom_iter hover, List.nodup_append]
  refine ⟨h.distinct, hover.filter _, fun a ha b hb ↦ ?_⟩
  rintro rfl
  exact of_decide_eq_true (List.mem_filter.1 hb).2 ha

include h hover in
/-- Writing to the overlay inserts into the plain map. -/
theorem iter_insert_over (v : TyVarId) (t : Ty) :
    d.iter (overlay.insert v t) = (d.iter overlay).insert v t := by
  rw [h.iter_eq (hover.insert v t), h.iter_eq hover]
  by_cases hv : v ∈ d.mappings.dom
  · rw [Subst.outside_insert_of_mem hv, Subst.insert_append_of_mem ((dom_shadow _ _).symm ▸ hv),
      ← Subst.map_update_eq_insert h.distinct _ hv]
    congr 1
    refine List.map_congr_left fun b _ ↦ ?_
    rw [Subst.get_insert]
    split <;> rfl
  · rw [Subst.outside_insert_of_notMem hv,
      Subst.insert_append_of_notMem ((dom_shadow _ _).symm ▸ hv)]
    congr 1
    refine List.map_congr_left fun b hb ↦ ?_
    rw [Subst.get_insert, if_neg]
    rintro rfl
    exact hv (List.mem_map_of_mem hb)

include h hover in
/-- Folding the overlay in gives the plain map. -/
theorem foldl_over :
    overlay.foldl (fun (s : Subst) b ↦ s.insert b.1 b.2) d.mappings = d.iter overlay := by
  induction overlay using List.reverseRecOn with
  | nil => rw [h.iter_nil, List.foldl_nil]
  | append_singleton overlay b ih =>
    obtain ⟨v, t⟩ := b
    have hsplit : Subst.Distinct overlay ∧ v ∉ Subst.dom overlay := by
      rw [Subst.Distinct, Subst.dom_append, List.nodup_append] at hover
      exact ⟨hover.1, fun hmem ↦ hover.2.2 v hmem v (by simp [Subst.dom]) rfl⟩
    rw [List.foldl_append, ih hsplit.1, List.foldl_cons, List.foldl_nil,
      ← h.iter_insert_over hsplit.1, Subst.insert_of_notMem hsplit.2]

include h hover in
/-- Lookups agree with the plain map. -/
theorem get_iter (v : TyVarId) : d.get overlay v = (d.iter overlay).get v := by
  rw [SubstData.get, h.get_eq, shadowed, Subst.get_reverse hover, h.iter_eq hover, Subst.get_append,
    Subst.get_map d.mappings (fun w u ↦ (overlay.get w).getD u)]
  by_cases hv : v ∈ d.mappings.dom
  · obtain ⟨u, hu⟩ : ∃ u, d.mappings.get v = some u := by
      rw [← Option.ne_none_iff_exists', ne_eq, Subst.get_eq_none_iff, not_not]
      exact hv
    rw [hu]
    cases overlay.get v <;> rfl
  · rw [Subst.get_eq_none_iff.2 hv, Option.or_none, Option.map_none, Option.none_or,
      Subst.get_outside hv]

theorem len_iter (d : SubstData) (overlay : Subst) : d.len overlay = (d.iter overlay).length := by
  simp [SubstData.len, SubstData.iter]

include h hover in
theorem isEmpty_iter : d.isEmpty overlay = (d.iter overlay).isEmpty := by
  rw [Bool.eq_iff_iff, List.isEmpty_iff, h.iter_eq hover, SubstData.isEmpty, Bool.and_eq_true,
    List.isEmpty_iff, List.isEmpty_iff, List.append_eq_nil_iff, List.map_eq_nil_iff]
  refine and_congr_right fun hnil ↦ ?_
  rw [hnil, Subst.outside]
  simp [Subst.dom]

/-- Writing to the data under an overlay that binds other variables: the plain map gets the binding
in its place, **unless it is new and the overlay has new bindings too**. -/
theorem iter_insert_data {d : SubstData} (h : d.Tracked) {overlay : Subst} (hover : overlay.Distinct)
    {v : TyVarId} (hv : v ∉ overlay.dom) (t : Ty) :
    (d.insert v t).iter overlay = (d.iter overlay).insert v t ↔
      v ∈ d.mappings.dom ∨ ∀ b ∈ overlay, b.1 ∈ d.mappings.dom := by
  have hget : overlay.get v = none := Subst.get_eq_none_iff.2 hv
  rw [(h.insert v t).iter_eq hover, h.mappings_insert, h.iter_eq hover,
    Subst.map_insert d.mappings (fun w u ↦ (overlay.get w).getD u), hget, Option.getD_none]
  by_cases hmem : v ∈ d.mappings.dom
  · rw [Subst.dom_insert_of_mem hmem, ← Subst.insert_append_of_mem ((dom_shadow _ _).symm ▸ hmem)]
    exact iff_of_true rfl (.inl hmem)
  · have hout : overlay.outside (d.mappings.insert v t).dom = overlay.outside d.mappings.dom := by
      refine List.filter_congr fun b hb ↦ ?_
      have hbv : b.1 ≠ v := fun heq ↦ hv (heq ▸ List.mem_map_of_mem hb)
      have hiff : b.1 ∉ (d.mappings.insert v t).dom ↔ b.1 ∉ d.mappings.dom := by
        rw [Subst.insert_of_notMem hmem, Subst.dom_append, List.mem_append, not_or,
          and_iff_left (by simpa [Subst.dom] using hbv)]
      exact decide_eq_decide.2 hiff
    have hnot : v ∉ (overlay.outside d.mappings.dom).dom := by
      rw [Subst.dom_outside]
      exact fun hmem ↦ hv (List.mem_filter.1 hmem).1
    rw [hout, Subst.insert_append_of_notMem ((dom_shadow _ _).symm ▸ hmem),
      Subst.insert_of_notMem ((dom_shadow _ _).symm ▸ hmem), Subst.insert_of_notMem hnot,
      List.append_assoc, List.append_cancel_left_eq, or_iff_right hmem]
    have hnil : overlay.outside d.mappings.dom = [] ↔ ∀ b ∈ overlay, b.1 ∈ d.mappings.dom := by
      simp [Subst.outside, List.filter_eq_nil_iff]
    rw [← hnil]
    -- the new binding stands before the overlay's here, behind them there
    cases hover' : overlay.outside d.mappings.dom with
    | nil => simp
    | cons c r =>
      refine iff_of_false (fun heq ↦ hnot ?_) (by simp)
      rw [List.singleton_append, List.cons_append, List.cons.injEq] at heq
      rw [hover', ← heq.1]
      simp [Subst.dom]

end SubstData.Tracked

namespace Subst

/-- Insert bindings one after another. -/
def insertAll (s news : Subst) : Subst := news.foldl (fun s b ↦ s.insert b.1 b.2) s

theorem insert_ne_nil (s : Subst) (v : TyVarId) (t : Ty) : s.insert v t ≠ [] := by
  cases s with
  | nil => exact List.cons_ne_nil _ _
  | cons b s =>
    obtain ⟨w, u⟩ := b
    rw [insert]
    split <;> exact List.cons_ne_nil _ _

theorem insertAll_ne_nil (s : Subst) {news : Subst} (h : news ≠ []) : s.insertAll news ≠ [] := by
  induction news generalizing s with
  | nil => exact absurd rfl h
  | cons b news ih =>
    cases news with
    | nil => exact insert_ne_nil s b.1 b.2
    | cons c news => exact ih (s.insert b.1 b.2) (List.cons_ne_nil _ _)

end Subst

theorem SubstData.Tracked.iter_insertAll {d : SubstData} (h : d.Tracked) {overlay : Subst}
    (hover : overlay.Distinct) (news : Subst) :
    d.iter (overlay.insertAll news) = (d.iter overlay).insertAll news := by
  induction news generalizing overlay with
  | nil => rfl
  | cons b news ih =>
    have hrest := ih (hover.insert b.1 b.2)
    rwa [h.iter_insert_over hover] at hrest

end CoilLang
