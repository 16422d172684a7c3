import CoilLang.Machine.GcIdeal

/-!
# Objects over other words

Every operation on objects treats their words alike, so it commutes with a change of words. This is how an object
of the heap and the ideal object it stands for are compared: the one is the other with each reference replaced by an
address.
-/

namespace CoilLang.Gc.Object

open Machine.Snapshot (WordKind packedWordKind)

variable {W X Y : Type} (f : W → X)

@[simp] theorem kind_map (o : Object W) : (o.map f).kind = o.kind := by
  cases o with
  | handle what => cases what <;> rfl
  | _ => rfl

@[simp] theorem typeId?_map (o : Object W) : (o.map f).typeId? = o.typeId? := by cases o <;> rfl

@[simp] theorem isFinalized_map (o : Object W) : (o.map f).isFinalized = o.isFinalized := by cases o <;> rfl

@[simp] theorem isWeak_map (o : Object W) : (o.map f).isWeak = o.isWeak := by cases o <;> rfl

@[simp] theorem hasFinalizer_map (types : List ℕ) (o : Object W) :
    (o.map f).hasFinalizer types = o.hasFinalizer types := by
  rw [hasFinalizer, hasFinalizer, typeId?_map]

@[simp] theorem pending_map (types : List ℕ) (o : Object W) : (o.map f).pending types = o.pending types := by
  rw [pending, pending, hasFinalizer_map, isFinalized_map]

theorem map_map (g : X → Y) (o : Object W) : (o.map f).map g = o.map (g ∘ f) := by
  cases o <;> simp [map, Function.comp_def]

/-- All words of an object, with the target of a weak handle. -/
def atoms : Object W → List W
  | .weak target _ => [target]
  | o => o.words

theorem words_sub_atoms {o : Object W} {w : W} (h : w ∈ o.words) : w ∈ o.atoms := by
  cases o with
  | weak => cases h
  | _ => exact h

theorem map_congr {f g : W → X} {o : Object W} (h : ∀ w ∈ o.atoms, f w = g w) : o.map f = o.map g := by
  have hlist : ∀ {l : List W}, (∀ w ∈ l, w ∈ o.atoms) → l.map f = l.map g := fun hl ↦
    List.map_congr_left fun w hw ↦ h w (hl w hw)
  cases o with
  | table typeId finalized fields =>
    refine congrArg (Object.table typeId finalized) (List.map_congr_left fun p hp ↦ Prod.ext (h _ ?_) (h _ ?_))
    · exact List.mem_flatMap.mpr ⟨p, hp, List.mem_cons_self⟩
    · exact List.mem_flatMap.mpr ⟨p, hp, List.mem_cons_of_mem _ List.mem_cons_self⟩
  | «instance» => exact congrArg (Object.instance _ _) (hlist fun _ hw ↦ hw)
  | «enum» => exact congrArg (Object.enum _ _ _ _) (hlist fun _ hw ↦ hw)
  | tuple => exact congrArg (Object.tuple _) (hlist fun _ hw ↦ hw)
  | array => exact congrArg (Object.array _) (hlist fun _ hw ↦ hw)
  | coroutine stack mask send links =>
    rw [map, map, hlist fun w hw ↦ List.mem_append_left _ hw,
      hlist fun w hw ↦ List.mem_append_right _ (List.mem_cons_of_mem _ hw),
      h send (List.mem_append_right _ List.mem_cons_self)]
  | boxed => exact congrArg (Object.boxed _) (h _ (List.mem_singleton_self _))
  | root payload =>
    cases payload with
    | none => rfl
    | some w => exact congrArg (fun w ↦ Object.root (some w)) (h _ (List.mem_singleton_self _))
  | weak => exact congrArg (Object.weak · _) (h _ (List.mem_singleton_self _))
  | fn entry arity isRest captures args dicts =>
    have hdicts : dicts.map (Option.map f) = dicts.map (Option.map g) := by
      refine List.map_congr_left fun d hd ↦ ?_
      cases d with
      | none => rfl
      | some w => exact congrArg some (h w (List.mem_append_right _ (List.reduceOption_mem_iff.mpr hd)))
    rw [map, map, hdicts, hlist fun w hw ↦ List.mem_append_left _ (List.mem_append_left _ hw),
      hlist fun w hw ↦ List.mem_append_left _ (List.mem_append_right _ hw)]
  | _ => rfl

theorem reduceOption_map (l : List (Option W)) : (l.map (Option.map f)).reduceOption = l.reduceOption.map f :=
  List.reduceOption_map

theorem flatMap_pair (l : List (W × W)) :
    ((l.map (Prod.map f f)).flatMap fun p ↦ [p.1, p.2]) = (l.flatMap fun p ↦ [p.1, p.2]).map f := by
  induction l with
  | nil => rfl
  | cons p l ih =>
    simp only [List.map_cons, List.flatMap_cons, List.map_append, ih, Prod.map_fst, Prod.map_snd, List.map_nil]

@[simp] theorem words_map (o : Object W) : (o.map f).words = o.words.map f := by
  cases o with
  | table _ _ fields => exact flatMap_pair f fields
  | root payload => cases payload <;> rfl
  | fn => simp [map, words]
  | coroutine => simp [map, words]
  | _ => rfl

theorem filter_zipIdx_map (keep : ℕ → Bool) (l : List W) (n : ℕ) :
    (((l.map f).zipIdx n).filter fun w ↦ keep w.2).map Prod.fst =
      (((l.zipIdx n).filter fun w ↦ keep w.2).map Prod.fst).map f := by
  induction l generalizing n with
  | nil => rfl
  | cons x l ih =>
    simp only [List.map_cons, List.zipIdx_cons, List.filter_cons]
    split
    · rw [List.map_cons, List.map_cons, List.map_cons, ih]
    · exact ih _

theorem unscalar_map (kind : ℕ → WordKind) (l : List W) : unscalar kind (l.map f) = (unscalar kind l).map f :=
  filter_zipIdx_map f (fun i ↦ kind i ≠ .scalar) l 0

theorem liveStack_map (mask : ℕ) (l : List W) : liveStack mask (l.map f) = (liveStack mask l).map f :=
  filter_zipIdx_map f (fun i ↦ mask = 0 ∨ 64 ≤ i ∨ mask.testBit i) l 0

theorem map_true_map (l : List W) :
    (l.map f).map (Prod.mk true) = (l.map (Prod.mk true)).map (Prod.map id f) := by
  rw [List.map_map, List.map_map]
  rfl

theorem scan_map (classKinds : ℕ → List WordKind) (mayHoldRefs : Bool) (o : Object W) :
    (o.map f).scan classKinds mayHoldRefs = (o.scan classKinds mayHoldRefs).map (Prod.map id f) := by
  cases o with
  | «instance» typeId finalized slots =>
    rw [map, scan, scan, unscalar_map]
    exact map_true_map f _
  | table typeId finalized fields =>
    rw [map, scan, scan]
    induction fields with
    | nil => rfl
    | cons p l ih => simp only [List.map_cons, List.flatMap_cons, List.map_append, ih, List.map_nil]; rfl
  | «enum» tag typeId finalized kinds payload =>
    rw [map, scan, scan, unscalar_map]
    exact map_true_map f _
  | tuple kinds elements =>
    rw [map, scan, scan, unscalar_map]
    exact map_true_map f _
  | array pointers elements =>
    rw [map, scan, scan]
    split
    · exact map_true_map f _
    · rfl
  | coroutine stack mask send links =>
    rw [map, scan, scan, liveStack_map, ← map_true_map]
    simp
  | root payload => cases payload <;> rfl
  | fn entry arity isRest captures args dicts =>
    rw [map, scan, scan, reduceOption_map, ← map_true_map]
    simp
  | _ => rfl

/-- The note on an array is read for arrays only. -/
theorem scan_flag (classKinds : ℕ → List WordKind) (flag : Bool) (o : Object W)
    (h : flag = false → o.elements? = none) :
    o.scan classKinds flag = o.scan classKinds true := by
  cases o with
  | array pointers elements =>
    cases flag with
    | true => rfl
    | false => cases h rfl
  | _ => rfl

@[simp] theorem elements?_isSome_map (o : Object W) : (o.map f).elements?.isSome = o.elements?.isSome := by
  cases o <;> rfl

theorem claim_map (o : Object W) : (o.map f).claim = o.claim.map (map f) := by
  cases o with
  | «instance» typeId finalized slots => cases finalized <;> rfl
  | table typeId finalized fields => cases finalized <;> rfl
  | «enum» tag typeId finalized kinds payload =>
    rw [map, claim, claim]
    split
    · rfl
    · cases finalized <;> rfl
  | _ => rfl

theorem tagEnum_map (typeId : ℕ) (o : Object W) : (o.map f).tagEnum typeId = (o.tagEnum typeId).map (map f) := by
  cases o with
  | «enum» tag old finalized kinds payload => cases payload <;> rfl
  | _ => rfl

theorem elements?_isSome_iff (o : Object W) : o.elements?.isSome = true ↔ o.kind = 6 := by
  cases o with
  | handle what => cases what <;> simp [elements?, kind]
  | _ => simp [elements?, kind]

@[simp] theorem atoms_map (o : Object W) : (o.map f).atoms = o.atoms.map f := by
  cases o with
  | weak => rfl
  | string => rfl
  | bytes => rfl
  | handle => rfl
  | «instance» typeId finalized slots => exact words_map f (.instance typeId finalized slots)
  | table typeId finalized fields => exact words_map f (.table typeId finalized fields)
  | «enum» tag typeId finalized kinds payload => exact words_map f (.enum tag typeId finalized kinds payload)
  | tuple kinds elements => exact words_map f (.tuple kinds elements)
  | array pointers elements => exact words_map f (.array pointers elements)
  | coroutine stack mask send links => exact words_map f (.coroutine stack mask send links)
  | boxed tag payload => exact words_map f (.boxed tag payload)
  | root payload => exact words_map f (.root payload)
  | fn entry arity isRest captures args dicts => exact words_map f (.fn entry arity isRest captures args dicts)

/-- What claiming leaves of an object. -/
theorem claim_spec {o o' : Object W} (h : o.claim = some o') :
    o'.kind = o.kind ∧ o'.words = o.words ∧ o'.typeId? = o.typeId? ∧ (∀ k b, o'.scan k b = o.scan k b) ∧
      o'.elements?.isSome = o.elements?.isSome ∧ (o'.isFinalized = false → o.isFinalized = false) ∧
      (∀ s, o ≠ .string s) ∧ (∀ s, o' ≠ .string s) ∧ ∀ t b, o' ≠ .weak t b := by
  cases o with
  | «instance» typeId finalized slots =>
    cases finalized with
    | true => cases h
    | false => cases h; exact ⟨rfl, rfl, rfl, fun _ _ ↦ rfl, rfl, nofun, nofun, nofun, nofun⟩
  | table typeId finalized fields =>
    cases finalized with
    | true => cases h
    | false => cases h; exact ⟨rfl, rfl, rfl, fun _ _ ↦ rfl, rfl, nofun, nofun, nofun, nofun⟩
  | «enum» tag typeId finalized kinds payload =>
    rw [claim] at h
    split at h
    · cases h
      exact ⟨rfl, rfl, rfl, fun _ _ ↦ rfl, rfl, id, nofun, nofun, nofun⟩
    · cases finalized with
      | true => cases h
      | false => cases h; exact ⟨rfl, rfl, rfl, fun _ _ ↦ rfl, rfl, nofun, nofun, nofun, nofun⟩
  | _ => cases h

/-- What giving an enum its type leaves of it. -/
theorem tagEnum_spec {typeId : ℕ} {o o' : Object W} (h : o.tagEnum typeId = some o') :
    o'.kind = o.kind ∧ o'.words = o.words ∧ o'.typeId? = some typeId ∧ (∀ k b, o'.scan k b = o.scan k b) ∧
      o'.elements?.isSome = o.elements?.isSome ∧ (∀ s, o ≠ .string s) ∧ (∀ s, o' ≠ .string s) ∧ ∀ t b,
        o' ≠ .weak t b := by
  cases o with
  | «enum» tag old finalized kinds payload =>
    cases payload with
    | nil => cases h
    | cons w ws => cases h; exact ⟨rfl, rfl, rfl, fun _ _ ↦ rfl, rfl, nofun, nofun, nofun⟩
  | _ => cases h

/-- What marking looks at are words of the object. -/
theorem mem_words_of_mem_scan {classKinds : ℕ → List WordKind} {flag : Bool} {o : Object W} {i : Bool × W}
    (h : i ∈ o.scan classKinds flag) : i.2 ∈ o.words := by
  have hfilter : ∀ (keep : ℕ → Bool) (l : List W) (n : ℕ) (w : W),
      w ∈ ((l.zipIdx n).filter fun w ↦ keep w.2).map Prod.fst → w ∈ l := by
    intro keep l n w hw
    obtain ⟨p, hp, rfl⟩ := List.mem_map.mp hw
    exact List.fst_mem_of_mem_zipIdx (List.mem_filter.mp hp).1
  have htrue : ∀ {l : List W}, i ∈ l.map (Prod.mk true) → i.2 ∈ l := by
    intro l hl
    obtain ⟨w, hw, rfl⟩ := List.mem_map.mp hl
    exact hw
  cases o with
  | «instance» typeId finalized slots =>
    exact hfilter (fun k ↦ ((classKinds typeId)[k]?).getD .unknown ≠ .scalar) _ _ _ (htrue h)
  | table typeId finalized fields =>
    obtain ⟨p, hp, hi⟩ := List.mem_flatMap.mp h
    refine List.mem_flatMap.mpr ⟨p, hp, ?_⟩
    rcases List.mem_cons.mp hi with rfl | hi
    · exact List.mem_cons_self
    · rw [List.mem_singleton.mp hi]
      exact List.mem_cons_of_mem _ List.mem_cons_self
  | «enum» tag typeId finalized kinds payload =>
    exact hfilter (fun k ↦ packedWordKind kinds k ≠ .scalar) _ _ _ (htrue h)
  | tuple kinds elements => exact hfilter (fun k ↦ packedWordKind kinds k ≠ .scalar) _ _ _ (htrue h)
  | array pointers elements =>
    rw [scan] at h
    split at h
    · exact htrue h
    · cases h
  | coroutine stack mask send links =>
    rcases List.mem_append.mp (htrue h) with hl | hl
    · exact List.mem_append_left _ (hfilter (fun k ↦ mask = 0 ∨ 64 ≤ k ∨ mask.testBit k) _ _ _ hl)
    · exact List.mem_append_right _ hl
  | boxed tag payload =>
    rw [List.mem_singleton.mp h]
    exact List.mem_singleton_self _
  | root payload => exact htrue h
  | fn entry arity isRest captures args dicts => exact htrue h
  | _ => cases h

end CoilLang.Gc.Object
