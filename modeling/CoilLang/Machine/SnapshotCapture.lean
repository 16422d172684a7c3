import CoilLang.Machine.Snapshot

/-!
# What a capture finds

The words of a snapshot are a function of the finished table: `enc` says what a word becomes when the
objects are numbered by their place in a list. Capturing numbers an object when it is first met, at a
time when the table is not finished, so the invariant is that a captured word is **what every longer
table gives** (`Captured`). In the end the table holds the objects that the roots reach, each once, but
for the singletons.
-/

namespace CoilLang.Machine.Snapshot

/-! ### References -/

/-- The object a word refers to, if it is a reference: a word that may be a pointer with the address
of an object in it. -/
def ref? (h : Heap) (kind : WordKind) (v : ℕ) : Option ℕ :=
  if kind = .scalar ∨ kind = .byte then none
  else if heapAddr v = 0 then none
  else if (h.find (heapAddr v)).isSome then some (heapAddr v) else none

/-- The singleton at an address. -/
def single (h : Heap) (a : ℕ) : Option Single := (h.find a).bind Obj.single?

/-- The references among the words from word `i` on. -/
def refsFrom (h : Heap) (kindAt : ℕ → WordKind) : ℕ → List ℕ → List ℕ
  | _, [] => []
  | i, v :: vs => (ref? h (kindAt i) v).toList ++ refsFrom h kindAt (i + 1) vs

def memberRefs (h : Heap) : Member → List ℕ
  | .value v => (ref? h .unknown v).toList
  | .object a => if (h.find a).isSome then [a] else []

/-- The objects an object refers to. -/
def Obj.refs (h : Heap) : Obj → List ℕ
  | .array pointer ws => refsFrom h (fun _ ↦ elemKind pointer) 0 ws
  | .tuple kinds ws => refsFrom h (packedWordKind kinds) 0 ws
  | .enum _ _ kinds ws => refsFrom h (packedWordKind kinds) 0 ws
  | .instance typeId (some ws) => refsFrom h (h.fieldKind typeId) 0 ws
  | .boxed _ m => memberRefs h m
  | _ => []

def rootRefs (h : Heap) (roots : List SnapRoot) : List ℕ :=
  refsFrom h (rootKind roots) 0 (roots.map SnapRoot.value)

/-- The objects that the roots reach. -/
inductive Reaches (h : Heap) (roots : List SnapRoot) : ℕ → Prop
  | root {a} : a ∈ rootRefs h roots → Reaches h roots a
  | step {a o b} : Reaches h roots a → h.find a = some o → b ∈ o.refs h → Reaches h roots b

theorem isSome_of_ref? {h : Heap} {kind : WordKind} {v a : ℕ} (hr : ref? h kind v = some a) :
    a = heapAddr v ∧ (h.find a).isSome := by
  unfold ref? at hr
  split at hr
  · cases hr
  split at hr
  · cases hr
  split at hr
  · rename_i hs
    cases hr
    exact ⟨rfl, hs⟩
  · cases hr

theorem isSome_of_mem_refsFrom {h : Heap} {kindAt : ℕ → WordKind} {i : ℕ} {vs : List ℕ} {a : ℕ}
    (ha : a ∈ refsFrom h kindAt i vs) : (h.find a).isSome := by
  induction vs generalizing i with
  | nil => cases ha
  | cons v vs ih =>
    rcases List.mem_append.1 ha with ha | ha
    · exact (isSome_of_ref? (Option.mem_toList.1 ha)).2
    · exact ih ha

theorem isSome_of_mem_memberRefs {h : Heap} {m : Member} {a : ℕ} (ha : a ∈ memberRefs h m) :
    (h.find a).isSome := by
  cases m with
  | value v => exact (isSome_of_ref? (Option.mem_toList.1 ha)).2
  | object b =>
    by_cases hb : (h.find b).isSome
    · rw [memberRefs, if_pos hb, List.mem_singleton] at ha
      rwa [ha]
    · rw [memberRefs, if_neg hb] at ha
      cases ha

theorem isSome_of_mem_refs {h : Heap} {o : Obj} {a : ℕ} (ha : a ∈ o.refs h) :
    (h.find a).isSome := by
  unfold Obj.refs at ha
  split at ha
  · exact isSome_of_mem_refsFrom ha
  · exact isSome_of_mem_refsFrom ha
  · exact isSome_of_mem_refsFrom ha
  · exact isSome_of_mem_refsFrom ha
  · exact isSome_of_mem_memberRefs ha
  · cases ha

theorem Reaches.isSome {h : Heap} {roots : List SnapRoot} {a : ℕ} (ha : Reaches h roots a) :
    (h.find a).isSome := by
  cases ha with
  | root ha => exact isSome_of_mem_refsFrom ha
  | step _ _ hb => exact isSome_of_mem_refs hb

/-- A singleton refers to nothing. -/
theorem refs_of_single {h : Heap} {o : Obj} {s : Single} (hs : o.single? = some s) : o.refs h = [] := by
  unfold Obj.single? at hs
  split at hs
  · rfl
  · rfl
  · cases hs

/-! ### The encoding -/

/-- A reference to `a`, the objects numbered by their place in `table`. -/
def encAddr (h : Heap) (table : List ℕ) (a : ℕ) (errBit : Bool) : SnapWord :=
  match single h a with
  | some (.unitEnum tag) => .unitEnum tag errBit
  | some .emptyTuple => .emptyTuple errBit
  | none => .ref (table.idxOf a % 2 ^ 32) errBit

def enc (h : Heap) (table : List ℕ) (kind : WordKind) (v : ℕ) : SnapWord :=
  match ref? h kind v with
  | none => .raw v
  | some a => encAddr h table a (v % 2 = 1)

def encFrom (h : Heap) (table : List ℕ) (kindAt : ℕ → WordKind) : ℕ → List ℕ → List SnapWord
  | _, [] => []
  | i, v :: vs => enc h table (kindAt i) v :: encFrom h table kindAt (i + 1) vs

def encMember (h : Heap) (table : List ℕ) : Member → SnapWord
  | .value v => enc h table .unknown v
  | .object a => if (h.find a).isSome then encAddr h table a false else .raw a

/-- An object of a snapshot; what has no form is left as it is. -/
def encObj (h : Heap) (table : List ℕ) : Obj → SnapObject
  | .string s => .string s
  | .bytes b => .bytes b
  | .array pointer ws => .array pointer (encFrom h table (fun _ ↦ elemKind pointer) 0 ws)
  | .tuple kinds ws => .tuple kinds (encFrom h table (packedWordKind kinds) 0 ws)
  | .enum tag typeId kinds ws =>
    .enum tag typeId kinds (encFrom h table (packedWordKind kinds) 0 ws)
  | .instance typeId ws =>
    .instance typeId (encFrom h table (h.fieldKind typeId) 0 (ws.getD []))
  | .boxed tag m => .boxed tag (encMember h table m)
  | .other _ => .bytes []

/-! ### Growing tables -/

/-- An object that gets a number. -/
def Plain (h : Heap) (a : ℕ) : Prop :=
  ∃ o, h.find a = some o ∧ o.single? = none ∧ unsupported o = none

/-- A table grows by plain objects out of `refs`. -/
structure Grows (h : Heap) (refs : List ℕ) (f f' : Found) : Prop where
  pre : f <+: f'
  nodup : (f.map Prod.fst).Nodup → (f'.map Prod.fst).Nodup
  new : ∀ p ∈ f', p ∈ f ∨ (p.1 ∈ refs ∧ Plain h p.1)

theorem Grows.refl (h : Heap) (refs : List ℕ) (f : Found) : Grows h refs f f :=
  ⟨List.prefix_rfl, id, fun _ hp ↦ .inl hp⟩

theorem Grows.trans {h : Heap} {refs refs' : List ℕ} {f f' f'' : Found} (h₁ : Grows h refs f f')
    (h₂ : Grows h refs' f' f'') : Grows h (refs ++ refs') f f'' := by
  refine ⟨h₁.pre.trans h₂.pre, fun hn ↦ h₂.nodup (h₁.nodup hn), fun p hp ↦ ?_⟩
  rcases h₂.new p hp with hp | ⟨hr, hplain⟩
  · rcases h₁.new p hp with hp | ⟨hr, hplain⟩
    · exact .inl hp
    · exact .inr ⟨List.mem_append_left _ hr, hplain⟩
  · exact .inr ⟨List.mem_append_right _ hr, hplain⟩

/-- `x` was captured: it is what every longer table gives, and its references are in the table. -/
structure Captured {α : Type} (h : Heap) (refs : List ℕ) (code : List ℕ → α) (f : Found) (x : α)
    (f' : Found) : Prop where
  grows : Grows h refs f f'
  code : ∀ f'', f' <+: f'' → x = code (f''.map Prod.fst)
  refs : ∀ a ∈ refs, single h a = none → a ∈ f'.map Prod.fst

theorem Captured.map {α β : Type} {h : Heap} {refs : List ℕ} {code : List ℕ → α} {f f' : Found} {x : α}
    (hc : Captured h refs code f x f') (g : α → β) :
    Captured h refs (fun l ↦ g (code l)) f (g x) f' :=
  ⟨hc.grows, fun f'' hf ↦ congrArg g (hc.code f'' hf), hc.refs⟩

/-- A place in a table stays the same when the table grows. -/
theorem idxOf_of_prefix {f f' : Found} (hf : f <+: f') {a : ℕ} (ha : a ∈ f.map Prod.fst) :
    (f'.map Prod.fst).idxOf a = (f.map Prod.fst).idxOf a := by
  obtain ⟨r, rfl⟩ := hf
  rw [List.map_append, List.idxOf_append_of_mem ha]

theorem index_of_notMem {f : Found} {a : ℕ} (ha : a ∉ f.map Prod.fst) : index f a = none := by
  rw [index, List.findIdx?_eq_none_iff.2, Option.map_none]
  intro p hp
  refine decide_eq_false fun heq ↦ ha ?_
  exact heq ▸ List.mem_map_of_mem hp

theorem index_of_mem {f : Found} {a : ℕ} (ha : a ∈ f.map Prod.fst) :
    index f a = some ((f.map Prod.fst).idxOf a % 2 ^ 32) := by
  have hfind : f.findIdx? (·.1 = a) = some ((f.map Prod.fst).idxOf a) := by
    induction f with
    | nil => cases ha
    | cons p f ih =>
      rw [List.findIdx?_cons, List.map_cons, List.idxOf_cons]
      by_cases hp : p.1 = a
      · simp [hp]
      · rw [ih ((List.mem_cons.1 ha).resolve_left (Ne.symm hp))]
        simp [hp, beq_eq_false_iff_ne.2 hp]
  rw [index, hfind, Option.map_some]

theorem objectWord_spec {h : Heap} {f f' : Found} {a : ℕ} {o : Obj} {e : Bool} {parent : Parent}
    {w : SnapWord} (ho : h.find a = some o) (hw : objectWord f a o e parent = .ok (w, f')) :
    Captured h [a] (fun l ↦ encAddr h l a e) f w f' := by
  have hsingle : single h a = o.single? := by rw [single, ho, Option.bind_some]
  unfold objectWord at hw
  split at hw
  · rename_i tag hs
    cases hw
    refine ⟨.refl .., fun _ _ ↦ by rw [encAddr, hsingle, hs], fun b hb hno ↦ ?_⟩
    rw [List.mem_singleton.1 hb, hsingle, hs] at hno
    cases hno
  · rename_i hs
    cases hw
    refine ⟨.refl .., fun _ _ ↦ by rw [encAddr, hsingle, hs], fun b hb hno ↦ ?_⟩
    rw [List.mem_singleton.1 hb, hsingle, hs] at hno
    cases hno
  rename_i hs
  split at hw
  · cases hw
  rename_i hsup
  have hcode : ∀ l, encAddr h l a e = .ref (l.idxOf a % 2 ^ 32) e := fun l ↦ by
    rw [encAddr, hsingle, hs]
  by_cases ha : a ∈ f.map Prod.fst
  · rw [index_of_mem ha] at hw
    cases hw
    refine ⟨.refl .., fun f'' hf ↦ ?_, fun b hb _ ↦ (List.mem_singleton.1 hb) ▸ ha⟩
    rw [hcode, idxOf_of_prefix hf ha]
  · rw [index_of_notMem ha] at hw
    cases hw
    have hmem : a ∈ (f ++ [(a, parent)]).map Prod.fst := by simp
    refine ⟨⟨List.prefix_append _ _, fun hn ↦ ?_, fun p hp ↦ ?_⟩, fun f'' hf ↦ ?_,
      fun b hb _ ↦ (List.mem_singleton.1 hb) ▸ hmem⟩
    · rw [List.map_append, List.nodup_append]
      refine ⟨hn, List.nodup_singleton _, fun x hx y hy ↦ ?_⟩
      rintro rfl
      obtain rfl : x = a := by simpa using hy
      exact ha hx
    · rcases List.mem_append.1 hp with hp | hp
      · exact .inl hp
      · rw [List.mem_singleton.1 hp]
        exact .inr ⟨List.mem_singleton_self a, o, ho, hs, hsup⟩
    · rw [hcode, idxOf_of_prefix hf hmem, List.map_append, List.idxOf_append_of_notMem ha]
      simp

/-- A word that is not a reference is kept. -/
theorem captured_raw {h : Heap} {α : Type} {refs : List ℕ} (hrefs : refs = []) {code : List ℕ → α}
    {f : Found} {x : α} (hx : ∀ l, x = code l) : Captured h refs code f x f := by
  subst hrefs
  exact ⟨.refl .., fun f'' _ ↦ hx _, fun _ ha ↦ (List.not_mem_nil ha).elim⟩

theorem word_spec {h : Heap} {f f' : Found} {v : ℕ} {kind : WordKind} {parent : Parent}
    {w : SnapWord} (hw : word h f v kind parent = .ok (w, f')) :
    Captured h (ref? h kind v).toList (fun l ↦ enc h l kind v) f w f' := by
  unfold word at hw
  split at hw
  · rename_i hk
    have hr : ref? h kind v = none := if_pos hk
    cases hw
    exact captured_raw (by rw [hr]; rfl) fun l ↦ by rw [enc, hr]
  rename_i hk
  split at hw
  · rename_i hz
    have hr : ref? h kind v = none := by rw [ref?, if_neg hk, if_pos hz]
    cases hw
    exact captured_raw (by rw [hr]; rfl) fun l ↦ by rw [enc, hr]
  rename_i hz
  split at hw
  · rename_i ho
    have hr : ref? h kind v = none := by rw [ref?, if_neg hk, if_neg hz, if_neg (by simp [ho])]
    cases hw
    exact captured_raw (by rw [hr]; rfl) fun l ↦ by rw [enc, hr]
  · rename_i o ho
    have hr : ref? h kind v = some (heapAddr v) := by
      rw [ref?, if_neg hk, if_neg hz, if_pos (by simp [ho])]
    have hcap := objectWord_spec ho hw
    rw [hr]
    refine ⟨hcap.grows, fun f'' hf ↦ ?_, hcap.refs⟩
    rw [hcap.code f'' hf, enc, hr]

theorem words_spec {h : Heap} {kindAt : ℕ → WordKind} {parent : ℕ → Parent} {i : ℕ} {vs : List ℕ}
    {f f' : Found} {ws : List SnapWord} (hw : words h kindAt parent i vs f = .ok (ws, f')) :
    Captured h (refsFrom h kindAt i vs) (fun l ↦ encFrom h l kindAt i vs) f ws f' := by
  induction vs generalizing i f ws with
  | nil =>
    cases hw
    exact captured_raw rfl fun _ ↦ rfl
  | cons v vs ih =>
    rw [words] at hw
    split at hw
    · cases hw
    rename_i w f₁ hfirst
    split at hw
    · cases hw
    rename_i ws' f₂ hrest
    cases hw
    have h₁ := word_spec hfirst
    have h₂ := ih hrest
    refine ⟨h₁.grows.trans h₂.grows, fun f'' hf ↦ ?_, fun a ha hno ↦ ?_⟩
    · rw [h₁.code f'' (h₂.grows.pre.trans hf), h₂.code f'' hf]
      rfl
    · rcases List.mem_append.1 ha with ha | ha
      · exact (h₂.grows.pre.map Prod.fst).subset (h₁.refs a ha hno)
      · exact h₂.refs a ha hno

theorem memberWord_spec {h : Heap} {f f' : Found} {m : Member} {parent : Parent} {w : SnapWord}
    (hw : memberWord h f m parent = .ok (w, f')) :
    Captured h (memberRefs h m) (fun l ↦ encMember h l m) f w f' := by
  cases m with
  | value v => exact word_spec hw
  | object a =>
    rw [memberWord] at hw
    cases ho : h.find a with
    | none =>
      rw [ho] at hw
      cases hw
      exact captured_raw (by rw [memberRefs, ho]; rfl) fun l ↦ by rw [encMember, ho]; rfl
    | some o =>
      rw [ho] at hw
      have hcap := objectWord_spec ho hw
      refine ⟨?_, fun f'' hf ↦ ?_, ?_⟩
      · rw [memberRefs, ho]
        exact hcap.grows
      · rw [hcap.code f'' hf, encMember, ho]
        rfl
      · rw [memberRefs, ho]
        exact hcap.refs

theorem map_eq_ok {ε α β : Type} {x : Except ε α} {g : α → β} {y : β} (h : x.map g = .ok y) :
    ∃ a, x = .ok a ∧ g a = y := by
  cases x with
  | error e => cases h
  | ok a => exact ⟨a, rfl, Except.ok.inj h⟩

theorem object_spec {h : Heap} {f f' : Found} {i : ℕ} {o : Obj} {s : SnapObject}
    (hw : object h f i o = .ok (s, f')) :
    Captured h (o.refs h) (fun l ↦ encObj h l o) f s f' := by
  unfold object at hw
  split at hw
  · cases hw
    exact captured_raw rfl fun _ ↦ rfl
  · cases hw
    exact captured_raw rfl fun _ ↦ rfl
  · obtain ⟨⟨ws, g⟩, hws, heq⟩ := map_eq_ok hw
    cases heq
    exact (words_spec hws).map _
  · obtain ⟨⟨ws, g⟩, hws, heq⟩ := map_eq_ok hw
    cases heq
    exact (words_spec hws).map _
  · obtain ⟨⟨ws, g⟩, hws, heq⟩ := map_eq_ok hw
    cases heq
    exact (words_spec hws).map _
  · cases hw
  · obtain ⟨⟨ws, g⟩, hws, heq⟩ := map_eq_ok hw
    cases heq
    exact (words_spec hws).map _
  · obtain ⟨⟨w, g⟩, hws, heq⟩ := map_eq_ok hw
    cases heq
    exact (memberWord_spec hws).map _
  · cases hw

/-! ### The walk over the table -/

/-- The table after a number of rounds: reached plain objects, each once, of which those before
`objects.length` are encoded. -/
structure Walked (h : Heap) (roots : List SnapRoot) (f : Found) (objects : List SnapObject) :
    Prop where
  nodup : (f.map Prod.fst).Nodup
  reached : ∀ a ∈ f.map Prod.fst, Reaches h roots a ∧ Plain h a
  root : ∀ a ∈ rootRefs h roots, single h a = none → a ∈ f.map Prod.fst
  length : objects.length ≤ f.length
  code : ∀ (i : ℕ) s, objects[i]? = some s → ∃ a o, (f.map Prod.fst)[i]? = some a ∧ h.find a = some o ∧
    (∀ typeId, o ≠ .instance typeId none) ∧
    (∀ f'', f <+: f'' → s = encObj h (f''.map Prod.fst) o) ∧
    ∀ b ∈ o.refs h, single h b = none → b ∈ f.map Prod.fst

theorem Walked.step {h : Heap} {roots : List SnapRoot} {f f' : Found} {objects : List SnapObject}
    (hw : Walked h roots f objects) {a : ℕ} {parent : Parent} {o : Obj} {s : SnapObject}
    (ha : f[objects.length]? = some (a, parent)) (ho : h.find a = some o)
    (hs : object h f objects.length o = .ok (s, f')) : Walked h roots f' (objects ++ [s]) := by
  have hcap := object_spec hs
  have hpre := hcap.grows.pre
  have hsub := (hpre.map Prod.fst).subset
  have hat : (f.map Prod.fst)[objects.length]? = some a := by rw [List.getElem?_map, ha]; rfl
  have hra := (hw.reached a (List.mem_of_getElem? hat)).1
  have hget : ∀ {i b}, (f.map Prod.fst)[i]? = some b → (f'.map Prod.fst)[i]? = some b := fun hb ↦ by
    obtain ⟨r, hr⟩ := hpre.map Prod.fst
    rw [← hr, List.getElem?_append_left (List.getElem?_eq_some_iff.1 hb).1, hb]
  refine ⟨hcap.grows.nodup hw.nodup, fun b hb ↦ ?_, fun b hb hno ↦ hsub (hw.root b hb hno), ?_,
    fun i t ht ↦ ?_⟩
  · obtain ⟨p, hp, rfl⟩ := List.mem_map.1 hb
    rcases hcap.grows.new p hp with hp | ⟨hr, hplain⟩
    · exact hw.reached _ (List.mem_map_of_mem hp)
    · exact ⟨.step hra ho hr, hplain⟩
  · have hlt := (List.getElem?_eq_some_iff.1 ha).1
    have hle := hpre.length_le
    rw [List.length_append, List.length_singleton]
    omega
  · rcases lt_trichotomy i objects.length with hlt | rfl | hgt
    · rw [List.getElem?_append_left hlt] at ht
      obtain ⟨c, oc, hc, hoc, htyped, hcode, hrefs⟩ := hw.code i t ht
      exact ⟨c, oc, hget hc, hoc, htyped, fun f'' hf ↦ hcode f'' (hpre.trans hf),
        fun b hb hno ↦ hsub (hrefs b hb hno)⟩
    · rw [List.getElem?_concat_length] at ht
      cases ht
      refine ⟨a, o, hget hat, ho, fun typeId hty ↦ ?_, hcap.code, hcap.refs⟩
      rw [hty] at hs
      cases hs
    · rw [List.getElem?_eq_none (by simp; omega)] at ht
      cases ht

theorem captureLoop_spec {h : Heap} {roots : List SnapRoot} {n : ℕ} {f f' : Found}
    {objects objects' : List SnapObject} (hw : Walked h roots f objects)
    (hrun : captureLoop h n f objects = some (.ok (f', objects'))) :
    Walked h roots f' objects' ∧ objects'.length = f'.length := by
  induction n generalizing f objects with
  | zero => cases hrun
  | succ n ih =>
    rw [captureLoop] at hrun
    split at hrun
    · rename_i hnone
      cases hrun
      have hle := List.getElem?_eq_none_iff.1 hnone
      exact ⟨hw, le_antisymm hw.length hle⟩
    · rename_i a parent ha
      split at hrun
      · cases hrun
      · rename_i o ho
        split at hrun
        · cases hrun
        · rename_i s f₁ hs
          exact ih (hw.step ha ho hs) hrun

theorem captureLoop_prefix {h : Heap} {n : ℕ} {f f' : Found} {objects objects' : List SnapObject}
    (hrun : captureLoop h n f objects = some (.ok (f', objects'))) : f <+: f' := by
  induction n generalizing f objects with
  | zero => cases hrun
  | succ n ih =>
    rw [captureLoop] at hrun
    split at hrun
    · cases hrun
      exact List.prefix_rfl
    · split at hrun
      · cases hrun
      · split at hrun
        · cases hrun
        · rename_i s f₁ hs
          exact (object_spec hs).grows.pre.trans (ih hrun)

theorem captureLoop_mono {h : Heap} {n m : ℕ} (hnm : n ≤ m) {f : Found} {objects : List SnapObject}
    {r : Except SnapshotError (Found × List SnapObject)}
    (hrun : captureLoop h n f objects = some r) : captureLoop h m f objects = some r := by
  induction n generalizing f objects m with
  | zero => cases hrun
  | succ n ih =>
    obtain ⟨m, rfl⟩ : ∃ k, m = k + 1 := ⟨m - 1, by omega⟩
    rw [captureLoop] at hrun ⊢
    cases ha : f[objects.length]? with
    | none =>
      simp only [ha] at hrun ⊢
      exact hrun
    | some p =>
      simp only [ha] at hrun ⊢
      cases ho : h.find p.1 with
      | none =>
        simp only [ho] at hrun
        cases hrun
      | some o =>
        simp only [ho] at hrun ⊢
        cases hs : object h f objects.length o with
        | error e =>
          simp only [hs] at hrun ⊢
          exact hrun
        | ok r =>
          simp only [hs] at hrun ⊢
          exact ih (Nat.le_of_succ_le_succ hnm) hrun

/-- Tables cannot outgrow the heap. -/
theorem Walked.length_le {h : Heap} {roots : List SnapRoot} {f : Found} {objects : List SnapObject}
    (hw : Walked h roots f objects) : f.length ≤ h.objs.keys.length := by
  rw [← List.length_map (f := Prod.fst)]
  refine (List.subperm_of_subset hw.nodup fun a ha ↦ ?_).length_le
  obtain ⟨o, ho, -⟩ := (hw.reached a ha).2
  exact AList.mem_keys.1 (AList.lookup_isSome.1 (by rw [← Heap.find, ho]; rfl))

theorem captureLoop_ends {h : Heap} {roots : List SnapRoot} {n : ℕ} {f : Found}
    {objects : List SnapObject} (hw : Walked h roots f objects)
    (hn : h.objs.keys.length < objects.length + n) : ∃ r, captureLoop h n f objects = some r := by
  induction n generalizing f objects with
  | zero =>
    have hle := hw.length
    have hle' := hw.length_le
    omega
  | succ n ih =>
    rw [captureLoop]
    split
    · exact ⟨_, rfl⟩
    · rename_i a parent ha
      have hmem : a ∈ f.map Prod.fst := List.mem_map.2 ⟨_, List.mem_of_getElem? ha, rfl⟩
      obtain ⟨o, ho, -⟩ := (hw.reached a hmem).2
      simp only [ho]
      split
      · exact ⟨_, rfl⟩
      · rename_i s f₁ hs
        refine ih (hw.step ha ho hs) ?_
        rw [List.length_append, List.length_singleton]
        omega

/-! ### Capturing -/

/-- The snapshot of a table. -/
structure Tabled (h : Heap) (roots : List SnapRoot) (snap : HeapSnapshot) (table : List ℕ) : Prop where
  nodup : table.Nodup
  mem : ∀ a, a ∈ table ↔ Reaches h roots a ∧ single h a = none
  objects : ∀ i : ℕ, snap.objects[i]? = (table[i]?.bind h.find).map (encObj h table)
  length : snap.objects.length = table.length
  plain : ∀ a ∈ table, Plain h a
  typed : ∀ a ∈ table, ∀ typeId, h.find a ≠ some (.instance typeId none)
  statics : snap.statics = (roots.map SnapRoot.slot).zip
    (encFrom h table (rootKind roots) 0 (roots.map SnapRoot.value))

theorem walked_roots {h : Heap} {roots : List SnapRoot} {f : Found} {ws : List SnapWord}
    (hws : words h (rootKind roots) .root 0 (roots.map SnapRoot.value) [] = .ok (ws, f)) :
    Walked h roots f [] := by
  have hcap := words_spec hws
  refine ⟨hcap.grows.nodup List.nodup_nil, fun a ha ↦ ?_, hcap.refs, Nat.zero_le _,
    fun i s hi ↦ by simp at hi⟩
  obtain ⟨p, hp, rfl⟩ := List.mem_map.1 ha
  rcases hcap.grows.new p hp with hp | ⟨hr, hplain⟩
  · cases hp
  · exact ⟨.root hr, hplain⟩

/-- **A snapshot holds what the roots reach.** -/
theorem capture_tabled {h : Heap} {roots : List SnapRoot} {fuel : ℕ} {snap : HeapSnapshot}
    (hsnap : captureSnapshot fuel h roots = some (.ok snap)) : ∃ table, Tabled h roots snap table := by
  unfold captureSnapshot at hsnap
  split at hsnap
  · cases hsnap
  rename_i ws f hws
  have hw := walked_roots hws
  obtain ⟨r, hr, hsnap⟩ := Option.map_eq_some_iff.1 hsnap
  obtain ⟨⟨f', objects⟩, rfl, rfl⟩ := map_eq_ok hsnap
  obtain ⟨hw', hlen⟩ := captureLoop_spec hw hr
  set table := f'.map Prod.fst with htable
  have hobj : ∀ (i : ℕ) a, table[i]? = some a → ∃ o, h.find a = some o ∧
      (∀ typeId, o ≠ .instance typeId none) ∧ objects[i]? = some (encObj h table o) ∧ ∀ b ∈ o.refs h, single h b = none → b ∈ table := by
    intro i a ha
    have hlt : i < objects.length := by
      have := (List.getElem?_eq_some_iff.1 ha).1
      rw [htable, List.length_map] at this
      omega
    obtain ⟨c, o, hc, ho, htyped, hcode, hrefs⟩ := hw'.code i _ (List.getElem?_eq_getElem hlt)
    obtain rfl : a = c := Option.some.inj (ha.symm.trans hc)
    refine ⟨o, ho, htyped, ?_, hrefs⟩
    rw [List.getElem?_eq_getElem hlt, hcode f' List.prefix_rfl]
  -- what the roots reach is in the table, since the table is closed under references
  have hreach : ∀ a, Reaches h roots a → single h a = none → a ∈ table := by
    intro a ha
    induction ha with
    | root ha => exact hw'.root _ ha
    | @step a o b _ ho hb ih =>
      intro hno
      have hsingle : single h a = none := by
        cases hs : single h a with
        | none => rfl
        | some s =>
          rw [single, ho, Option.bind_some] at hs
          rw [refs_of_single hs] at hb
          cases hb
      obtain ⟨i, hi⟩ := List.mem_iff_getElem?.1 (ih hsingle)
      obtain ⟨o', ho', -, -, hrefs⟩ := hobj i a hi
      obtain rfl : o = o' := Option.some.inj (ho.symm.trans ho')
      exact hrefs b hb hno
  refine ⟨table, hw'.nodup, fun a ↦ ⟨fun ha ↦ ?_, fun ha ↦ hreach a ha.1 ha.2⟩, fun i ↦ ?_, ?_,
    fun a ha ↦ (hw'.reached a ha).2, fun a ha typeId hty ↦ ?_, ?_⟩
  · obtain ⟨hr, o, ho, hs, -⟩ := hw'.reached a ha
    exact ⟨hr, by rw [single, ho, Option.bind_some, hs]⟩
  · cases hi : table[i]? with
    | none =>
      rw [Option.bind_none, Option.map_none, List.getElem?_eq_none_iff, hlen, ← f'.length_map Prod.fst]
      exact List.getElem?_eq_none_iff.1 hi
    | some a =>
      obtain ⟨o, ho, -, hs, -⟩ := hobj i a hi
      rw [Option.bind_some, ho, Option.map_some]
      exact hs
  · rw [htable, List.length_map]
    exact hlen
  · obtain ⟨i, hi⟩ := List.mem_iff_getElem?.1 ha
    obtain ⟨o, ho, htyped, -⟩ := hobj i a hi
    exact htyped typeId (Option.some.inj (ho.symm.trans hty))
  · have hcode := (words_spec hws).code f' ?_
    · rw [htable, ← hcode]
    · exact captureLoop_prefix hr

theorem capture_ends (h : Heap) (roots : List SnapRoot) :
    ∃ r, ∀ fuel > h.objs.keys.length, captureSnapshot fuel h roots = some r := by
  unfold captureSnapshot
  cases hws : words h (rootKind roots) .root 0 (roots.map SnapRoot.value) [] with
  | error e => exact ⟨.error e, fun _ _ ↦ rfl⟩
  | ok r =>
    obtain ⟨ws, f⟩ := r
    obtain ⟨r, hr⟩ := captureLoop_ends (walked_roots hws) (n := h.objs.keys.length + 1) (by simp)
    refine ⟨r.map fun t ↦ ⟨t.2, (roots.map SnapRoot.slot).zip ws⟩, fun fuel hf ↦ ?_⟩
    simp only [captureLoop_mono hf hr]
    rfl

end CoilLang.Machine.Snapshot
