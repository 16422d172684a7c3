import CoilLang.Machine.SnapshotRestore

/-!
# Restoring a captured heap

Capturing and restoring is a renaming of addresses: the roots and the objects they reach come back
with every reference renamed and **every other word as it was**. The renaming is one to one, except
that all unit variants of a tag and all empty tuples become the one shared object of the restoring
heap, which has no type id and no word kinds.

Objects are numbered in 32 bits, so this holds for tables of at most `2 ^ 32` objects.
-/

namespace CoilLang.Machine.Snapshot

/-! ### Renaming -/

section
variable (h : Heap) (φ : ℕ → ℕ)

/-- A word with the address in it renamed, if it is a reference. -/
def renameWord (kind : WordKind) (v : ℕ) : ℕ :=
  match ref? h kind v with
  | none => v
  | some a => φ a ||| v % 2

def renameFrom (kindAt : ℕ → WordKind) : ℕ → List ℕ → List ℕ
  | _, [] => []
  | i, v :: vs => renameWord h φ (kindAt i) v :: renameFrom kindAt (i + 1) vs

/-- The payload of a box: a reference comes back as an object unless it is a singleton's or has its low
bit set. -/
def renameMember : Member → Member
  | .value v =>
    match ref? h .unknown v with
    | none => .value v
    | some a => if single h a = none ∧ v % 2 = 0 then .object (φ a) else .value (φ a ||| v % 2)
  | .object a =>
    if (h.find a).isSome then if single h a = none then .object (φ a) else .value (φ a)
    else .value a

def Obj.rename : Obj → Obj
  | .array pointer ws => .array pointer (renameFrom h φ (fun _ ↦ elemKind pointer) 0 ws)
  | .tuple kinds ws => .tuple kinds (renameFrom h φ (packedWordKind kinds) 0 ws)
  | .enum tag typeId kinds ws =>
    .enum tag typeId kinds (renameFrom h φ (packedWordKind kinds) 0 ws)
  | .instance typeId (some ws) =>
    .instance typeId (some (renameFrom h φ (h.fieldKind typeId) 0 ws))
  | .boxed tag m => .boxed tag (renameMember h φ m)
  | o => o

end

/-- Where a restore puts the object at `a`. -/
def placed (h : Heap) (table objects : List ℕ) (h' : Heap) (a : ℕ) : ℕ :=
  match single h a with
  | some s => (h'.shared s).getD 0
  | none => objects.getD (table.idxOf a) 0

section
variable {h h' : Heap} {table objects : List ℕ}

theorem dec_encAddr (hlen : table.length ≤ 2 ^ 32) {a : ℕ}
    (ha : single h a = none → a ∈ table) (e : Bool) :
    dec objects h' (encAddr h table a e) = placed h table objects h' a ||| e.toNat := by
  unfold encAddr placed
  cases hs : single h a with
  | none =>
    have hlt := List.idxOf_lt_length_iff.2 (ha hs)
    show objects.getD (table.idxOf a % 2 ^ 32) 0 ||| e.toNat = _
    rw [Nat.mod_eq_of_lt (lt_of_lt_of_le hlt hlen)]
  | some s => cases s <;> rfl

theorem toNat_odd (v : ℕ) : (decide (v % 2 = 1)).toNat = v % 2 := by
  rcases Nat.mod_two_eq_zero_or_one v with hv | hv <;> simp [hv]

theorem dec_enc (hlen : table.length ≤ 2 ^ 32) {kind : WordKind} {v : ℕ}
    (ha : ∀ a ∈ (ref? h kind v).toList, single h a = none → a ∈ table) :
    dec objects h' (enc h table kind v) = renameWord h (placed h table objects h') kind v := by
  unfold enc renameWord
  cases hr : ref? h kind v with
  | none => rfl
  | some a =>
    rw [hr] at ha
    simp only
    rw [dec_encAddr hlen (ha a (by simp)), toNat_odd]

theorem map_dec_encFrom (hlen : table.length ≤ 2 ^ 32) {kindAt : ℕ → WordKind} {i : ℕ} {vs : List ℕ}
    (ha : ∀ a ∈ refsFrom h kindAt i vs, single h a = none → a ∈ table) :
    (encFrom h table kindAt i vs).map (dec objects h') =
      renameFrom h (placed h table objects h') kindAt i vs := by
  induction vs generalizing i with
  | nil => rfl
  | cons v vs ih =>
    rw [encFrom, renameFrom, List.map_cons, ih fun a hm ↦ ha a (List.mem_append_right _ hm),
      dec_enc hlen fun a hm ↦ ha a (List.mem_append_left _ hm)]

theorem memberOf_encAddr (hlen : table.length ≤ 2 ^ 32) {a : ℕ}
    (ha : single h a = none → a ∈ table) (e : Bool) :
    memberOf (encAddr h table a e) (dec objects h' (encAddr h table a e)) =
      if single h a = none ∧ e = false then .object (placed h table objects h' a)
      else .value (placed h table objects h' a ||| e.toNat) := by
  rw [dec_encAddr hlen ha]
  unfold encAddr
  cases hs : single h a with
  | none =>
    cases e with
    | false => simp [memberOf]
    | true => simp [memberOf]
  | some s => cases s <;> simp [memberOf]

theorem memberOf_encMember (hlen : table.length ≤ 2 ^ 32) {m : Member}
    (ha : ∀ a ∈ memberRefs h m, single h a = none → a ∈ table) :
    memberOf (encMember h table m) (dec objects h' (encMember h table m)) =
      renameMember h (placed h table objects h') m := by
  cases m with
  | value v =>
    rw [memberRefs] at ha
    cases hr : ref? h .unknown v with
    | none =>
      simp only [encMember, renameMember, enc, hr]
      rfl
    | some a =>
      rw [hr] at ha
      simp only [encMember, renameMember, enc, hr]
      rw [memberOf_encAddr hlen (ha a (by simp)), toNat_odd]
      have hiff : (single h a = none ∧ decide (v % 2 = 1) = false) ↔
          (single h a = none ∧ v % 2 = 0) := by
        rw [decide_eq_false_iff_not]
        exact and_congr_right fun _ ↦ Nat.mod_two_ne_one
      exact if_congr hiff rfl rfl
  | object a =>
    by_cases hs : (h.find a).isSome
    · rw [memberRefs, if_pos hs] at ha
      simp only [encMember, renameMember, if_pos hs]
      rw [memberOf_encAddr hlen (ha a (by simp))]
      simp
    · simp only [encMember, renameMember, if_neg hs]
      rfl

/-- **An object comes back renamed.** -/
theorem build_encObj (hlen : table.length ≤ 2 ^ 32) {o : Obj} (hsup : unsupported o = none)
    (htyped : ∀ typeId, o ≠ .instance typeId none)
    (ha : ∀ a ∈ o.refs h, single h a = none → a ∈ table) :
    (encObj h table o).build ((encObj h table o).words.map (dec objects h')) =
      o.rename h (placed h table objects h') := by
  cases o with
  | string s => rfl
  | bytes b => rfl
  | array pointer ws => exact congrArg _ (map_dec_encFrom hlen ha)
  | tuple kinds ws => exact congrArg _ (map_dec_encFrom hlen ha)
  | enum tag typeId kinds ws => exact congrArg _ (map_dec_encFrom hlen ha)
  | «instance» typeId ws =>
    cases ws with
    | none => exact absurd rfl (htyped typeId)
    | some ws => exact congrArg (fun x ↦ Obj.instance typeId (some x)) (map_dec_encFrom hlen ha)
  | boxed tag m => exact congrArg _ (memberOf_encMember hlen ha)
  | other what => cases what <;> cases hsup

/-! ### Singletons -/

theorem single?_encAddr {a : ℕ} {s : Single} (hs : single h a = some s) (e : Bool) :
    (encAddr h table a e).single? = some s := by
  unfold encAddr
  rw [hs]
  cases s <;> rfl

theorem single?_enc {kind : WordKind} {v a : ℕ} (hr : ref? h kind v = some a) {s : Single}
    (hs : single h a = some s) : (enc h table kind v).single? = some s := by
  unfold enc
  rw [hr]
  exact single?_encAddr hs _

theorem length_encFrom (kindAt : ℕ → WordKind) (i : ℕ) (vs : List ℕ) :
    (encFrom h table kindAt i vs).length = vs.length := by
  induction vs generalizing i with
  | nil => rfl
  | cons v vs ih => rw [encFrom, List.length_cons, List.length_cons, ih]

theorem exists_mem_encFrom {kindAt : ℕ → WordKind} {i : ℕ} {vs : List ℕ} {a : ℕ}
    (ha : a ∈ refsFrom h kindAt i vs) {s : Single} (hs : single h a = some s) :
    ∃ w ∈ encFrom h table kindAt i vs, w.single? = some s := by
  induction vs generalizing i with
  | nil => cases ha
  | cons v vs ih =>
    rcases List.mem_append.1 ha with ha | ha
    · exact ⟨_, List.mem_cons_self, single?_enc (Option.mem_toList.1 ha) hs⟩
    · obtain ⟨w, hw, hsw⟩ := ih ha
      exact ⟨w, List.mem_cons_of_mem _ hw, hsw⟩

theorem exists_mem_words {o : Obj} {a : ℕ} (ha : a ∈ o.refs h) {s : Single}
    (hs : single h a = some s) : ∃ w ∈ (encObj h table o).words, w.single? = some s := by
  unfold Obj.refs at ha
  split at ha
  · exact exists_mem_encFrom ha hs
  · exact exists_mem_encFrom ha hs
  · exact exists_mem_encFrom ha hs
  · exact exists_mem_encFrom ha hs
  · rename_i tag m
    refine ⟨encMember h table m, List.mem_singleton_self _, ?_⟩
    cases m with
    | value v => exact single?_enc (Option.mem_toList.1 ha) hs
    | object b =>
      by_cases hb : (h.find b).isSome
      · rw [memberRefs, if_pos hb, List.mem_singleton] at ha
        subst ha
        rw [encMember, if_pos hb]
        exact single?_encAddr hs _
      · rw [memberRefs, if_neg hb] at ha
        cases ha
  · cases ha

/-! ### The roots -/

theorem zip_encFrom {kindAt : ℕ → WordKind} {i : ℕ} {roots : List SnapRoot}
    (hk : ∀ j r, roots[j]? = some r → kindAt (i + j) = r.kind) :
    (roots.map SnapRoot.slot).zip (encFrom h table kindAt i (roots.map SnapRoot.value)) =
      roots.map fun r ↦ (r.slot, enc h table r.kind r.value) := by
  induction roots generalizing i with
  | nil => rfl
  | cons r roots ih =>
    rw [List.map_cons, List.map_cons, encFrom, List.zip_cons_cons, List.map_cons,
      ih fun j s hs ↦ ?_, ← hk 0 r rfl]
    · rfl
    · rw [Nat.add_assoc, Nat.add_comm 1 j]
      exact hk (j + 1) s hs

theorem refsFrom_roots {kindAt : ℕ → WordKind} {i : ℕ} {roots : List SnapRoot}
    (hk : ∀ j r, roots[j]? = some r → kindAt (i + j) = r.kind) :
    refsFrom h kindAt i (roots.map SnapRoot.value) =
      roots.flatMap fun r ↦ (ref? h r.kind r.value).toList := by
  induction roots generalizing i with
  | nil => rfl
  | cons r roots ih =>
    rw [List.map_cons, refsFrom, List.flatMap_cons, ih fun j s hs ↦ ?_, ← hk 0 r rfl]
    · rfl
    · rw [Nat.add_assoc, Nat.add_comm 1 j]
      exact hk (j + 1) s hs

theorem rootKind_of_getElem? {roots : List SnapRoot} (j : ℕ) (r : SnapRoot) (hj : roots[j]? = some r) :
    rootKind roots (0 + j) = r.kind := by
  rw [Nat.zero_add, rootKind, hj]
  rfl

theorem reaches_of_root {roots : List SnapRoot} {r : SnapRoot} (hr : r ∈ roots) {a : ℕ}
    (ha : ref? h r.kind r.value = some a) : Reaches h roots a := by
  refine .root ?_
  rw [rootRefs, refsFrom_roots rootKind_of_getElem?]
  exact List.mem_flatMap.2 ⟨r, hr, Option.mem_toList.2 ha⟩

theorem lor_bit {a e : ℕ} (ha : a % 2 = 0) (he : e < 2) : a ||| e = a + e := by
  have hor := Nat.two_pow_add_eq_or_of_lt (i := 1) he (a / 2)
  rw [show 2 ^ 1 * (a / 2) = a by omega] at hor
  exact hor.symm

end

/-- A place in a list without repetitions. -/
theorem getElem?_inj {l : List ℕ} (hl : l.Nodup) {i j a : ℕ} (hi : l[i]? = some a)
    (hj : l[j]? = some a) : i = j := by
  obtain ⟨hilt, hia⟩ := List.getElem?_eq_some_iff.1 hi
  obtain ⟨hjlt, hja⟩ := List.getElem?_eq_some_iff.1 hj
  exact (List.Nodup.getElem_inj_iff hl).1 (hia.trans hja.symm)

section
variable {addr : ℕ → ℕ} {h g : Heap} {roots : List SnapRoot} {snap : HeapSnapshot}
  {table objects : List ℕ} {g' : Heap}

/-- The shared objects that the roots reach are there. -/
theorem shared_of_reaches (ht : Tabled h roots snap table) (hr : Restored addr g snap objects g')
    {a : ℕ} (ha : Reaches h roots a) {s : Single} (hs : single h a = some s) :
    ∃ c, g'.shared s = some c := by
  rw [← Option.isSome_iff_exists]
  cases ha with
  | root ha =>
    obtain ⟨w, hw, hsw⟩ : ∃ w ∈ encFrom h table (rootKind roots) 0 (roots.map SnapRoot.value),
      w.single? = some s := exists_mem_encFrom ha hs
    obtain ⟨i, hi⟩ := List.mem_iff_getElem?.1 hw
    have hlt : i < (roots.map SnapRoot.slot).length := by
      have := (List.getElem?_eq_some_iff.1 hi).1
      rw [length_encFrom, List.length_map] at this
      rwa [List.length_map]
    have hmem : ((roots.map SnapRoot.slot)[i], w) ∈ snap.statics := by
      rw [ht.statics]
      exact List.mem_of_getElem? (List.getElem?_zip_eq_some.2 ⟨List.getElem?_eq_getElem hlt, hi⟩)
    exact hr.roots _ hmem s hsw
  | @step b o _ hb ho ha =>
    have hsingle : single h b = none := by
      cases hsb : single h b with
      | none => rfl
      | some t =>
        rw [single, ho, Option.bind_some] at hsb
        rw [refs_of_single hsb] at ha
        cases ha
    obtain ⟨i, hi⟩ := List.mem_iff_getElem?.1 ((ht.mem b).2 ⟨hb, hsingle⟩)
    have hobj := ht.objects i
    rw [hi, Option.bind_some, ho, Option.map_some] at hobj
    obtain ⟨w, hw, hsw⟩ : ∃ w ∈ (encObj h table o).words, w.single? = some s :=
      exists_mem_words ha hs
    exact hr.singles _ (List.mem_of_getElem? hobj) w hw s hsw

/-- The new places of what the roots reach. -/
theorem placed_spec (ht : Tabled h roots snap table) (hr : Restored addr g snap objects g') {a : ℕ}
    (ha : Reaches h roots a) :
    (∃ s, single h a = some s ∧ g'.shared s = some (placed h table objects g' a)) ∨
      (single h a = none ∧ a ∈ table ∧ objects[table.idxOf a]? = some (placed h table objects g' a)) := by
  unfold placed
  cases hs : single h a with
  | some s =>
    obtain ⟨c, hc⟩ := shared_of_reaches ht hr ha hs
    exact .inl ⟨s, rfl, by simp only [hc, Option.getD_some]⟩
  | none =>
    have hmem := (ht.mem a).2 ⟨ha, hs⟩
    have hlt : table.idxOf a < objects.length := by
      rw [hr.length, ht.length]
      exact List.idxOf_lt_length_iff.2 hmem
    refine .inr ⟨rfl, hmem, ?_⟩
    rw [List.getD_eq_getElem?_getD, List.getElem?_eq_getElem hlt, Option.getD_some]

/-- Different objects are placed apart, but for singletons of a kind. -/
theorem placed_eq_iff (ht : Tabled h roots snap table) (hr : Restored addr g snap objects g')
    {a b : ℕ} (ha : Reaches h roots a) (hb : Reaches h roots b) :
    placed h table objects g' a = placed h table objects g' b ↔
      a = b ∨ ∃ s, single h a = some s ∧ single h b = some s := by
  constructor
  · intro heq
    rcases placed_spec ht hr ha with ⟨s, hs, hc⟩ | ⟨hs, hma, hia⟩
    · rcases placed_spec ht hr hb with ⟨t, ht', hd⟩ | ⟨-, -, hib⟩
      · -- one address holds one object
        have hobj := hr.ready.shared s _ hc
        rw [heq, hr.ready.shared t _ hd, Option.some.injEq] at hobj
        obtain rfl : s = t := by
          cases s <;> cases t <;> cases hobj <;> rfl
        exact .inr ⟨s, hs, ht'⟩
      · rw [heq] at hc
        exact absurd (List.mem_of_getElem? hib) (hr.apart s _ hc)
    · rcases placed_spec ht hr hb with ⟨t, ht', hd⟩ | ⟨-, hmb, hib⟩
      · rw [← heq] at hd
        exact absurd (List.mem_of_getElem? hia) (hr.apart t _ hd)
      · rw [heq] at hia
        have hidx := getElem?_inj hr.nodup hia hib
        exact .inl ((List.idxOf_inj hma).1 hidx)
  · rintro (rfl | ⟨s, hs, ht'⟩)
    · rfl
    · unfold placed
      rw [hs, ht']

end

/-- **Restoring a captured heap renames its addresses.** For every snapshot of at most `2 ^ 32` objects,
restored into any heap by any allocator, there is a renaming `φ` of the objects the roots reach: roots
and objects come back renamed, different objects at different addresses but for singletons of a kind,
which are the restoring heap's own; two references to objects that are not singletons are equal after
the restore iff they were equal before. The other objects of the restoring heap are as they were. -/
theorem restore_capture {addr : ℕ → ℕ} (halloc : Allocator addr) {h g : Heap} (hg : Ready addr g)
    {roots : List SnapRoot} {fuel : ℕ} {snap : HeapSnapshot}
    (hsnap : captureSnapshot fuel h roots = some (.ok snap)) (hsize : snap.objects.length ≤ 2 ^ 32) :
    ∃ φ : ℕ → ℕ,
      let g' := (restoreSnapshot addr g snap).2
      (restoreSnapshot addr g snap).1 =
        roots.map (fun r ↦ (r.slot, renameWord h φ r.kind r.value)) ∧
      (∀ a o, Reaches h roots a → h.find a = some o →
        g'.find (φ a) = some (match o.single? with | some s => s.obj | none => o.rename h φ)) ∧
      (∀ a b, Reaches h roots a → Reaches h roots b →
        (φ a = φ b ↔ a = b ∨ ∃ s, single h a = some s ∧ single h b = some s)) ∧
      (∀ k v a l w b, ref? h k v = some a → ref? h l w = some b → Reaches h roots a →
        Reaches h roots b → single h a = none →
        (renameWord h φ k v = renameWord h φ l w ↔ v = w)) ∧
      (∀ a, Reaches h roots a → single h a = none → g.find (φ a) = none) ∧
      (∀ c o, g.find c = some o → g'.find c = some o) ∧
      ∀ c o, g'.find c = some o → (g.find c).isSome ∨ (∃ a, Reaches h roots a ∧ φ a = c) ∨
        ∃ s, g'.shared s = some c := by
  obtain ⟨table, ht⟩ := capture_tabled hsnap
  obtain ⟨objects, hr, hstatics⟩ := restore_spec halloc hg snap
  set g' := (restoreSnapshot addr g snap).2 with hg'
  have hlen : table.length ≤ 2 ^ 32 := ht.length ▸ hsize
  have hin : ∀ a, Reaches h roots a → single h a = none → a ∈ table :=
    fun a ha hs ↦ (ht.mem a).2 ⟨ha, hs⟩
  have hobj : ∀ a o, single h a = none → a ∈ table → h.find a = some o →
      g'.find (placed h table objects g' a) = some (o.rename h (placed h table objects g')) := by
    intro a o hs hmem ho
    obtain ⟨hreach, -⟩ := (ht.mem a).1 hmem
    obtain ⟨o', ho', -, hsup⟩ := ht.plain a hmem
    obtain rfl : o = o' := Option.some.inj (ho.symm.trans ho')
    have hi : objects[table.idxOf a]? = some (placed h table objects g' a) := by
      rcases placed_spec ht hr hreach with ⟨s, hs', -⟩ | ⟨-, -, hi⟩
      · rw [hs] at hs'
        cases hs'
      · exact hi
    have hsnap' := ht.objects (table.idxOf a)
    rw [List.getElem?_idxOf hmem, Option.bind_some, ho, Option.map_some] at hsnap'
    rw [hr.built _ _ _ hi hsnap', build_encObj hlen hsup]
    · rintro typeId rfl
      exact ht.typed a hmem typeId ho
    · exact fun b hb hsb ↦ hin b (.step hreach ho hb) hsb
  have heven : ∀ a, Reaches h roots a → placed h table objects g' a % 2 = 0 := by
    intro a ha
    rcases placed_spec ht hr ha with ⟨s, -, hc⟩ | ⟨hs, hmem, -⟩
    · exact (hr.ready.valid _ _ (hr.ready.shared s _ hc)).1
    · obtain ⟨o, ho⟩ := Option.isSome_iff_exists.1 ha.isSome
      exact (hr.ready.valid _ _ (hobj a o hs hmem ho)).1
  refine ⟨placed h table objects g', ?_, fun a o ha ho ↦ ?_, fun a b ↦ placed_eq_iff ht hr,
    fun k v a l w b hv hw ha hb hs ↦ ?_, fun a ha hs ↦ ?_, hr.old, fun c o hc ↦ ?_⟩
  · rw [hstatics, ht.statics, zip_encFrom rootKind_of_getElem?, List.map_map]
    refine List.map_congr_left fun r hmem ↦ ?_
    show (r.slot, dec objects g' (enc h table r.kind r.value)) = _
    rw [dec_enc hlen fun a ha hs ↦ hin a (reaches_of_root hmem (Option.mem_toList.1 ha)) hs]
  · rcases placed_spec ht hr ha with ⟨s, hs, hc⟩ | ⟨hs, hmem, -⟩
    · rw [single, ho, Option.bind_some] at hs
      rw [hs, hr.ready.shared s _ hc]
    · rw [hobj a o hs hmem ho]
      rw [single, ho, Option.bind_some] at hs
      rw [hs]
  · -- bit 0 is free in the new addresses
    have hva := (isSome_of_ref? hv).1
    have hwb := (isSome_of_ref? hw).1
    simp only [renameWord, hv, hw]
    rw [lor_bit (heven a ha) (Nat.mod_lt v (by omega)), lor_bit (heven b hb) (Nat.mod_lt w (by omega))]
    have hea := heven a ha
    have heb := heven b hb
    constructor
    · intro heq
      have hplaced : placed h table objects g' a = placed h table objects g' b := by omega
      rcases (placed_eq_iff ht hr ha hb).1 hplaced with hab | ⟨s, hs', -⟩
      · simp only [heapAddr] at hva hwb
        omega
      · rw [hs] at hs'
        cases hs'
    · rintro rfl
      rw [hva, hwb]
  · rcases placed_spec ht hr ha with ⟨s, hs', -⟩ | ⟨-, -, hi⟩
    · rw [hs] at hs'
      cases hs'
    · exact hr.free _ (List.mem_of_getElem? hi)
  · rcases hr.new c o hc with hc | hmem | hs
    · exact .inl hc
    · obtain ⟨i, hi⟩ := List.mem_iff_getElem?.1 hmem
      have hlt : i < table.length := by
        rw [← ht.length, ← hr.length]
        exact (List.getElem?_eq_some_iff.1 hi).1
      have hti : table[i] ∈ table := List.getElem_mem hlt
      obtain ⟨hreach, hs⟩ := (ht.mem _).1 hti
      refine .inr (.inl ⟨table[i], hreach, ?_⟩)
      rcases placed_spec ht hr hreach with ⟨s, hs', -⟩ | ⟨-, -, hi'⟩
      · rw [hs] at hs'
        cases hs'
      · rw [ht.nodup.idxOf_getElem, hi, Option.some.injEq] at hi'
        exact hi'.symm
    · exact .inr (.inr hs)

/-! ### A cycle -/

/-- Addresses one after another. -/
theorem allocator_even : Allocator fun k ↦ 2 * (k + 1) :=
  ⟨fun i j (hij : 2 * (i + 1) = 2 * (j + 1)) ↦ by omega, fun k ↦ by omega, fun k ↦ by omega⟩

/-- A heap with these objects and no shared ones. -/
def Heap.ofObjs (objs : AList fun _ : ℕ ↦ Obj) : Heap := ⟨objs, fun _ ↦ [], ∅, none, 0⟩

theorem ready_empty (addr : ℕ → ℕ) : Ready addr (.ofObjs ∅) := by
  refine ⟨fun _ _ ↦ rfl, fun a o ho ↦ ?_, fun s a hs ↦ ?_⟩
  · cases ho
  · cases s <;> cases hs

/-- An array that holds itself comes back holding itself. -/
theorem restore_capture_cycle : ∃ φ : ℕ → ℕ,
    let h := Heap.ofObjs (AList.singleton 6 (.array true [6]))
    let snap := (⟨[.array true [.ref 0 false]], [(3, .ref 0 true)]⟩ : HeapSnapshot)
    captureSnapshot 2 h [⟨3, 7, .pointer⟩] = some (.ok snap) ∧
      (restoreSnapshot (fun k ↦ 2 * (k + 1)) (.ofObjs ∅) snap).1 = [(3, φ 6 ||| 1)] ∧
      (restoreSnapshot (fun k ↦ 2 * (k + 1)) (.ofObjs ∅) snap).2.find (φ 6) =
        some (.array true [φ 6]) := by
  have hsnap : captureSnapshot 2 (.ofObjs (AList.singleton 6 (.array true [6]))) [⟨3, 7, .pointer⟩] =
      some (.ok ⟨[.array true [.ref 0 false]], [(3, .ref 0 true)]⟩) := by decide
  obtain ⟨φ, hstatics, hobj, -⟩ := restore_capture allocator_even (ready_empty _) hsnap (by decide)
  refine ⟨φ, hsnap, hstatics, ?_⟩
  have h6 := hobj 6 (.array true [6]) (.root (by decide)) rfl
  have hr : ref? (.ofObjs (AList.singleton 6 (.array true [6]))) (elemKind true) 6 = some 6 := by
    decide
  simp only [Obj.single?, Obj.rename, renameFrom, renameWord, hr] at h6
  rwa [show φ 6 ||| 6 % 2 = φ 6 from Nat.or_zero _] at h6

/-! ### What is not kept -/

/-- Objects that a capture refuses. -/
def Obj.refused : Obj → Prop
  | .other _ => True
  | .instance _ none => True
  | _ => False

section
variable {h : Heap} (hall : ∀ a o, h.find a = some o → ¬o.refused)

include hall

theorem objectWord_ok {a : ℕ} {o : Obj} (ho : h.find a = some o) (f : Found) (e : Bool)
    (parent : Parent) : ∃ r, objectWord f a o e parent = .ok r := by
  have hsup : unsupported o = none := by
    have := hall a o ho
    cases o with
    | other what => exact absurd trivial this
    | _ => rfl
  unfold objectWord
  split
  · exact ⟨_, rfl⟩
  · exact ⟨_, rfl⟩
  · rw [hsup]
    simp only
    split
    · exact ⟨_, rfl⟩
    · exact ⟨_, rfl⟩

theorem word_ok (f : Found) (v : ℕ) (kind : WordKind) (parent : Parent) :
    ∃ r, word h f v kind parent = .ok r := by
  unfold word
  split
  · exact ⟨_, rfl⟩
  split
  · exact ⟨_, rfl⟩
  split
  · exact ⟨_, rfl⟩
  · rename_i ho
    exact objectWord_ok hall ho _ _ _

theorem words_ok (kindAt : ℕ → WordKind) (parent : ℕ → Parent) (i : ℕ) (vs : List ℕ) (f : Found) :
    ∃ r, words h kindAt parent i vs f = .ok r := by
  induction vs generalizing i f with
  | nil => exact ⟨_, rfl⟩
  | cons v vs ih =>
    obtain ⟨⟨w, f₁⟩, hw⟩ := word_ok hall f v (kindAt i) (parent i)
    obtain ⟨⟨ws, f₂⟩, hws⟩ := ih (i + 1) f₁
    exact ⟨(w :: ws, f₂), by rw [words, hw]; simp only [hws]⟩

theorem memberWord_ok (f : Found) (m : Member) (parent : Parent) :
    ∃ r, memberWord h f m parent = .ok r := by
  cases m with
  | value v => exact word_ok hall f v _ parent
  | object a =>
    cases ho : h.find a with
    | none => exact ⟨_, by rw [memberWord, ho]⟩
    | some o =>
      rw [memberWord, ho]
      exact objectWord_ok hall ho _ _ _

theorem object_ok {a : ℕ} {o : Obj} (ho : h.find a = some o) (f : Found) (i : ℕ) :
    ∃ r, object h f i o = .ok r := by
  have hno := hall a o ho
  have hmap : ∀ {α β : Type} {x : Except SnapshotError α} {g : α → β}, (∃ r, x = .ok r) →
      ∃ r, x.map g = .ok r := by
    rintro α β x g ⟨r, rfl⟩
    exact ⟨_, rfl⟩
  unfold object
  split
  · exact ⟨_, rfl⟩
  · exact ⟨_, rfl⟩
  · exact hmap (words_ok hall _ _ _ _ _)
  · exact hmap (words_ok hall _ _ _ _ _)
  · exact hmap (words_ok hall _ _ _ _ _)
  · exact absurd trivial hno
  · exact hmap (words_ok hall _ _ _ _ _)
  · exact hmap (memberWord_ok hall _ _ _)
  · exact absurd trivial hno

/-- A capture fails only on an object it refuses. -/
theorem capture_ok (roots : List SnapRoot) :
    ∃ fuel snap, captureSnapshot fuel h roots = some (.ok snap) := by
  have hloop : ∀ n f objects e, captureLoop h n f objects ≠ some (.error e) := by
    intro n
    induction n with
    | zero => exact fun _ _ _ hrun ↦ by cases hrun
    | succ n ih =>
      intro f objects e hrun
      rw [captureLoop] at hrun
      split at hrun
      · cases hrun
      split at hrun
      · cases hrun
      rename_i o ho
      obtain ⟨r, hr⟩ := object_ok hall ho f objects.length
      rw [hr] at hrun
      exact ih _ _ _ hrun
  obtain ⟨r, hr⟩ := capture_ends h roots
  refine ⟨h.objs.keys.length + 1, ?_⟩
  have hrun := hr _ (Nat.lt_succ_self _)
  unfold captureSnapshot at hrun ⊢
  obtain ⟨⟨ws, f⟩, hws⟩ := words_ok hall (rootKind roots) .root 0 (roots.map SnapRoot.value) []
  rw [hws] at hrun ⊢
  simp only at hrun ⊢
  obtain ⟨t, ht, -⟩ := Option.map_eq_some_iff.1 hrun
  cases t with
  | error e => exact absurd ht (hloop _ _ _ e)
  | ok t => exact ⟨_, by rw [ht]; rfl⟩

end

/-- `n` strings in a row. -/
def Heap.strings (n : ℕ) : Heap :=
  .ofObjs ⟨(List.range n).map fun i ↦ ⟨2 * (i + 1), .string ""⟩, by
    rw [List.NodupKeys, List.keys, List.map_map]
    exact List.nodup_range.map fun i j (hij : 2 * (i + 1) = 2 * (j + 1)) ↦ by omega⟩

def stringRoots (n : ℕ) : List SnapRoot := (List.range n).map fun i ↦ ⟨i, 2 * (i + 1), .pointer⟩

theorem find_strings {n a : ℕ} {o : Obj} :
    (Heap.strings n).find a = some o ↔ o = .string "" ∧ ∃ i < n, a = 2 * (i + 1) := by
  show o ∈ AList.lookup a (Heap.strings n).objs ↔ _
  rw [AList.mem_lookup_iff]
  simp only [Heap.strings, Heap.ofObjs, List.mem_map, List.mem_range, Sigma.mk.injEq, heq_eq_eq]
  constructor
  · rintro ⟨i, hi, rfl, rfl⟩
    exact ⟨rfl, i, hi, rfl⟩
  · rintro ⟨rfl, i, hi, rfl⟩
    exact ⟨i, hi, rfl, rfl⟩

theorem ref?_strings {n i : ℕ} (hi : i < n) :
    ref? (.strings n) .pointer (2 * (i + 1)) = some (2 * (i + 1)) := by
  have haddr : heapAddr (2 * (i + 1)) = 2 * (i + 1) := by
    unfold heapAddr
    omega
  have hfind := find_strings.2 ⟨rfl, i, hi, rfl⟩
  rw [ref?, if_neg (by decide), haddr, if_neg (by omega), hfind]
  rfl

/-- **References to different objects may be equal after a restore**: of more than `2 ^ 32` objects, two
have one number. -/
theorem restore_wraps {n : ℕ} (hn : 2 ^ 32 < n) : ∃ fuel snap,
    captureSnapshot fuel (.strings n) (stringRoots n) = some (.ok snap) ∧
      ∀ addr g, Allocator addr → Ready addr g → ∃ i j w, i < n ∧ j < n ∧ i ≠ j ∧
        (i, w) ∈ (restoreSnapshot addr g snap).1 ∧ (j, w) ∈ (restoreSnapshot addr g snap).1 := by
  have hplain : ∀ a o, (Heap.strings n).find a = some o → ¬o.refused := by
    rintro a o ho
    rw [(find_strings.1 ho).1]
    exact id
  have hsingle : ∀ a, single (.strings n) a = none := by
    intro a
    unfold single
    cases ho : (Heap.strings n).find a with
    | none => rfl
    | some o =>
      rw [(find_strings.1 ho).1]
      rfl
  obtain ⟨fuel, snap, hsnap⟩ := capture_ok hplain (stringRoots n)
  refine ⟨fuel, snap, hsnap, fun addr g ha hg ↦ ?_⟩
  obtain ⟨table, ht⟩ := capture_tabled hsnap
  obtain ⟨objects, hr, hstatics⟩ := restore_spec ha hg snap
  have hroot : ∀ i < n, (⟨i, 2 * (i + 1), .pointer⟩ : SnapRoot) ∈ stringRoots n :=
    fun i hi ↦ List.mem_map.2 ⟨i, List.mem_range.2 hi, rfl⟩
  -- the table holds the `n` strings
  have hlen : n ≤ table.length := by
    have hsub : (List.range n).map (fun i ↦ 2 * (i + 1)) ⊆ table := by
      intro a ha
      obtain ⟨i, hi, rfl⟩ := List.mem_map.1 ha
      have hi := List.mem_range.1 hi
      exact (ht.mem _).2 ⟨reaches_of_root (hroot i hi) (ref?_strings hi), hsingle _⟩
    have hnodup : ((List.range n).map fun i ↦ 2 * (i + 1)).Nodup :=
      List.nodup_range.map fun i j (hij : 2 * (i + 1) = 2 * (j + 1)) ↦ by omega
    have hle := (List.subperm_of_subset hnodup hsub).length_le
    rwa [List.length_map, List.length_range] at hle
  have hat : ∀ k (hk : k < table.length), ∃ i < n, table[k] = 2 * (i + 1) ∧
      (i, objects.getD (k % 2 ^ 32) 0 ||| 0) ∈ (restoreSnapshot addr g snap).1 := by
    intro k hk
    obtain ⟨o, ho⟩ := Option.isSome_iff_exists.1 ((ht.mem _).1 (List.getElem_mem hk)).1.isSome
    obtain ⟨-, i, hi, hki⟩ := find_strings.1 ho
    refine ⟨i, hi, hki, ?_⟩
    rw [hstatics, ht.statics, zip_encFrom rootKind_of_getElem?, List.map_map]
    refine List.mem_map.2 ⟨_, hroot i hi, ?_⟩
    show (i, dec _ _ (enc _ _ _ _)) = _
    rw [enc, ref?_strings hi]
    show (i, dec _ _ (encAddr _ _ _ _)) = _
    rw [encAddr, hsingle, ← hki, ht.nodup.idxOf_getElem]
    have hbit : decide (table[k] % 2 = 1) = false := by
      rw [hki, decide_eq_false_iff_not]
      omega
    rw [hbit]
    rfl
  obtain ⟨i, hi, hti, hmi⟩ := hat 0 (by omega)
  obtain ⟨j, hj, htj, hmj⟩ := hat (2 ^ 32) (by omega)
  refine ⟨i, j, _, hi, hj, ?_, hmi, hmj⟩
  rintro rfl
  have hidx := (List.Nodup.getElem_inj_iff ht.nodup).1 (hti.trans htj.symm)
  omega

/-- Unit variants become one, without type ids, and more than `2 ^ 32` objects are mixed up. -/
theorem restore_merges :
    (let h := Heap.ofObjs ((AList.singleton 2 (.enum 1 5 0 [])).insert 4 (.enum 1 6 0 []))
      let snap := (⟨[], [(0, .unitEnum 1 false), (1, .unitEnum 1 false)]⟩ : HeapSnapshot)
      let g' := restoreSnapshot (fun k ↦ 2 * (k + 1)) (.ofObjs ∅) snap
      captureSnapshot 1 h [⟨0, 2, .pointer⟩, ⟨1, 4, .pointer⟩] = some (.ok snap) ∧
        g'.1 = [(0, 2), (1, 2)] ∧ g'.2.find 2 = some (.enum 1 0 0 [])) ∧
      ∃ fuel snap, captureSnapshot fuel (.strings (2 ^ 32 + 1)) (stringRoots (2 ^ 32 + 1)) =
          some (.ok snap) ∧
        ∀ addr g, Allocator addr → Ready addr g → ∃ i j w, i < 2 ^ 32 + 1 ∧ j < 2 ^ 32 + 1 ∧ i ≠ j ∧
          (i, w) ∈ (restoreSnapshot addr g snap).1 ∧ (j, w) ∈ (restoreSnapshot addr g snap).1 :=
  ⟨by decide, restore_wraps (Nat.lt_succ_self _)⟩

end CoilLang.Machine.Snapshot
