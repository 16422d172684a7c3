import CoilLang.Machine.GcCycle

/-!
# The steps of a program

The machine represents an ideal heap when its heap does (`Embeds`), its roots are the roots of the ideal heap with
addresses for references, and the open cycle is where it should be: while marking, what the program holds is marked and
**no marked object refers to an unmarked one**. There is no write barrier: what the program can store it holds
already. A step of the program keeps this and shows the program the same (`Represents.exec`).
-/

namespace CoilLang.Gc

open Machine.Snapshot (heapAddr)

/-- What the machine is doing agrees with the phase and the queue of finalizers. -/
def Mode.Agrees (ρ : ℕ → ℕ) (queue : List ℕ) (phase : GcPhase) : Mode → Prop
  | .running => phase ≠ .marking ∧ queue = []
  | .marking q => phase = .marking ∧ q = queue.map ρ
  | .collecting q => phase = .idle ∧ q = queue.map ρ

structure Represents (A : Ideal) (V : Vm) (ρ : ℕ → ℕ) (L : ℕ → Prop) : Prop where
  embeds : Embeds A V.heap ρ L
  roots : V.roots = A.roots.map (IWord.bits ρ)
  agrees : V.mode.Agrees ρ A.queue V.heap.phase
  white : V.mode = .running → V.heap.phase = .idle → ∀ a, V.heap.isMarked a = false
  shaded : V.heap.phase = .marking → Shaded A V.heap ρ L
  strong : V.heap.phase = .marking → ∀ id, A.Strong id → V.heap.isMarked (ρ id) = true

/-- A program may come to hold the object. -/
def Holdable (h : Heap) (ρ : ℕ → ℕ) (L : ℕ → Prop) (id : ℕ) : Prop :=
  L id ∧ h.Spared (ρ id) ∧ (h.phase = .marking → h.isMarked (ρ id) = true)

/-- A program may come to hold the word. -/
def HoldableWord (h : Heap) (ρ : ℕ → ℕ) (L : ℕ → Prop) (w : IWord) : Prop :=
  ∀ id err, w = .ref id err → Holdable h ρ L id

theorem Heap.spared_iff {h : Heap} {a : ℕ} :
    h.Spared a ↔ (h.Ahead a → (h.cells a).any (fun c ↦ c.marked || c.fresh) = true) := by
  refine imp_congr_right fun _ ↦ ?_
  cases h.cells a <;> simp

variable {A : Ideal} {V : Vm} {ρ : ℕ → ℕ} {L : ℕ → Prop} {id : ℕ}

namespace Ideal

/-! ### Writing an object of the ideal heap -/

theorem objs_setObj (A : Ideal) (id : ℕ) (new : Object IWord) (id' : ℕ) :
    (A.setObj id new).objs id' = if id' = id then some new else A.objs id' :=
  Function.update_apply _ _ _ _

theorem Child.of_setObj {new : Object IWord} {id₁ id₂ : ℕ} (h : (A.setObj id new).Child id₁ id₂) :
    (∃ err, .ref id₂ err ∈ new.words) ∨ A.Child id₁ id₂ := by
  obtain ⟨o, err, ho, hw⟩ := h
  rw [objs_setObj] at ho
  split at ho
  · cases ho
    exact .inl ⟨err, hw⟩
  · exact .inr ⟨o, err, ho, hw⟩

theorem WeakChild.of_setObj {new : Object IWord} (hweak : ∀ target b, new ≠ .weak target b) {id₁ id₂ : ℕ}
    (h : (A.setObj id new).WeakChild id₁ id₂) : A.WeakChild id₁ id₂ := by
  obtain ⟨err, ho⟩ := h
  rw [objs_setObj] at ho
  split at ho
  · exact absurd (Option.some.inj ho) (hweak _ _)
  · exact ⟨err, ho⟩

/-- Strings are not written over. -/
theorem string_setObj {old new : Object IWord} (hold : A.objs id = some old) (hstring : ∀ s, old ≠ .string s) (id' : ℕ)
    (s : String) (hs : A.objs id' = some (.string s)) : (A.setObj id new).objs id' = some (.string s) := by
  rw [objs_setObj]
  split
  · rename_i heq
    rw [heq, hold] at hs
    exact absurd (Option.some.inj hs) (hstring s)
  · exact hs

end Ideal

namespace Represents

/-! ### What a program holds -/

theorem holdable (hR : Represents A V ρ L) (hid : A.Strong id) : Holdable V.heap ρ L id := by
  obtain ⟨hlive, hsp⟩ := hR.embeds.held id (.inl hid)
  exact ⟨hlive, hsp, fun hphase ↦ hR.strong hphase id hid⟩

theorem holdable_child (hR : Represents A V ρ L) (hid : Holdable V.heap ρ L id) {id' : ℕ} (hchild : A.Child id id') :
    Holdable V.heap ρ L id' := by
  obtain ⟨hlive, hsp, hmark⟩ := hid
  obtain ⟨hlive', hsp'⟩ := hR.embeds.closed id id' ⟨hlive, hsp⟩ (.inl hchild)
  exact ⟨hlive', hsp', fun hphase ↦ hR.shaded hphase id id' hlive (hmark hphase) hchild⟩

theorem holdable_root (hR : Represents A V ρ L) {w : IWord} (hw : w ∈ A.roots) : HoldableWord V.heap ρ L w := by
  rintro id err rfl
  exact hR.holdable (.inl ⟨err, hw⟩)

theorem word_cases (A : Ideal) (i : ℕ) : A.word i = .imm 0 ∨ A.word i ∈ A.roots := by
  rw [Ideal.word, List.getD_eq_getElem?_getD]
  cases hi : A.roots[i]? with
  | none => exact .inl rfl
  | some w => exact .inr (List.mem_of_getElem? hi)

theorem holdable_word (hR : Represents A V ρ L) (i : ℕ) : HoldableWord V.heap ρ L (A.word i) := by
  rcases word_cases A i with hzero | hmem
  · rw [hzero]
    exact nofun
  · exact hR.holdable_root hmem

theorem word_eq (hR : Represents A V ρ L) (i : ℕ) : V.word i = (A.word i).bits ρ := by
  rw [Vm.word, hR.roots, Ideal.word, List.getD_eq_getElem?_getD, List.getD_eq_getElem?_getD, List.getElem?_map]
  cases A.roots[i]? <;> rfl

/-- The words of an object that a program may hold. -/
theorem holdable_words (hR : Represents A V ρ L) (hid : Holdable V.heap ρ L id) {o : Object IWord}
    (ho : A.objs id = some o) {w : IWord} (hw : w ∈ o.words) : HoldableWord V.heap ρ L w := by
  rintro id' err rfl
  exact hR.holdable_child hid ⟨o, err, ho, hw⟩

/-- The program holds other words. -/
theorem setRoots (hR : Represents A V ρ L) {ws : List IWord} (hws : ∀ w ∈ ws, HoldableWord V.heap ρ L w) :
    Represents { A with roots := ws } { V with roots := ws.map (IWord.bits ρ) } ρ L := by
  have hstrong : ∀ id, Ideal.Strong { A with roots := ws } id → Holdable V.heap ρ L id := by
    rintro id (⟨err, hroot⟩ | hother)
    · exact hws _ hroot id err rfl
    · exact hR.holdable (.inr hother)
  have hE := hR.embeds
  refine { hR with
    embeds := { hE with held := fun id hid ↦ ?_ }
    roots := rfl
    strong := fun hphase id hid ↦ (hstrong id hid).2.2 hphase }
  rcases hid with hid | hid
  · exact ⟨(hstrong id hid).1, (hstrong id hid).2.1⟩
  · exact hE.held id (.inr hid)

/-- The program holds one more word. -/
theorem push (hR : Represents A V ρ L) {w : IWord} (hw : HoldableWord V.heap ρ L w) :
    Represents (A.push w) (V.push (w.bits ρ)) ρ L := by
  have hall : ∀ w' ∈ A.roots ++ [w], HoldableWord V.heap ρ L w' := by
    intro w' hw'
    rcases List.mem_append.mp hw' with hold | hnew
    · exact hR.holdable_root hold
    · rw [List.mem_singleton.mp hnew]
      exact hw
  have hpush := hR.setRoots hall
  rw [List.map_append, ← hR.roots] at hpush
  exact hpush

/-! ### Writing an object -/

/-- An object is written over: the new one brings in only what the program may hold. -/
theorem setObj (hR : Represents A V ρ L) (hid : Holdable V.heap ρ L id) {old new : Object IWord}
    (hold : A.objs id = some old) {c : Cell} (hc : V.heap.cells (ρ id) = some c) {flag : Bool}
    (hnew : ∀ w ∈ new.words, HoldableWord V.heap ρ L w) (hkinded : A.wellKinded new = true)
    (hstring : ∀ s, old ≠ .string s) (hweak : ∀ target b, new ≠ .weak target b)
    (hflag : flag = false → new.elements?.isSome = true → ∀ w ∈ new.words, w.isRef = false) :
    Represents (A.setObj id new)
      (V.setCell (ρ id) { c with obj := new.map (IWord.bits ρ), mayHoldRefs := flag }) ρ L := by
  have hE := hR.embeds
  have hlive := hid.1
  set h' : Heap := (V.setCell (ρ id) { c with obj := new.map (IWord.bits ρ), mayHoldRefs := flag }).heap with hh'
  have hcells : ∀ a, h'.cells a = if a = ρ id then some { c with obj := new.map (IWord.bits ρ), mayHoldRefs := flag }
      else V.heap.cells a := fun a ↦ Function.update_apply _ _ _ _
  have hsome : ∀ a, (h'.cells a).isSome = (V.heap.cells a).isSome := by
    intro a
    rw [hcells]
    split
    · rename_i ha
      rw [ha, hc]
      rfl
    · rfl
  -- Marks and tags are as before.
  have hheader : ∀ (f : Cell → Bool), (∀ obj mayHoldRefs, f { c with obj, mayHoldRefs } = f c) → ∀ a,
      (h'.cells a).any f = (V.heap.cells a).any f := by
    intro f hf a
    rw [hcells]
    split
    · rename_i ha
      rw [ha, hc]
      exact hf _ _
    · rfl
  have hmarked : ∀ a, h'.isMarked a = V.heap.isMarked a := hheader _ fun _ _ ↦ rfl
  have hspared : ∀ a, h'.Spared a ↔ V.heap.Spared a := by
    intro a
    rw [Heap.spared_iff, Heap.spared_iff, hheader _ fun _ _ ↦ rfl]
    rfl
  have hobjs := A.objs_setObj id new
  have hchild : ∀ {id₁ id₂}, (A.setObj id new).Child id₁ id₂ → Holdable V.heap ρ L id₂ ∨ A.Child id₁ id₂ := by
    intro id₁ id₂ hrefers
    refine hrefers.of_setObj.imp_left ?_
    rintro ⟨err, hw⟩
    exact hnew _ hw id₂ err rfl
  have hkeepsString := @Ideal.string_setObj A id old new hold hstring
  have hkinds : (A.setObj id new).classKinds = A.classKinds := rfl
  have hE' : Embeds (A.setObj id new) h' ρ L := by
    refine { hE with
      ok := hE.ok.congr rfl hsome rfl
      below := fun id' o ho ↦ ?_
      kinded := fun id' o ho ↦ ?_
      texts := fun id' hid' ↦ (hE.texts id' hid').imp (hkeepsString id')
      cell := fun id' hid' ↦ ?_
      onto := fun a ha ↦ hE.onto a (hsome a ▸ ha)
      held := fun id' hid' ↦ ?_
      closed := fun id₁ id₂ hid₁ hrefers ↦ ?_
      weaks := fun id' target hid' ho ↦ ?_
      unswept := fun hphase ↦ ⟨(hE.unswept hphase).1, fun a d hd ↦ ?_⟩
      swept := fun hphase a d hd hnot ↦ ?_ }
    · rw [hobjs] at ho
      split at ho
      · rename_i heq
        cases ho
        subst heq
        refine ⟨hE.lt_next hlive, fun id₂ err hw ↦ hE.lt_next (hnew (.ref id₂ err) ?_ id₂ err rfl).1⟩
        cases new with
        | weak target b => exact absurd rfl (hweak target b)
        | _ => exact hw
      · exact hE.below id' o ho
    · refine Ideal.wellKinded_mono hkinds hkeepsString ?_
      rw [hobjs] at ho
      split at ho
      · cases ho
        exact hkinded
      · exact hE.kinded id' o ho
    · rcases eq_or_ne id' id with rfl | hne
      · exact ⟨new, _, (hobjs id').trans (if_pos rfl), (hcells _).trans (if_pos rfl), rfl, hflag⟩
      · obtain ⟨o, d, ho, hd, hmore⟩ := hE.cell id' hid'
        have hne' : ρ id' ≠ ρ id := fun heq ↦ hne (hE.inj id' id hid' hlive heq)
        exact ⟨o, d, (hobjs id').trans ((if_neg hne).trans ho), (hcells _).trans ((if_neg hne').trans hd), hmore⟩
    · obtain ⟨hlive', hsp⟩ := hE.held id' hid'
      exact ⟨hlive', (hspared _).mpr hsp⟩
    · have hsp := (hspared _).mp hid₁.2
      have hkept : L id₂ ∧ V.heap.Spared (ρ id₂) := by
        rcases hrefers with hrefers | hrefers
        · rcases hchild hrefers with hhold | hrefers
          · exact ⟨hhold.1, hhold.2.1⟩
          · exact hE.closed id₁ id₂ ⟨hid₁.1, hsp⟩ (.inl hrefers)
        · exact hE.closed id₁ id₂ ⟨hid₁.1, hsp⟩ (.inr (hrefers.of_setObj hweak))
      exact ⟨hkept.1, (hspared _).mpr hkept.2⟩
    · rw [hobjs] at ho
      split at ho
      · exact absurd (Option.some.inj ho) (hweak _ _)
      · exact hE.weaks id' target hid' ho
    · rw [hcells] at hd
      split at hd
      · cases hd
        exact (hE.unswept hphase).2 _ c hc
      · exact (hE.unswept hphase).2 a d hd
    · rw [hcells] at hd
      split at hd
      · rename_i heq
        cases hd
        exact hE.swept hphase _ c hc (heq ▸ hnot)
      · exact hE.swept hphase a d hd hnot
  refine ⟨hE', hR.roots, hR.agrees, fun hmode hphase a ↦ ?_, fun hphase id₁ id₂ hid₁ hmark hrefers ↦ ?_,
    fun hphase id' hid' ↦ ?_⟩
  · rw [hmarked]
    exact hR.white hmode hphase a
  · rw [hmarked] at hmark ⊢
    rcases hchild hrefers with hhold | hrefers
    · exact hhold.2.2 hphase
    · exact hR.shaded hphase id₁ id₂ hid₁ hmark hrefers
  · rw [hmarked]
    exact hR.strong hphase id' hid'

end Represents

/-! ### A new object -/

/-- A sweep that is under way spares the new object. -/
theorem Heap.Placed.spared_self {h h' : Heap} {obj : Object ℕ} {p : ℕ} {flag : Bool} (hp : Heap.Placed h h' p obj flag)
    (hcursor : h.phase ≠ .sweeping → h.cursor = none) : h'.Spared p := by
  obtain ⟨c, hcells, -, -, -, hfresh⟩ := hp.cell
  intro hahead
  refine ⟨c, by rw [hcells, Function.update_self], ?_⟩
  have hsweeping : h.phase = .sweeping := by
    by_contra hnot
    have hnone : h'.cursor = none := by
      rw [hp.rest]
      exact hcursor hnot
    exact Heap.not_ahead_of_none hnone hahead
  rw [hfresh.mpr ⟨hsweeping, hahead⟩, Bool.or_true]

/-- A new weak handle is listed behind the old ones. -/
theorem Heap.Placed.mem_weaks {h h' : Heap} {obj : Object ℕ} {p a : ℕ} {flag : Bool} (hp : Heap.Placed h h' p obj flag)
    (ha : a ∈ h.weaks ∨ obj.isWeak = true ∧ a = p) : a ∈ h'.weaks := by
  rw [hp.rest]
  show a ∈ if obj.isWeak then h.weaks ++ [p] else h.weaks
  split
  · rcases ha with ha | ⟨-, rfl⟩
    · exact List.mem_append_left _ ha
    · exact List.mem_append_right _ (List.mem_singleton_self _)
  · rename_i hno
    rcases ha with ha | ⟨hweak, -⟩
    · exact ha
    · exact absurd hweak hno

/-- The heap gets an object that refers to what the sweep keeps. -/
theorem Embeds.create {h h' : Heap} (hE : Embeds A h ρ L) {o : Object IWord} {p : ℕ} {flag : Bool}
    (hp : Heap.Placed h h' p (o.map (IWord.bits ρ)) flag)
    (hatoms : ∀ id err, .ref id err ∈ o.atoms → L id ∧ h.Spared (ρ id)) (hkinded : A.wellKinded o = true)
    (hflag : flag = false → o.elements?.isSome = true → ∀ w ∈ o.words, w.isRef = false) :
    Embeds (A.create o) h' (Function.update ρ A.next p) (fun id ↦ L id ∨ id = A.next) ∧ h'.Spared p ∧
      ∀ id, L id → Function.update ρ A.next p id = ρ id ∧ (h.Spared (ρ id) → h'.Spared (ρ id)) ∧
        h'.isMarked (ρ id) = h.isMarked (ρ id) := by
  obtain ⟨c, hcells, hobj, hnote, hmark, hfresh⟩ := hp.cell
  have hphase : h'.phase = h.phase := by rw [hp.rest]
  have hcursor : h'.cursor = h.cursor := by rw [hp.rest]
  have hself : h'.cells p = some c := by rw [hcells, Function.update_self]
  have hne : ∀ {id}, L id → ρ id ≠ p := by
    rintro id hid rfl
    have := hE.isSome hid
    rw [hp.free] at this
    cases this
  have hother : ∀ {id}, L id → h'.cells (ρ id) = h.cells (ρ id) := fun hid ↦ by
    rw [hcells, Function.update_of_ne (hne hid)]
  -- The new object has a number past all others, so the old numbers keep their addresses.
  set ρ' := Function.update ρ A.next p with hρ'
  have hnew : ρ' A.next = p := Function.update_self _ _ _
  have hold : ∀ {id}, id < A.next → ρ' id = ρ id := fun hid ↦ Function.update_of_ne hid.ne _ _
  have hbits : ∀ {o' : Object IWord}, (∀ id err, .ref id err ∈ o'.atoms → id < A.next) →
      o'.map (IWord.bits ρ') = o'.map (IWord.bits ρ) := by
    intro o' hlt
    refine Object.map_congr fun w hw ↦ ?_
    cases w with
    | imm n => rfl
    | ref id err => exact congrArg (· + err.toNat) (hold (hlt id err hw))
  have hlt : ∀ id err, .ref id err ∈ o.atoms → id < A.next := fun id err hw ↦ hE.lt_next (hatoms id err hw).1
  have hspared : ∀ {id}, L id → (h'.Spared (ρ id) ↔ h.Spared (ρ id)) := by
    intro id hid
    rw [Heap.Spared, Heap.Spared, hother hid, hp.ahead _ (hE.isSome hid)]
  have hsparedNew : h'.Spared p := hp.spared_self fun hnot ↦ (hE.unswept hnot).1
  have hobjs : ∀ id, (A.create o).objs id = if id = A.next then some o else A.objs id := fun id ↦
    Function.update_apply _ _ _ _
  have hkeeps : ∀ {id o'}, A.objs id = some o' → (A.create o).objs id = some o' := by
    intro id o' ho
    rw [hobjs, if_neg (hE.below id o' ho).1.ne]
    exact ho
  have hkept : ∀ {id}, L id ∧ h.Spared (ρ id) → (L id ∨ id = A.next) ∧ h'.Spared (ρ' id) := by
    rintro id ⟨hid, hsp⟩
    rw [hold (hE.lt_next hid)]
    exact ⟨.inl hid, (hspared hid).mpr hsp⟩
  have hkinds : (A.create o).classKinds = A.classKinds := rfl
  have hrest : h'.gray = h.gray ∧ h'.classKinds = h.classKinds ∧ h'.finalizerTypes = h.finalizerTypes := by
    rw [hp.rest]
    exact ⟨rfl, rfl, rfl⟩
  refine ⟨{
    ok := hp.ok
    gray := hrest.1.trans hE.gray
    kinds := hrest.2.1.trans hE.kinds
    types := hrest.2.2.trans hE.types
    immortals := ?_
    strings := ?_
    below := fun id o' ho ↦ ?_
    kinded := fun id o' ho ↦ ?_
    texts := fun id hid ↦ (hE.texts id hid).imp fun _ ↦ hkeeps
    cell := fun id hid ↦ ?_
    inj := fun id id' hid hid' heq ↦ ?_
    onto := fun a ha ↦ ?_
    held := fun id hid ↦ hkept (hE.held id hid)
    closed := fun id id' hid hrefers ↦ ?_
    weaks := fun id target hid ho ↦ ?_
    unswept := fun hnot ↦ ⟨?_, fun a d hd ↦ ?_⟩
    swept := fun hsweeping a d hd hnot ↦ ?_ }, hsparedNew, fun id hid ↦ ⟨hold (hE.lt_next hid), (hspared hid).mpr, ?_⟩⟩
  · rw [hp.rest]
    refine hE.immortals.trans (List.map_congr_left fun k hk ↦ Prod.ext rfl ?_)
    exact (hold (hE.lt_next (hE.held _ (.inl (.inr (.inl ⟨k.1, hk⟩)))).1)).symm
  · rw [hp.rest]
    exact hE.strings.trans (List.map_congr_left fun id hid ↦ (hold (hE.lt_next (hE.held id (.inr hid)).1)).symm)
  · rw [hobjs] at ho
    split at ho
    · rename_i heq
      cases ho
      exact ⟨heq ▸ Nat.lt_succ_self _, fun id' err hw ↦ (hlt id' err hw).trans (Nat.lt_succ_self _)⟩
    · obtain ⟨hid, hatoms'⟩ := hE.below id o' ho
      exact ⟨hid.trans (Nat.lt_succ_self _), fun id' err hw ↦ (hatoms' id' err hw).trans (Nat.lt_succ_self _)⟩
  · refine Ideal.wellKinded_mono hkinds (fun _ _ ↦ hkeeps) ?_
    rw [hobjs] at ho
    split at ho
    · cases ho
      exact hkinded
    · exact hE.kinded id o' ho
  · rcases hid with hid | rfl
    · obtain ⟨o', d, ho, hd, hobj', hnote'⟩ := hE.cell id hid
      refine ⟨o', d, hkeeps ho, ?_, hobj'.trans (hbits (hE.below id o' ho).2).symm, hnote'⟩
      rw [hold (hE.lt_next hid), hother hid, hd]
    · exact ⟨o, c, (hobjs _).trans (if_pos rfl), by rw [hnew, hself], hobj.trans (hbits hlt).symm, hnote ▸ hflag⟩
  · rcases hid with hid | rfl <;> rcases hid' with hid' | rfl
    · rw [hold (hE.lt_next hid), hold (hE.lt_next hid')] at heq
      exact hE.inj id id' hid hid' heq
    · rw [hold (hE.lt_next hid), hnew] at heq
      exact absurd heq (hne hid)
    · rw [hold (hE.lt_next hid'), hnew] at heq
      exact absurd heq.symm (hne hid')
    · rfl
  · rcases eq_or_ne a p with rfl | hap
    · exact ⟨A.next, .inr rfl, hnew⟩
    · rw [hcells, Function.update_of_ne hap] at ha
      obtain ⟨id, hid, rfl⟩ := hE.onto a ha
      exact ⟨id, .inl hid, hold (hE.lt_next hid)⟩
  · rcases hid.1 with hlive | rfl
    · have hsp := hid.2
      rw [hold (hE.lt_next hlive), hspared hlive] at hsp
      have hidne : id ≠ A.next := (hE.lt_next hlive).ne
      refine hkept (hE.closed id id' ⟨hlive, hsp⟩ (hrefers.imp ?_ ?_))
      · rintro ⟨o', err, ho, hw⟩
        exact ⟨o', err, by rwa [hobjs, if_neg hidne] at ho, hw⟩
      · rintro ⟨err, ho⟩
        exact ⟨err, by rwa [hobjs, if_neg hidne] at ho⟩
    · rcases hrefers with ⟨o', err, ho, hw⟩ | ⟨err, ho⟩
      · rw [hobjs, if_pos rfl] at ho
        cases ho
        exact hkept (hatoms id' err (Object.words_sub_atoms hw))
      · rw [hobjs, if_pos rfl] at ho
        cases ho
        exact hkept (hatoms id' err (List.mem_singleton_self _))
  · rw [hobjs] at ho
    split at ho
    · rename_i heq
      cases ho
      rw [heq, hnew]
      exact hp.mem_weaks (.inr ⟨Object.isWeak_map _ _, rfl⟩)
    · rename_i hidne
      have hlive := hid.resolve_right hidne
      rw [hold (hE.lt_next hlive)]
      exact hp.mem_weaks (.inl (hE.weaks id target hlive ho))
  · exact hcursor.trans (hE.unswept (hphase ▸ hnot)).1
  · rcases eq_or_ne a p with rfl | hap
    · cases hself.symm.trans hd
      rw [← Bool.not_eq_true, hfresh]
      exact fun hs ↦ hnot (hphase.trans hs.1)
    · rw [hcells, Function.update_of_ne hap] at hd
      exact (hE.unswept (hphase ▸ hnot)).2 a d hd
  · have hsweeping' := hphase.symm.trans hsweeping
    rcases eq_or_ne a p with rfl | hap
    · cases hself.symm.trans hd
      rw [hmark, hsweeping', ← Bool.not_eq_true (c.fresh), hfresh]
      exact ⟨rfl, fun hs ↦ hnot hs.2⟩
    · rw [hcells, Function.update_of_ne hap] at hd
      exact hE.swept hsweeping' a d hd fun hahead ↦ hnot ((hp.ahead a (by rw [hd]; rfl)).mpr hahead)
  · rw [Heap.isMarked, Heap.isMarked, hother hid]

namespace Represents

theorem create (hR : Represents A V ρ L) {o : Object IWord} {h' : Heap} {p : ℕ} {flag : Bool}
    (hp : Heap.Placed V.heap h' p (o.map (IWord.bits ρ)) flag) (hatoms : ∀ w ∈ o.atoms, HoldableWord V.heap ρ L w)
    (hkinded : A.wellKinded o = true)
    (hflag : flag = false → o.elements?.isSome = true → ∀ w ∈ o.words, w.isRef = false) :
    ∃ ρ' L', Represents (A.create o) { V with heap := h' } ρ' L' ∧ ρ' A.next = p ∧ Holdable h' ρ' L' A.next := by
  have hE := hR.embeds
  obtain ⟨hE', hsp, hkeep⟩ := hE.create hp (fun id err hw ↦ ⟨(hatoms _ hw id err rfl).1, (hatoms _ hw id err rfl).2.1⟩)
    hkinded hflag
  obtain ⟨c, hcells, -, -, hmark, -⟩ := hp.cell
  have hphase : h'.phase = V.heap.phase := by rw [hp.rest]
  have hself : h'.isMarked p = decide (V.heap.phase = .marking) := by
    rw [Heap.isMarked, hcells, Function.update_self]
    exact hmark
  have hnext : Function.update ρ A.next p A.next = p := Function.update_self _ _ _
  have hchild : ∀ {id₁ id₂}, id₁ ≠ A.next → (A.create o).Child id₁ id₂ → A.Child id₁ id₂ := by
    rintro id₁ id₂ hne ⟨o', err, ho, hw⟩
    exact ⟨o', err, (Function.update_of_ne hne _ A.objs).symm.trans ho, hw⟩
  refine ⟨_, _,
    ⟨hE', ?_, ?_, fun hmode hidle a ↦ ?_, fun hmarking id₁ id₂ hid₁ hm hrefers ↦ ?_, fun hmarking id hid ↦ ?_⟩,
    hnext, .inr rfl, hnext.symm ▸ hsp, fun hmarking ↦ ?_⟩
  · refine hR.roots.trans (List.map_congr_left fun w hw ↦ ?_)
    cases w with
    | imm n => rfl
    | ref id err => exact congrArg (· + err.toNat) (hkeep id (hR.holdable_root hw id err rfl).1).1.symm
  · have hqueue : A.queue.map (Function.update ρ A.next p) = A.queue.map ρ :=
      List.map_congr_left fun id hid ↦ (hkeep id (hR.holdable (.inr (.inr hid))).1).1
    have := hR.agrees
    rw [← hphase] at this
    show V.mode.Agrees _ A.queue h'.phase
    cases hmode : V.mode with
    | running =>
      rw [hmode] at this
      exact this
    | marking q =>
      rw [hmode] at this
      exact ⟨this.1, this.2.trans hqueue.symm⟩
    | collecting q =>
      rw [hmode] at this
      exact ⟨this.1, this.2.trans hqueue.symm⟩
  · have hidle' := hphase.symm.trans hidle
    rcases eq_or_ne a p with rfl | hap
    · exact hself.trans (by rw [hidle']; rfl)
    · show (h'.cells a).any Cell.marked = false
      rw [hcells, Function.update_of_ne hap]
      exact hR.white hmode hidle' a
  · have hmarking' := hphase.symm.trans hmarking
    have hmarked : ∀ {id}, Holdable V.heap ρ L id → h'.isMarked (Function.update ρ A.next p id) = true := by
      intro id hid
      obtain ⟨hsame, -, hm⟩ := hkeep id hid.1
      rw [hsame, hm]
      exact hid.2.2 hmarking'
    rcases hid₁ with hlive | rfl
    · have hne := (hE.lt_next hlive).ne
      obtain ⟨hsame, -, hm'⟩ := hkeep id₁ hlive
      have hm : h'.isMarked (Function.update ρ A.next p id₁) = true := hm
      rw [hsame, hm'] at hm
      have hrefers := hchild hne hrefers
      exact hmarked (hR.holdable_child ⟨hlive, hE.spared (by rw [hmarking']; simp) _, fun _ ↦ hm⟩ hrefers)
    · obtain ⟨o', err, ho, hw⟩ := hrefers
      have hobj : (A.create o).objs A.next = some o := Function.update_self _ _ _
      cases hobj.symm.trans ho
      exact hmarked (hatoms _ (Object.words_sub_atoms hw) id₂ err rfl)
  · obtain ⟨hlive, -, hm⟩ := hR.holdable hid
    obtain ⟨hsame, -, hm'⟩ := hkeep id hlive
    show h'.isMarked _ = true
    rw [hsame, hm']
    exact hm (hphase.symm.trans hmarking)
  · rw [hnext, hself, decide_eq_true_eq]
    exact hphase.symm.trans hmarking

/-- A new object that the program holds. -/
theorem alloc (hR : Represents A V ρ L) {o : Object IWord} {h' : Heap} {p : ℕ} {flag : Bool}
    (hp : Heap.Placed V.heap h' p (o.map (IWord.bits ρ)) flag) (hatoms : ∀ w ∈ o.atoms, HoldableWord V.heap ρ L w)
    (hkinded : A.wellKinded o = true)
    (hflag : flag = false → o.elements?.isSome = true → ∀ w ∈ o.words, w.isRef = false) :
    ∃ ρ' L', Represents (A.alloc o) { V with heap := h', roots := V.roots ++ [p] } ρ' L' ∧ ρ' A.next = p ∧
      Holdable h' ρ' L' A.next := by
  obtain ⟨ρ', L', hR', hnext, hhold⟩ := hR.create hp hatoms hkinded hflag
  refine ⟨ρ', L', ?_, hnext, hhold⟩
  have hpush := hR'.push (w := .ref A.next false) fun id err heq ↦ by cases heq; exact hhold
  rw [show (IWord.ref A.next false).bits ρ' = p from hnext] at hpush
  exact hpush

end Represents

end CoilLang.Gc
