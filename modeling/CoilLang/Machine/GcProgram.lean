import CoilLang.Machine.GcRepresents
import Mathlib.Data.List.Find

/-!
# Every step of a program

A case for each instruction: where the ideal heap takes a step, the machine takes the same one and shows the program
the same (`Represents.exec`). The one exception is a lookup in the intern table that hits a string which the open
mark has not reached (`StaleIntern`).
-/

namespace CoilLang.Gc

open Machine.Snapshot (heapAddr)

variable {A A' : Ideal} {V V' : Vm} {ρ : ℕ → ℕ} {L : ℕ → Prop} {id : ℕ}

/-! ### Tables -/

theorem map_eq_string {o : Object IWord} {s : String} : o.map (IWord.bits ρ) = .string s ↔ o = .string s := by
  constructor
  · intro h
    cases o with
    | string t => cases h; rfl
    | _ => cases h
  · rintro rfl
    rfl

/-- The intern table answers as the ideal one does. -/
theorem Embeds.findString {h : Heap} (hE : Embeds A h ρ L) (s : String) : h.findString s = (A.findString s).map ρ := by
  rw [Heap.findString, Ideal.findString, hE.strings, List.find?_map]
  refine congrArg (Option.map ρ) (List.find?_congr fun id hid ↦ ?_)
  obtain ⟨o, c, ho, hc, hobj, -⟩ := hE.cell id (hE.held id (.inr hid)).1
  show (h.cells (ρ id)).any (fun c ↦ decide (c.obj = .string s)) = decide (A.objs id = some (.string s))
  rw [hc, ho, Option.any_some, hobj, decide_eq_decide, map_eq_string, Option.some_inj]

theorem Embeds.lookup {h : Heap} (hE : Embeds A h ρ L) (key : Immortal) :
    h.immortals.lookup key = (A.immortals.lookup key).map ρ := by
  rw [hE.immortals]
  induction A.immortals with
  | nil => rfl
  | cons k l ih =>
    rw [List.map_cons, List.lookup_cons, List.lookup_cons, ih, Prod.map_fst, id_eq]
    cases key == k.1 <;> rfl

/-- The list of objects with a `drop` is not part of what is represented. -/
theorem Embeds.setFinalizable {h : Heap} (hE : Embeds A h ρ L) (list : List ℕ) :
    Embeds A { h with finalizable := list } ρ L :=
  { hE with ok := hE.ok.congr rfl (fun _ ↦ rfl) rfl }

namespace Represents

/-- The heap remembers a shared object. -/
theorem addImmortal (hR : Represents A V ρ L) (hid : Holdable V.heap ρ L id) (key : Immortal) :
    Represents { A with immortals := (key, id) :: A.immortals }
      (V.onHeap fun h ↦ { h with immortals := (key, ρ id) :: h.immortals }) ρ L := by
  have hE := hR.embeds
  have hstrong : ∀ id', Ideal.Strong { A with immortals := (key, id) :: A.immortals } id' →
      Holdable V.heap ρ L id' := by
    rintro id' (hroot | ⟨key', hmem⟩ | hqueue)
    · exact hR.holdable (.inl hroot)
    · rcases List.mem_cons.mp hmem with heq | hmem
      · cases heq
        exact hid
      · exact hR.holdable (.inr (.inl ⟨key', hmem⟩))
    · exact hR.holdable (.inr (.inr hqueue))
  refine { hR with
    embeds := { hE with
      ok := hE.ok.congr rfl (fun _ ↦ rfl) rfl
      immortals := congrArg ((key, ρ id) :: ·) hE.immortals
      held := fun id' hid' ↦ ?_ }
    strong := fun hphase id' hid' ↦ (hstrong id' hid').2.2 hphase }
  rcases hid' with hid' | hid'
  · exact ⟨(hstrong id' hid').1, (hstrong id' hid').2.1⟩
  · exact hE.held id' (.inr hid')

/-- The heap interns a string. -/
theorem addInterned (hR : Represents A V ρ L) (hid : Holdable V.heap ρ L id) {s : String}
    (hs : A.objs id = some (.string s)) : Represents { A with interned := id :: A.interned }
      (V.onHeap fun h ↦ { h with strings := ρ id :: h.strings }) ρ L := by
  have hE := hR.embeds
  refine { hR with
    embeds := { hE with
      ok := hE.ok.congr rfl (fun _ ↦ rfl) rfl
      strings := congrArg (ρ id :: ·) hE.strings
      texts := fun id' hid' ↦ ?_
      held := fun id' hid' ↦ ?_ } }
  · rcases List.mem_cons.mp hid' with rfl | hid'
    · exact ⟨s, hs⟩
    · exact hE.texts id' hid'
  · rcases hid' with hid' | hid'
    · exact hE.held id' (.inl hid')
    · rcases List.mem_cons.mp hid' with rfl | hid'
      · exact ⟨hid.1, hid.2.1⟩
      · exact hE.held id' (.inr hid')

theorem setFinalizable (hR : Represents A V ρ L) (list : List ℕ) :
    Represents A (V.onHeap fun h ↦ { h with finalizable := list }) ρ L :=
  { hR with embeds := hR.embeds.setFinalizable list }

theorem register (hR : Represents A V ρ L) (typeId : ℕ) (list : List ℕ) :
    Represents { A with finalizerTypes := typeId :: A.finalizerTypes }
      (V.onHeap fun h ↦ { h with finalizerTypes := typeId :: h.finalizerTypes, finalizable := list }) ρ L :=
  { hR with
    embeds := { hR.embeds with
      ok := hR.embeds.ok.congr rfl (fun _ ↦ rfl) rfl
      types := congrArg (typeId :: ·) hR.embeds.types } }

/-! ### Instructions -/

/-- An operand that is an object. -/
theorem object (hR : Represents A V ρ L) {i : ℕ} {err : Bool} (hw : A.word i = .ref id err) {o : Object IWord}
    (ho : A.objs id = some o) : Holdable V.heap ρ L id ∧ heapAddr (V.word i) = ρ id ∧ (err = false → V.word i = ρ id) ∧
      ∃ c, V.heap.find (ρ id) = some c ∧ V.heap.cells (ρ id) = some c ∧ c.obj = o.map (IWord.bits ρ) ∧
        (c.mayHoldRefs = false → o.elements?.isSome = true → ∀ w ∈ o.words, w.isRef = false) := by
  have hid : Holdable V.heap ρ L id := hR.holdable_word i id err hw
  obtain ⟨c, hc, hmore⟩ := hR.embeds.cell_of hid.1 ho
  refine ⟨hid, ?_, ?_, c, (hR.embeds.ok.find_eq _).trans hc, hc, hmore⟩
  · rw [hR.word_eq, hw, hR.embeds.addr hid.1]
  · rintro rfl
    rw [hR.word_eq, hw]
    rfl

theorem exec_load (hR : Represents A V ρ L) {env : Env} {i k : ℕ} {o o' : Obs}
    (hideal : A.exec (.load i k) = some (o, A'))
    (hstep : V.exec env (.load i k) = some (o', V')) : o' = o ∧ Represents A' V' ρ L := by
  rw [Ideal.exec] at hideal
  split at hideal
  · cases hideal
  · rename_i id err hw
    obtain ⟨w, hbind, heq⟩ := Option.map_eq_some_iff.mp hideal
    obtain ⟨obj, ho, hk⟩ := Option.bind_eq_some_iff.mp hbind
    obtain ⟨hid, haddr, -, c, hfind, -, hobj, -⟩ := hR.object hw ho
    have hword : c.obj.words[k]? = some (w.bits ρ) := by
      rw [hobj, Object.words_map, List.getElem?_map, hk]
      rfl
    have hread : (V.heap.find (heapAddr (V.word i))).bind (·.obj.words[k]?) = some (w.bits ρ) := by
      rw [haddr, hfind]
      exact hword
    rw [Vm.exec, hread] at hstep
    cases heq
    cases hstep
    exact ⟨rfl, hR.push (hR.holdable_words hid ho (List.mem_of_getElem? hk))⟩

theorem exec_store (hR : Represents A V ρ L) {env : Env} {i : ℕ} {payload : Object (ℕ ⊕ ℕ)} {note : Bool} {o o' : Obs}
    (hideal : A.exec (.store i payload note) = some (o, A'))
    (hstep : V.exec env (.store i payload note) = some (o', V')) : o' = o ∧ Represents A' V' ρ L := by
  rw [Ideal.exec] at hideal
  split at hideal
  · cases hideal
  · rename_i id err hw
    obtain ⟨old, ho, hwrite⟩ := Option.bind_eq_some_iff.mp hideal
    dsimp only at hwrite
    split at hwrite
    · rename_i hok
      obtain ⟨hid, haddr, -, c, hfind, hc, hobj, hflag⟩ := hR.object hw ho
      set word : ℕ ⊕ ℕ → IWord := Sum.elim A.word fun k ↦ old.words.getD k (.imm 0) with hword
      have hpayload : payload.map (Sum.elim V.word fun k ↦ c.obj.words.getD k 0) =
          (payload.map word).map (IWord.bits ρ) := by
        rw [Object.map_map]
        refine congrArg (payload.map ·) (funext fun j ↦ ?_)
        cases j with
        | inl j => exact hR.word_eq j
        | inr k =>
          show c.obj.words.getD k 0 = (old.words.getD k (.imm 0)).bits ρ
          rw [hobj, Object.words_map, List.getD_eq_getElem?_getD, List.getD_eq_getElem?_getD, List.getElem?_map]
          cases old.words[k]? <;> rfl
      rw [Vm.exec, haddr, hfind] at hstep
      dsimp only at hstep
      rw [hpayload] at hstep
      simp only [Ideal.writable, Bool.and_eq_true, decide_eq_true_eq] at hok
      obtain ⟨⟨⟨⟨⟨⟨hkind, hmutable⟩, hmutable'⟩, -⟩, -⟩, hkinded⟩, hnote⟩ := hok
      cases hwrite
      cases hstep
      refine ⟨rfl, hR.setObj hid ho hc (fun w hw' ↦ ?_) hkinded ?_ ?_ ?_⟩
      · rw [Object.words_map] at hw'
        obtain ⟨j, -, rfl⟩ := List.mem_map.mp hw'
        cases j with
        | inl j => exact hR.holdable_word j
        | inr k =>
          rw [hword, Sum.elim_inr, List.getD_eq_getElem?_getD]
          cases hk : old.words[k]? with
          | none => exact fun id err heq ↦ absurd heq IWord.noConfusion
          | some w => exact hR.holdable_words hid ho (List.mem_of_getElem? hk)
      · rintro s rfl
        cases hmutable
      · intro target b heq
        rw [heq] at hmutable'
        cases hmutable'
      · intro hfalse helems w hw'
        rw [Bool.or_eq_false_iff] at hfalse
        rw [hfalse.2, Bool.false_or, List.all_eq_true] at hnote
        have hold := hnote w hw'
        rw [Bool.or_eq_true, Bool.not_eq_true', decide_eq_true_eq] at hold
        rcases hold with hold | hold
        · exact hold
        · refine hflag hfalse.1 ?_ w hold
          rw [Object.elements?_isSome_iff] at helems ⊢
          exact hkind.trans helems
    · cases hwrite

/-- Writes that keep the words of an object. -/
theorem setSame (hR : Represents A V ρ L) (hid : Holdable V.heap ρ L id) {old new : Object IWord}
    (ho : A.objs id = some old) {c : Cell} (hc : V.heap.cells (ρ id) = some c)
    (hwords : new.words = old.words) (hscan : ∀ k b, new.scan k b = old.scan k b)
    (helems : new.elements?.isSome = old.elements?.isSome) (hstring : ∀ s, old ≠ .string s)
    (hweak : ∀ target b, new ≠ .weak target b) :
    Represents (A.setObj id new) (V.setCell (ρ id) { c with obj := new.map (IWord.bits ρ) }) ρ L := by
  obtain ⟨old', ho', -, hflag⟩ := hR.embeds.obj_of hid.1 hc
  cases ho.symm.trans ho'
  refine hR.setObj hid ho hc (fun w hw ↦ hR.holdable_words hid ho (hwords ▸ hw)) ?_ hstring hweak ?_
  · have := hR.embeds.kinded id old ho
    rw [Ideal.wellKinded] at this ⊢
    rw [hwords, hscan]
    exact this
  · rw [helems, hwords]
    exact hflag

theorem exec_tagEnum (hR : Represents A V ρ L) {env : Env} {i typeId : ℕ} {o o' : Obs}
    (hideal : A.exec (.tagEnum i typeId) = some (o, A')) (hstep : V.exec env (.tagEnum i typeId) = some (o', V')) :
    o' = o ∧ Represents A' V' ρ L := by
  rw [Ideal.exec] at hideal
  split at hideal
  · rename_i id hw
    obtain ⟨old, ho, heq⟩ := Option.map_eq_some_iff.mp hideal
    obtain ⟨hid, -, hword, c, hfind, hc, hobj, -⟩ := hR.object hw ho
    rw [Vm.exec, hword rfl, hfind] at hstep
    dsimp only at hstep
    rw [hobj, Object.tagEnum_map] at hstep
    cases heq
    cases htag : old.tagEnum typeId with
    | none =>
      rw [htag] at hstep
      cases hstep
      exact ⟨rfl, hR⟩
    | some new =>
      rw [htag] at hstep
      cases hstep
      obtain ⟨-, hwords, -, hscan, helems, hstring, -, hweak⟩ := Object.tagEnum_spec htag
      have hset := hR.setSame hid ho hc hwords hscan helems hstring hweak
      refine ⟨rfl, ?_⟩
      rw [Heap.noteEnumType]
      split
      · exact hset.setFinalizable _
      · exact hset
  · cases hideal

theorem exec_alloc (hR : Represents A V ρ L) {env : Env} {payload : Object ℕ} {mayHoldRefs : Bool} {o o' : Obs}
    (hideal : A.exec (.alloc payload mayHoldRefs) = some (o, A'))
    (hstep : V.exec env (.alloc payload mayHoldRefs) = some (o', V')) :
    o' = o ∧ ∃ ρ' L', Represents A' V' ρ' L' := by
  rw [Ideal.exec] at hideal
  split at hideal
  · rename_i hok
    rw [Bool.and_eq_true, Bool.or_eq_true, List.all_eq_true] at hok
    obtain ⟨r, halloc, heq⟩ := Option.map_eq_some_iff.mp hstep
    have hpayload : payload.map V.word = (payload.map A.word).map (IWord.bits ρ) := by
      rw [Object.map_map]
      exact congrArg (payload.map ·) (funext hR.word_eq)
    rw [hpayload] at halloc
    cases hideal
    cases heq
    have hatoms : ∀ w ∈ (payload.map A.word).atoms, HoldableWord V.heap ρ L w := by
      intro w hw
      rw [Object.atoms_map] at hw
      obtain ⟨j, -, rfl⟩ := List.mem_map.mp hw
      exact hR.holdable_word j
    obtain ⟨ρ', L', hR', -⟩ := hR.alloc (Heap.alloc_spec hR.embeds.ok halloc) hatoms hok.1 fun hfalse _ w hw ↦
      (Bool.not_eq_true' _).mp (hok.2.resolve_left (by rw [hfalse]; simp) w hw)
    exact ⟨rfl, ρ', L', hR'⟩
  · cases hideal

theorem exec_immortal (hR : Represents A V ρ L) {env : Env} {key : Immortal} {o o' : Obs}
    (hideal : A.exec (.immortal key) = some (o, A')) (hstep : V.exec env (.immortal key) = some (o', V')) :
    o' = o ∧ ∃ ρ' L', Represents A' V' ρ' L' := by
  obtain ⟨r, himm, heq⟩ := Option.map_eq_some_iff.mp hstep
  rw [Heap.immortal, hR.embeds.lookup] at himm
  rw [Ideal.exec] at hideal
  cases heq
  cases hkey : A.immortals.lookup key with
  | some id =>
    rw [hkey] at himm hideal
    cases himm
    cases hideal
    obtain ⟨l₁, l₂, hl, -⟩ := List.lookup_eq_some_iff.mp hkey
    have hstrong : A.Strong id := .inr (.inl ⟨key, by rw [hl]; exact List.mem_append_right _ List.mem_cons_self⟩)
    exact ⟨rfl, ρ, L, hR.push fun id' err heq ↦ by cases heq; exact hR.holdable hstrong⟩
  | none =>
    rw [hkey] at himm hideal
    cases hideal
    obtain ⟨r', halloc, rfl⟩ := Option.map_eq_some_iff.mp himm
    have hobj : (key.obj : Object ℕ) = (key.obj : Object IWord).map (IWord.bits ρ) := by cases key <;> rfl
    have hatoms : (key.obj : Object IWord).atoms = [] := by cases key <;> rfl
    have hkinded : A.wellKinded key.obj = true := by cases key <;> rfl
    rw [hobj] at halloc
    obtain ⟨ρ', L', hR', hnext, hhold⟩ := hR.alloc (Heap.alloc_spec hR.embeds.ok halloc)
      (fun w hw ↦ by rw [hatoms] at hw; cases hw) hkinded (fun hfalse ↦ by cases hfalse)
    have himmortal := hR'.addImmortal hhold key
    rw [hnext] at himmortal
    exact ⟨rfl, ρ', L', himmortal⟩

/-- The interned string that answers a lookup, unless the open mark has not reached it. -/
theorem holdable_interned (hR : Represents A V ρ L) {s : String} (hid : A.findString s = some id)
    (hfresh : ¬ (V.heap.phase = .marking ∧ ∃ a, V.heap.findString s = some a ∧ V.heap.isMarked a = false)) :
    Holdable V.heap ρ L id := by
  obtain ⟨hlive, hsp⟩ := hR.embeds.held id (.inr (List.mem_of_find?_eq_some hid))
  refine ⟨hlive, hsp, fun hphase ↦ ?_⟩
  by_contra hmark
  refine hfresh ⟨hphase, ρ id, ?_, Bool.not_eq_true _ ▸ hmark⟩
  rw [hR.embeds.findString, hid]
  rfl

theorem exec_intern (hR : Represents A V ρ L) {env : Env} {s : String} {o o' : Obs}
    (hideal : A.exec (.intern s) = some (o, A')) (hstep : V.exec env (.intern s) = some (o', V'))
    (hfresh : ¬ V.StaleIntern (.intern s)) : o' = o ∧ ∃ ρ' L', Represents A' V' ρ' L' := by
  obtain ⟨r, hintern, heq⟩ := Option.map_eq_some_iff.mp hstep
  rw [Heap.intern, hR.embeds.findString] at hintern
  rw [Ideal.exec] at hideal
  cases heq
  cases hs : A.findString s with
  | some id =>
    rw [hs] at hintern hideal
    cases hintern
    cases hideal
    have hhold := hR.holdable_interned hs hfresh
    exact ⟨rfl, ρ, L, hR.push fun id' err heq ↦ by cases heq; exact hhold⟩
  | none =>
    rw [hs] at hintern hideal
    cases hideal
    obtain ⟨r', halloc, rfl⟩ := Option.map_eq_some_iff.mp hintern
    obtain ⟨ρ', L', hR', hnext, hhold⟩ := hR.alloc (o := .string s) (Heap.alloc_spec hR.embeds.ok halloc)
      (fun w hw ↦ by cases hw) rfl (fun hfalse ↦ by cases hfalse)
    have hinterned := hR'.addInterned hhold (s := s) (Function.update_self _ _ _)
    rw [hnext] at hinterned
    exact ⟨rfl, ρ', L', hinterned⟩

theorem exec_internRef (hR : Represents A V ρ L) {env : Env} {i : ℕ} {o o' : Obs}
    (hideal : A.exec (.internRef i) = some (o, A')) (hstep : V.exec env (.internRef i) = some (o', V'))
    (hfresh : ¬ V.StaleIntern (.internRef i)) : o' = o ∧ Represents A' V' ρ L := by
  rw [Ideal.exec] at hideal
  split at hideal
  · rename_i id hw
    split at hideal
    · rename_i s ho
      obtain ⟨hid, -, hword, c, hfind, hc, hobj, -⟩ := hR.object hw ho
      have hread : (V.heap.find (V.word i)).map Cell.obj = some (.string s) := by
        rw [hword rfl, hfind]
        exact congrArg some hobj
      rw [Vm.exec, hread] at hstep
      cases hstep
      rw [Heap.internRef, hR.embeds.findString, hword rfl]
      cases hs : A.findString s with
      | some id' =>
        rw [hs] at hideal
        cases hideal
        have hhold := hR.holdable_interned hs fun hstale ↦
          hfresh ⟨hstale.1, s, hstale.2.choose, hread, hstale.2.choose_spec⟩
        exact ⟨rfl, hR.push fun id' err heq ↦ by cases heq; exact hhold⟩
      | none =>
        rw [hs] at hideal
        cases hideal
        have hpush := (hR.addInterned hid ho).push (w := .ref id false) fun id' err heq ↦ by cases heq; exact hid
        exact ⟨rfl, hpush⟩
    · cases hideal
  · cases hideal

/-- Marking what a word refers to, if a mark is open. -/
theorem resurrect (hR : Represents A V ρ L) {w : IWord}
    (hw : ∀ id err, w = .ref id err → L id ∧ V.heap.Spared (ρ id)) :
    Represents A (V.onHeap (·.resurrectDuringMark (w.bits ρ))) ρ L ∧
      HoldableWord (V.heap.resurrectDuringMark (w.bits ρ)) ρ L w := by
  rw [Vm.onHeap, Heap.resurrectDuringMark]
  split
  · rename_i hphase
    have hE := hR.embeds
    have hnot : V.heap.phase ≠ .sweeping := by rw [hphase]; simp
    obtain ⟨hE', hm, hshaded, hmark⟩ := hE.remark hnot (hR.shaded hphase) [w.bits ρ]
    have hstrong : ∀ id, A.Strong id → (V.heap.remarkRoots [w.bits ρ]).drain.isMarked (ρ id) = true := fun id hid ↦
      hmark _ (.inl (hR.strong hphase id hid))
    refine ⟨⟨hE', hR.roots, ?_, fun _ hidle ↦ ?_, fun _ ↦ hshaded, fun _ ↦ hstrong⟩, fun id err heq ↦
      ⟨(hw id err heq).1, ?_, fun _ ↦ ?_⟩⟩
    · show V.mode.Agrees ρ A.queue (V.heap.remarkRoots [w.bits ρ]).drain.phase
      rw [hm.phase]
      exact hR.agrees
    · have hidle' : (V.heap.remarkRoots [w.bits ρ]).drain.phase = .idle := hidle
      rw [hm.phase, hphase] at hidle'
      cases hidle'
    · exact hE'.spared (by rw [hm.phase]; exact hnot) _
    · refine hmark _ (.inr ⟨w.bits ρ, List.mem_singleton_self _, ?_, ?_⟩)
      · rw [heq, hE.addr (hw id err heq).1]
      · rw [hE.ok.find_eq]
        exact hE.isSome (hw id err heq).1
  · rename_i hphase
    exact ⟨hR, fun id err heq ↦ ⟨(hw id err heq).1, (hw id err heq).2, fun h ↦ absurd h hphase⟩⟩

theorem exec_upgrade (hR : Represents A V ρ L) {env : Env} {i : ℕ} {o o' : Obs}
    (hideal : A.exec (.upgrade i) = some (o, A')) (hstep : V.exec env (.upgrade i) = some (o', V')) :
    o' = o ∧ Represents A' V' ρ L := by
  rw [Ideal.exec] at hideal
  split at hideal
  · rename_i id hw
    split at hideal
    · rename_i target cleared ho
      obtain ⟨hid, -, hword, c, hfind, hc, hobj, -⟩ := hR.object hw ho
      have hread : (V.heap.find (V.word i)).map Cell.obj = some (.weak (target.bits ρ) cleared) := by
        rw [hword rfl, hfind]
        exact congrArg some hobj
      rw [Vm.exec, hread] at hstep
      cases cleared with
      | true =>
        cases hideal
        cases hstep
        exact ⟨rfl, hR⟩
      | false =>
        cases hideal
        cases hstep
        have htarget : ∀ id' err, target = .ref id' err → L id' ∧ V.heap.Spared (ρ id') := by
          rintro id' err rfl
          exact hR.embeds.closed id id' ⟨hid.1, hid.2.1⟩ (.inr ⟨err, ho⟩)
        obtain ⟨hR', hhold⟩ := hR.resurrect htarget
        exact ⟨rfl, hR'.push hhold⟩
    · cases hideal
  · cases hideal

theorem exec_same (hR : Represents A V ρ L) {env : Env} {i j : ℕ} {o o' : Obs}
    (hideal : A.exec (.same i j) = some (o, A'))
    (hstep : V.exec env (.same i j) = some (o', V')) : o' = o ∧ Represents A' V' ρ L := by
  rw [Ideal.exec] at hideal
  split at hideal
  · rename_i hkind
    cases hideal
    cases hstep
    refine ⟨congrArg Obs.bool (decide_eq_decide.mpr ?_), hR⟩
    rw [hR.word_eq, hR.word_eq]
    cases hi : A.word i with
    | imm n =>
      cases hj : A.word j with
      | imm m => exact ⟨fun heq ↦ congrArg IWord.imm heq, IWord.imm.inj⟩
      | ref id' err' =>
        rw [hi, hj] at hkind
        cases hkind
    | ref id err =>
      cases hj : A.word j with
      | imm m =>
        rw [hi, hj] at hkind
        cases hkind
      | ref id' err' => exact hR.embeds.bits_inj (hR.holdable_word i id err hi).1 (hR.holdable_word j id' err' hj).1
  · cases hideal

theorem exec_look (hR : Represents A V ρ L) {env : Env} {i : ℕ} {o o' : Obs} (hideal : A.exec (.look i) = some (o, A'))
    (hstep : V.exec env (.look i) = some (o', V')) : o' = o ∧ Represents A' V' ρ L := by
  rw [Ideal.exec] at hideal
  split at hideal
  · cases hideal
  · rename_i id err hw
    obtain ⟨obj, ho, heq⟩ := Option.map_eq_some_iff.mp hideal
    obtain ⟨-, haddr, -, c, hfind, -, hobj, -⟩ := hR.object hw ho
    rw [Vm.exec, haddr, hfind] at hstep
    cases heq
    cases hstep
    refine ⟨congrArg Obs.shape ?_, hR⟩
    rw [hobj, Object.map_map]

theorem exec_register (hR : Represents A V ρ L) {env : Env} {typeId : ℕ} {o o' : Obs}
    (hideal : A.exec (.register typeId) = some (o, A')) (hstep : V.exec env (.register typeId) = some (o', V')) :
    o' = o ∧ Represents A' V' ρ L := by
  rw [Ideal.exec, ← hR.embeds.types] at hideal
  rw [Vm.exec, Heap.registerFinalizerType] at hstep
  cases hstep
  split at hideal
  · rename_i hknown
    cases hideal
    rw [if_pos hknown]
    exact ⟨rfl, hR⟩
  · rename_i hnew
    cases hideal
    rw [if_neg hnew]
    have hregister := hR.register typeId (V.heap.finalizable ++
      V.heap.objects.filter fun a ↦ (V.heap.cells a).any fun c ↦ c.obj.typeId? = some typeId)
    rw [← hR.embeds.types] at hregister
    exact ⟨rfl, hregister⟩

/-- **A step of the program keeps what is represented** and shows what the ideal step shows. -/
theorem exec (hR : Represents A V ρ L) {env : Env} {i : Instr} {o o' : Obs} (hideal : A.exec i = some (o, A'))
    (hstep : V.exec env i = some (o', V')) (hfresh : ¬ V.StaleIntern i) :
    o' = o ∧ ∃ ρ' L', Represents A' V' ρ' L' := by
  have hsame : o' = o ∧ Represents A' V' ρ L → o' = o ∧ ∃ ρ' L', Represents A' V' ρ' L' := fun h ↦ ⟨h.1, ρ, L, h.2⟩
  cases i with
  | imm n =>
    cases hideal
    cases hstep
    exact hsame ⟨rfl, hR.push (w := .imm n) nofun⟩
  | select places =>
    cases hideal
    cases hstep
    have hall : ∀ w ∈ places.map A.word, HoldableWord V.heap ρ L w := by
      intro w hw
      obtain ⟨i, -, rfl⟩ := List.mem_map.mp hw
      exact hR.holdable_word i
    have hroots := hR.setRoots hall
    rw [List.map_map, show IWord.bits ρ ∘ A.word = V.word from (funext hR.word_eq).symm] at hroots
    exact hsame ⟨rfl, hroots⟩
  | int i =>
    rw [Ideal.exec] at hideal
    cases hstep
    split at hideal
    · rename_i n hw
      cases hideal
      exact hsame ⟨by rw [hR.word_eq, hw]; rfl, hR⟩
    · cases hideal
  | same i j => exact hsame (hR.exec_same hideal hstep)
  | look i => exact hsame (hR.exec_look hideal hstep)
  | load i k => exact hsame (hR.exec_load hideal hstep)
  | store i payload note => exact hsame (hR.exec_store hideal hstep)
  | tagEnum i typeId => exact hsame (hR.exec_tagEnum hideal hstep)
  | alloc payload mayHoldRefs => exact hR.exec_alloc hideal hstep
  | immortal key => exact hR.exec_immortal hideal hstep
  | intern s => exact hR.exec_intern hideal hstep hfresh
  | internRef i => exact hsame (hR.exec_internRef hideal hstep hfresh)
  | upgrade i => exact hsame (hR.exec_upgrade hideal hstep)
  | register typeId => exact hsame (hR.exec_register hideal hstep)

end Represents

end CoilLang.Gc
