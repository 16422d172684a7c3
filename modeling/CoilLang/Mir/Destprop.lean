import CoilLang.Lib.Loop
import CoilLang.Mir.Dce
import CoilLang.Mir.Prune

/-!
# Forwarding trivial φs

A φ is trivial when its incomings, resolved by what is forwarded already, are itself and one other value of
its type: uses of the φ may read that value. One sweep after another adds forwardings until none is
new; then all uses are rewritten to what they resolve to, and the forwarded φs are dropped.

A forwarding goes from a φ that is not forwarded yet to a value that is not forwarded either (`Fresh`),
though that value may be forwarded later. So **the forwardings have no cycles**, and following them
from any value ends at one that stays (`lookup_resolve`), whatever cycles of φs the function has; the
guard against cycles in `resolve` never cuts a chain short (`resolve_eq_rep`).
-/

namespace CoilLang.Mir.Destprop

/-- Follow the forwardings from a value, at most as many as there are; `seen` guards against a
cycle. -/
def resolveFrom (subst : List (ValueId × ValueId)) : ℕ → List ValueId → ValueId → ValueId
  | 0, _, v => v
  | n + 1, seen, v =>
    match subst.lookup v with
    | none => v
    | some w => if w = v ∨ v ∈ seen then v else resolveFrom subst n (v :: seen) w

def resolve (subst : List (ValueId × ValueId)) (v : ValueId) : ValueId :=
  resolveFrom subst (subst.length + 1) [] v

/-- The one value the incomings resolve to besides `dest`, when `same` is what they gave so far. -/
def trivialArgs (f : MirFunc) (dest : ValueId) (ty : MirTy) (subst : List (ValueId × ValueId)) :
    List (BlockId × ValueId) → Option ValueId → Option ValueId
  | [], same => same
  | a :: args, same =>
    let v := resolve subst a.2
    if v = dest then trivialArgs f dest ty subst args same
    else if f.ty v ≠ ty then none
    else
      match same with
      | none => trivialArgs f dest ty subst args (some v)
      | some s => if s ≠ v then none else trivialArgs f dest ty subst args (some s)

def trivialSrc (f : MirFunc) (dest : ValueId) (ty : MirTy) (args : List (BlockId × ValueId))
    (subst : List (ValueId × ValueId)) : Option ValueId :=
  trivialArgs f dest ty subst args none

/-- Forward a φ if it is trivial; the flag says whether one was. -/
def forwardInst (f : MirFunc) (st : List (ValueId × ValueId) × Bool) :
    MirInst → List (ValueId × ValueId) × Bool
  | .phi dest ty args =>
    if dest ∈ st.1.map Prod.fst then st
    else
      match trivialSrc f dest ty args st.1 with
      | none => st
      | some keep => ((dest, keep) :: st.1, true)
  | _ => st

def forwardSweep (f : MirFunc) (subst : List (ValueId × ValueId)) :
    List (ValueId × ValueId) × Bool :=
  f.insts.foldl (forwardInst f) (subst, false)

/-- Rewrite the uses and drop the forwarded φs. -/
def forwardBlock (subst : List (ValueId × ValueId)) (b : MirBlock) : MirBlock :=
  { b with
    insts := (b.insts.map fun i ↦ i.rewriteValues (resolve subst)).filter
      fun i ↦ i.dest ∉ subst.map Prod.fst
    term := b.term.map fun t ↦ t.rewriteValues (resolve subst) }

def forward (subst : List (ValueId × ValueId)) (f : MirFunc) : MirFunc :=
  { f with blocks := f.blocks.map (forwardBlock subst) }

/-- One round, with the number of φs dropped. -/
def destpropOnce (fuel : ℕ) (f : MirFunc) : Option (MirFunc × ℕ) :=
  (repeatUntil (forwardSweep f) fuel []).map fun subst ↦
    if subst = [] then (f, 0) else (forward subst f, subst.length)

def destpropRounds (fuel : ℕ) : ℕ → MirFunc → Option (MirFunc × ℕ)
  | 0, f => some (f, 0)
  | n + 1, f => (destpropOnce fuel f).bind fun r ↦
    if r.2 = 0 then some r else (destpropRounds fuel n r.1).map fun r' ↦ (r'.1, r.2 + r'.2)

/-- At most eight rounds, and dead code elimination if a φ was dropped. -/
def destprop (fuel : ℕ) (f : MirFunc) : Option (MirFunc × ℕ) :=
  (destpropRounds fuel 8 f).bind fun r ↦
    if 0 < r.2 then (dce fuel r.1).map fun g ↦ (g, r.2) else some r

/-! ### The forwardings have no cycles -/

/-- Each forwarding, latest first, is from a value to another, neither of which was forwarded
before. -/
inductive Fresh : List (ValueId × ValueId) → Prop
  | nil : Fresh []
  | cons {d k : ValueId} {subst : List (ValueId × ValueId)} (hd : d ∉ subst.map Prod.fst)
      (hk : k ∉ subst.map Prod.fst) (hne : k ≠ d) (h : Fresh subst) : Fresh ((d, k) :: subst)

/-- The value that stands for another one: the forwardings one after the other. -/
def rep : List (ValueId × ValueId) → ValueId → ValueId
  | [], v => v
  | (d, k) :: subst, v => if rep subst v = d then k else rep subst v

variable {subst : List (ValueId × ValueId)} {v w d k : ValueId}

theorem rep_of_notMem (hv : v ∉ subst.map Prod.fst) : rep subst v = v := by
  induction subst with
  | nil => rfl
  | cons e subst ih =>
    obtain ⟨d, k⟩ := e
    obtain ⟨hvd, hv⟩ := not_or.1 (List.mem_cons.not.1 hv)
    rw [rep, ih hv, if_neg hvd]

theorem mem_keys_of_lookup (h : subst.lookup v = some w) : v ∈ subst.map Prod.fst := by
  induction subst with
  | nil => cases h
  | cons e subst ih =>
    obtain ⟨d, k⟩ := e
    rw [List.lookup_cons] at h
    split at h
    · rename_i heq
      exact List.mem_cons.2 (.inl (by simpa using heq))
    · exact List.mem_cons_of_mem _ (ih h)

theorem lookup_eq_none_iff : subst.lookup v = none ↔ v ∉ subst.map Prod.fst := by
  induction subst with
  | nil => simp
  | cons e subst ih =>
    obtain ⟨d, k⟩ := e
    rw [List.lookup_cons, List.map_cons, List.mem_cons, not_or, ← ih]
    by_cases hvd : v = d
    · simp [hvd]
    · have hbeq : (v == d) = false := by simpa using hvd
      simp [hbeq, hvd]

namespace Fresh

theorem rep_notMem (h : Fresh subst) (v : ValueId) : rep subst v ∉ subst.map Prod.fst := by
  induction h with
  | nil => exact List.not_mem_nil
  | cons hd hk hne _ ih =>
    rw [rep]
    split
    · exact List.mem_cons.not.2 (not_or.2 ⟨hne, hk⟩)
    · rename_i hvd
      exact List.mem_cons.not.2 (not_or.2 ⟨hvd, ih⟩)

theorem rep_rep (h : Fresh subst) (v : ValueId) : rep subst (rep subst v) = rep subst v :=
  rep_of_notMem (h.rep_notMem v)

/-- Following one forwarding changes nothing, and goes to a value that is forwarded later if at
all. -/
theorem lookup (h : Fresh subst) (hv : subst.lookup v = some w) :
    rep subst w = rep subst v ∧ w ≠ v ∧
      (w ∈ subst.map Prod.fst → (subst.map Prod.fst).idxOf w < (subst.map Prod.fst).idxOf v) := by
  induction h with
  | nil => cases hv
  | cons hd hk hne h ih =>
    rename_i d k subst
    rw [List.lookup_cons] at hv
    by_cases hvd : v = d
    · subst hvd
      obtain rfl : k = w := by simpa using hv
      refine ⟨?_, hne, fun hmem ↦ absurd hmem (List.mem_cons.not.2 (not_or.2 ⟨hne, hk⟩))⟩
      rw [rep, rep, rep_of_notMem hk, rep_of_notMem hd, if_neg hne, if_pos rfl]
    · have hbeq : (v == d) = false := by simpa using hvd
      rw [hbeq] at hv
      obtain ⟨hrep, hwv, hidx⟩ := ih hv
      refine ⟨by rw [rep, rep, hrep], hwv, fun hmem ↦ ?_⟩
      rw [List.map_cons, List.idxOf_cons_ne _ (Ne.symm hvd)]
      by_cases hwd : w = d
      · rw [hwd, List.idxOf_cons_self]
        omega
      · rw [List.idxOf_cons_ne _ (Ne.symm hwd)]
        exact Nat.succ_lt_succ (hidx ((List.mem_cons.1 hmem).resolve_left hwd))

/-- **Following the forwardings ends at the value that stands for them all.** -/
theorem resolveFrom_eq (h : Fresh subst) {n : ℕ} {seen : List ValueId}
    (hn : v ∈ subst.map Prod.fst → (subst.map Prod.fst).idxOf v + 1 < n) (hpos : 0 < n)
    (hseen : ∀ s ∈ seen, s ∈ subst.map Prod.fst ∧
      (v ∈ subst.map Prod.fst → (subst.map Prod.fst).idxOf v < (subst.map Prod.fst).idxOf s)) :
    resolveFrom subst n seen v = rep subst v := by
  induction n generalizing v seen with
  | zero => omega
  | succ n ih =>
    unfold resolveFrom
    cases hv : subst.lookup v with
    | none => exact (rep_of_notMem (lookup_eq_none_iff.1 hv)).symm
    | some w =>
      have hmem := mem_keys_of_lookup hv
      obtain ⟨hrep, hwv, hidx⟩ := h.lookup hv
      have hvs : v ∉ seen := fun hs ↦ Nat.lt_irrefl _ ((hseen v hs).2 hmem)
      have hlt := hn hmem
      dsimp only
      rw [if_neg (not_or.2 ⟨hwv, hvs⟩), ← hrep]
      refine ih (fun hw ↦ ?_) (by omega) fun s hs ↦ ?_
      · have := hidx hw
        omega
      · rcases List.mem_cons.1 hs with rfl | hs
        · exact ⟨hmem, hidx⟩
        · exact ⟨(hseen s hs).1, fun hw ↦ (hidx hw).trans ((hseen s hs).2 hmem)⟩

theorem resolve_eq_rep (h : Fresh subst) (v : ValueId) : resolve subst v = rep subst v := by
  refine h.resolveFrom_eq (fun hv ↦ ?_) (Nat.succ_pos _) fun s hs ↦ (by cases hs)
  have := List.idxOf_lt_length_of_mem hv
  rw [List.length_map] at this
  omega

/-- What a value resolves to is not forwarded. -/
theorem lookup_resolve (h : Fresh subst) (v : ValueId) : subst.lookup (resolve subst v) = none := by
  rw [h.resolve_eq_rep, lookup_eq_none_iff]
  exact h.rep_notMem v

end Fresh

/-! ### What one round forwards -/

/-- What the incomings say when they give a value: each is the φ itself or that value. -/
theorem trivialArgs_eq_some {f : MirFunc} {ty : MirTy} {args : List (BlockId × ValueId)}
    {same : Option ValueId} (h : trivialArgs f d ty subst args same = some k)
    (hsame : ∀ s, same = some s → s ≠ d ∧ f.ty s = ty) :
    (∀ a ∈ args, resolve subst a.2 = d ∨ resolve subst a.2 = k) ∧ (∀ s, same = some s → s = k) ∧
      (same = none → ∃ a ∈ args, resolve subst a.2 = k) ∧ k ≠ d ∧ f.ty k = ty := by
  induction args generalizing same with
  | nil =>
    obtain rfl : same = some k := h
    exact ⟨by simp, fun s hs ↦ (Option.some.inj hs).symm, fun h ↦ (by cases h), hsame k rfl⟩
  | cons a args ih =>
    unfold trivialArgs at h
    dsimp only at h
    split at h
    · rename_i hd
      obtain ⟨hargs, hs, hnone, hk⟩ := ih h hsame
      refine ⟨List.forall_mem_cons.2 ⟨.inl hd, hargs⟩, hs, fun hn ↦ ?_, hk⟩
      obtain ⟨a', ha', hk'⟩ := hnone hn
      exact ⟨a', List.mem_cons_of_mem _ ha', hk'⟩
    rename_i hd
    split at h
    · cases h
    rename_i hty
    cases same with
    | none =>
      obtain ⟨hargs, hs, -, hk⟩ := ih h fun s hs ↦ by
        obtain rfl := Option.some.inj hs
        exact ⟨hd, not_not.1 hty⟩
      have hak := hs _ rfl
      exact ⟨List.forall_mem_cons.2 ⟨.inr hak, hargs⟩, fun s hs ↦ (by cases hs),
        fun _ ↦ ⟨a, List.mem_cons_self, hak⟩, hk⟩
    | some s =>
      dsimp only at h
      split at h
      · cases h
      · rename_i hsa
        obtain ⟨hargs, hs, -, hk⟩ := ih h hsame
        have hak : resolve subst a.2 = k := (not_not.1 hsa).symm.trans (hs s rfl)
        exact ⟨List.forall_mem_cons.2 ⟨.inr hak, hargs⟩, hs, fun h ↦ (by cases h), hk⟩

/-- Each forwarding, latest first, is of a φ that was trivial when it was added. -/
inductive Built (f : MirFunc) : List (ValueId × ValueId) → Prop
  | nil : Built f []
  | cons {d k : ValueId} {ty : MirTy} {args : List (BlockId × ValueId)} {subst : List (ValueId × ValueId)}
      (h : Built f subst) (hi : MirInst.phi d ty args ∈ f.insts) (hd : d ∉ subst.map Prod.fst)
      (hk : trivialSrc f d ty args subst = some k) : Built f ((d, k) :: subst)

namespace Built

variable {f : MirFunc}

theorem fresh (h : Built f subst) : Fresh subst := by
  induction h with
  | nil => exact .nil
  | cons h hi hd hk ih =>
    obtain ⟨-, -, hnone, hne, -⟩ := trivialArgs_eq_some hk fun s hs ↦ (by cases hs)
    obtain ⟨a, -, rfl⟩ := hnone rfl
    exact .cons hd (lookup_eq_none_iff.1 (ih.lookup_resolve a.2)) hne ih

/-- The incomings of a φ as it was forwarded. -/
theorem trivial {ty : MirTy} {args : List (BlockId × ValueId)} (h : Built f subst)
    (hk : trivialSrc f d ty args subst = some k) :
    (∀ a ∈ args, rep subst a.2 = d ∨ rep subst a.2 = k) ∧ (∃ a ∈ args, rep subst a.2 = k) ∧
      k ≠ d ∧ f.ty k = ty := by
  obtain ⟨hargs, -, hnone, hne, hty⟩ := trivialArgs_eq_some hk fun s hs ↦ (by cases hs)
  have hkept := hnone rfl
  simp only [h.fresh.resolve_eq_rep] at hargs hkept
  exact ⟨hargs, hkept, hne, hty⟩

/-- What is forwarded is a φ. -/
theorem exists_phi (h : Built f subst) (hd : d ∈ subst.map Prod.fst) :
    ∃ ty args, MirInst.phi d ty args ∈ f.insts := by
  induction h with
  | nil => cases hd
  | cons _ hi _ _ ih =>
    rcases List.mem_cons.1 hd with rfl | hd
    · exact ⟨_, _, hi⟩
    · exact ih hd

end Built

/-- What a round may add, and that a change adds something. -/
structure Grows (f : MirFunc) (subst : List (ValueId × ValueId)) (st : List (ValueId × ValueId) × Bool) :
    Prop where
  built : Built f st.1
  subset : ∀ d ∈ subst.map Prod.fst, d ∈ st.1.map Prod.fst
  new : st.2 = true → ∃ d ∈ st.1.map Prod.fst, d ∉ subst.map Prod.fst

theorem Grows.forwardInst {f : MirFunc} {st : List (ValueId × ValueId) × Bool} (h : Grows f subst st)
    {i : MirInst} (hi : i ∈ f.insts) : Grows f subst (forwardInst f st i) := by
  cases i with
  | phi d ty args =>
    simp only [Destprop.forwardInst]
    split
    · exact h
    · rename_i hd
      split
      · exact h
      · rename_i k hk
        refine ⟨h.built.cons hi hd hk, fun e he ↦ List.mem_cons_of_mem _ (h.subset e he), fun _ ↦ ?_⟩
        exact ⟨d, List.mem_cons_self, fun hmem ↦ hd (h.subset d hmem)⟩
  | _ => exact h

theorem forwardSweep_grows {f : MirFunc} (h : Built f subst) : Grows f subst (forwardSweep f subst) :=
  List.foldlRecOn f.insts _ ⟨h, fun _ hd ↦ hd, fun h ↦ (by cases h)⟩ fun _ hst _ hi ↦ hst.forwardInst hi

/-- The values not forwarded yet. -/
def waiting (f : MirFunc) (subst : List (ValueId × ValueId)) : ℕ :=
  ((f.insts.map MirInst.dest).toFinset.filter (· ∉ subst.map Prod.fst)).card

theorem waiting_forwardSweep_lt {f : MirFunc} (hb : Built f subst) (h : (forwardSweep f subst).2 = true) :
    waiting f (forwardSweep f subst).1 < waiting f subst := by
  have hg := forwardSweep_grows hb
  obtain ⟨d, hd, hnot⟩ := hg.new h
  obtain ⟨ty, args, hi⟩ := hg.built.exists_phi hd
  refine Finset.card_lt_card ((Finset.ssubset_iff_of_subset fun v hv ↦ ?_).2 ⟨d, ?_, ?_⟩)
  · rw [Finset.mem_filter] at hv ⊢
    exact ⟨hv.1, fun hmem ↦ hv.2 (hg.subset v hmem)⟩
  · exact Finset.mem_filter.2 ⟨List.mem_toFinset.2 (List.mem_map_of_mem hi), hnot⟩
  · exact fun hmem ↦ (Finset.mem_filter.1 hmem).2 hd

/-- **The sweeps end** with forwardings of trivial φs. -/
theorem exists_subst (f : MirFunc) : ∃ subst, Built f subst ∧ ∀ fuel, waiting f [] < fuel →
    repeatUntil (forwardSweep f) fuel [] = some subst := by
  have hI : ∀ subst, Built f subst → Built f (forwardSweep f subst).1 := fun _ h ↦ (forwardSweep_grows h).built
  obtain ⟨subst, hs⟩ := repeatUntil_terminates hI (waiting f) (fun _ h hc ↦ waiting_forwardSweep_lt h hc)
    .nil (Nat.lt_succ_self (waiting f []))
  obtain ⟨s, hb, -, rfl⟩ := repeatUntil_spec hI .nil hs
  exact ⟨_, hI s hb, fun fuel hfuel ↦ repeatUntil_mono hfuel hs⟩

end CoilLang.Mir.Destprop
