import CoilLang.Hir.Expr
import Mathlib.Data.List.Sort

/-!
# Decision trees for `match`

Two plans for a `match`, each run in place of **testing the arms in source order**.

`outerGroups` groups the rows by their outermost variant, so that the tag is tested once and then only
the sub-patterns of the rows with that tag. What carries the proof is that a row only ever adds to
the end of what the groups answer (`find_addRow`): it joins the group of its variant behind
the rows before it, or it is dropped behind a row that matches whatever reaches it.

`intSearch` sorts the integer literals into a table and leaves every other value to the last arm,
which is the trailing catch-all or, in a `match` that covers its values, a literal as good as one. The table
is searched by halves (`searchNode`), which finds what a search from the front finds.

A value is of the enum the patterns of its `match` are of, so its variant is told by the name alone;
at run time the tag stands for the name.
-/

namespace CoilLang.Hir

/-! ### Values and patterns -/

/-- A value a pattern is tried on; the payload of a variant has the names of its fields. -/
inductive HirVal where
  | int (n : Word)
  | variant (name : String) (payload : List (String × HirVal))
  | tuple (items : List HirVal)
  | record (fields : List (String × HirVal))

mutual

/-- Whether a pattern matches a value. -/
def HirPat.accepts : HirPat → HirVal → Bool
  | .wild, _ | .bind _, _ => true
  | .int n, .int m => n = m
  | .variant _ name, .variant v _ => name = v
  | .variantTuple _ name ps, .variant v payload => name = v && acceptsAll ps (payload.map Prod.snd)
  | .variantRecord _ name ps, .variant v payload => name = v && acceptsNamed ps payload
  | .tuple ps, .tuple vs => acceptsAll ps vs
  | .record ps, .record fs => acceptsNamed ps fs
  | _, _ => false

/-- Sub-patterns by position. -/
def acceptsAll : List HirPat → List HirVal → Bool
  | p :: ps, v :: vs => p.accepts v && acceptsAll ps vs
  | _, _ => true

/-- Sub-patterns by name; a field is tested by the first pattern of its name. -/
def acceptsNamed : List (String × HirPat) → List (String × HirVal) → Bool
  | [], _ => true
  | (name, p) :: ps, fs =>
    (match fs.lookup name with
      | some v => p.accepts v
      | none => true) && acceptsNamed ps (fs.filter (·.1 ≠ name))

end

/-- The sub-patterns of a variant pattern. -/
inductive HirPatFields where
  | unit
  | tuple (parts : List HirPat)
  | record (named : List (String × HirPat))

def HirPatFields.accepts : HirPatFields → List (String × HirVal) → Bool
  | unit, _ => true
  | tuple parts, payload => acceptsAll parts (payload.map Prod.snd)
  | record named, payload => acceptsNamed named payload

namespace HirPat

/-- The enum, the variant and the sub-patterns of a variant pattern. -/
def asVariant : HirPat → Option (String × String × HirPatFields)
  | variant e v => some (e, v, .unit)
  | variantTuple e v ps => some (e, v, .tuple ps)
  | variantRecord e v ps => some (e, v, .record ps)
  | _ => none

/-- A pattern that matches every value. -/
def any : HirPat → Bool
  | wild | bind _ => true
  | _ => false

theorem accepts_of_any {p : HirPat} (h : p.any) (v : HirVal) : p.accepts v := by
  cases p <;> simp_all [any, accepts]

theorem accepts_of_asVariant {p : HirPat} {e w : String} {fields : HirPatFields}
    (h : p.asVariant = some (e, w, fields)) (name : String) (payload : List (String × HirVal)) :
    p.accepts (.variant name payload) = (w = name && fields.accepts payload) := by
  cases p <;> cases h <;> simp [accepts, HirPatFields.accepts]

/-- A variant pattern matches variants only. -/
theorem accepts_eq_false_of_asVariant {p : HirPat} {x : String × String × HirPatFields}
    (h : p.asVariant = some x) {v : HirVal} (hv : ∀ name payload, v ≠ .variant name payload) :
    p.accepts v = false := by
  cases v with
  | variant name payload => exact absurd rfl (hv name payload)
  | _ => cases p <;> simp_all [asVariant, accepts]

end HirPat

/-- One arm: its pattern and its body. -/
structure HirArm where
  pat : HirPat
  body : ℕ

/-- The arm that testing all arms in source order runs. -/
def firstArm (arms : List HirArm) (v : HirVal) : Option HirArm := arms.find? (·.pat.accepts v)

/-! ### Groups by outer variant -/

/-- The rows of one outer variant, in source order. -/
structure Group where
  enumName : String
  variant : String
  /-- Each row's sub-patterns and its arm. -/
  rows : List (HirPatFields × HirArm)

/-- A match split by outer variant, plus the trailing catch-all arm. -/
structure OuterTree where
  groups : List Group
  catchAll : Option HirArm

/-- Every sub-pattern matches any value. -/
def irrefutable : HirPatFields → Bool
  | .unit => true
  | .tuple parts => parts.all HirPat.any
  | .record named => named.all (·.2.any)

/-- Add a row to the first group of its variant, unless it can never run; or start a group. -/
def addRow (enumName variant : String) (row : HirPatFields × HirArm) : List Group → List Group
  | [] => [⟨enumName, variant, [row]⟩]
  | g :: gs =>
    if g.variant = variant then
      (if g.rows.any (irrefutable ·.1) then g else { g with rows := g.rows ++ [row] }) :: gs
    else g :: addRow enumName variant row gs

def outerGroupsFrom : List HirArm → List Group → Option OuterTree
  | [], groups => some ⟨groups, none⟩
  | arm :: rest, groups =>
    match arm.pat.asVariant with
    | some (enumName, variant, fields) =>
      outerGroupsFrom rest (addRow enumName variant (fields, arm) groups)
    | none => if arm.pat.any && rest.isEmpty then some ⟨groups, some arm⟩ else none

/-- Group the arms, already cut after the first catch-all, by outer variant. `none` when grouping
saves nothing: a top-level pattern that is not a variant, or no variant with two rows. -/
def outerGroups (arms : List HirArm) : Option OuterTree := do
  let tree ← outerGroupsFrom arms []
  if tree.groups.any fun g ↦ 1 < g.rows.length then some tree else none

/-- The row of a variant's group that runs. -/
def findRow (groups : List Group) (name : String) (payload : List (String × HirVal)) :
    Option HirArm := do
  let g ← groups.find? (·.variant = name)
  let row ← g.rows.find? (·.1.accepts payload)
  return row.2

/-- Try the group of the value's outer variant in row order, then the catch-all. -/
def OuterTree.run (tree : OuterTree) : HirVal → Option HirArm
  | .variant name payload => (findRow tree.groups name payload).or tree.catchAll
  | _ => tree.catchAll

theorem acceptsAll_of_any {ps : List HirPat} (h : ps.all HirPat.any) (vs : List HirVal) :
    acceptsAll ps vs := by
  induction ps generalizing vs with
  | nil => rw [acceptsAll]; simp
  | cons p ps ih =>
    rw [List.all_cons, Bool.and_eq_true] at h
    cases vs with
    | nil => rw [acceptsAll]; simp
    | cons v vs =>
      rw [acceptsAll, HirPat.accepts_of_any h.1, ih h.2]
      rfl

theorem acceptsNamed_of_any {ps : List (String × HirPat)} (h : ps.all (·.2.any))
    (fs : List (String × HirVal)) : acceptsNamed ps fs := by
  induction ps generalizing fs with
  | nil => rw [acceptsNamed]
  | cons p ps ih =>
    rw [List.all_cons, Bool.and_eq_true] at h
    rw [acceptsNamed, ih h.2, Bool.and_true]
    split
    · exact HirPat.accepts_of_any h.1 _
    · rfl

theorem accepts_of_irrefutable {fields : HirPatFields} (h : irrefutable fields)
    (payload : List (String × HirVal)) : fields.accepts payload := by
  cases fields with
  | unit => rfl
  | tuple parts => exact acceptsAll_of_any h _
  | record named => exact acceptsNamed_of_any h _

/-- **A row is tried after the rows there are**, whether it is kept or dropped. -/
theorem findRow_addRow (enumName variant : String) (fields : HirPatFields) (arm : HirArm)
    (groups : List Group) (name : String) (payload : List (String × HirVal)) :
    findRow (addRow enumName variant (fields, arm) groups) name payload =
      (findRow groups name payload).or
        (if variant = name && fields.accepts payload then some arm else none) := by
  induction groups with
  | nil =>
    by_cases hv : variant = name <;> cases hf : fields.accepts payload <;>
      simp [addRow, findRow, hv, hf]
  | cons g gs ih =>
    rw [addRow]
    by_cases hg : g.variant = variant
    · rw [if_pos hg]
      by_cases hn : g.variant = name
      · -- the group of the value
        have hv : variant = name := hg.symm.trans hn
        split
        · rename_i hany
          obtain ⟨row, hrow, hirr⟩ := List.any_eq_true.1 hany
          have hsome : (g.rows.find? (·.1.accepts payload)).isSome :=
            List.find?_isSome.2 ⟨row, hrow, accepts_of_irrefutable hirr payload⟩
          obtain ⟨r, hr⟩ := Option.isSome_iff_exists.1 hsome
          simp [findRow, hn, hr]
        · cases hr : g.rows.find? (·.1.accepts payload) <;>
            cases hf : fields.accepts payload <;>
              simp [findRow, hn, hv, hr, hf, List.find?_append]
      · have hv : variant ≠ name := fun h ↦ hn (hg.trans h)
        split <;> simp [findRow, hn, hv]
    · rw [if_neg hg]
      by_cases hn : g.variant = name
      · have hv : variant ≠ name := fun h ↦ hg (hn.trans h.symm)
        simp [findRow, hn, hv]
      · simpa [findRow, hn] using ih

theorem findRow_outerGroupsFrom {arms : List HirArm} {groups : List Group} {tree : OuterTree}
    (h : outerGroupsFrom arms groups = some tree) (name : String)
    (payload : List (String × HirVal)) :
    (findRow tree.groups name payload).or tree.catchAll =
      (findRow groups name payload).or (firstArm arms (.variant name payload)) := by
  induction arms generalizing groups with
  | nil =>
    cases h
    rfl
  | cons arm rest ih =>
    rw [outerGroupsFrom] at h
    split at h
    · rename_i e w fields hpat
      rw [ih h, findRow_addRow, Option.or_assoc, firstArm, firstArm, List.find?_cons,
        HirPat.accepts_of_asVariant hpat]
      cases hm : decide (w = name) && fields.accepts payload <;> simp
    · split at h
      · rename_i hcatch
        cases h
        rw [Bool.and_eq_true] at hcatch
        simp [firstArm, HirPat.accepts_of_any hcatch.1]
      · cases h

/-- On a value that is no variant only the catch-all can match. -/
theorem catchAll_outerGroupsFrom {arms : List HirArm} {groups : List Group} {tree : OuterTree}
    (h : outerGroupsFrom arms groups = some tree) {v : HirVal}
    (hv : ∀ name payload, v ≠ .variant name payload) : tree.catchAll = firstArm arms v := by
  induction arms generalizing groups with
  | nil =>
    cases h
    rfl
  | cons arm rest ih =>
    rw [outerGroupsFrom] at h
    split at h
    · rename_i e w fields hpat
      rw [ih h, firstArm, firstArm, List.find?_cons, HirPat.accepts_eq_false_of_asVariant hpat hv]
    · split at h
      · rename_i hcatch
        cases h
        rw [Bool.and_eq_true] at hcatch
        simp [firstArm, HirPat.accepts_of_any hcatch.1]
      · cases h

theorem outerGroups_run {arms : List HirArm} {tree : OuterTree} (h : outerGroups arms = some tree)
    (v : HirVal) : tree.run v = firstArm arms v := by
  unfold outerGroups at h
  cases hfrom : outerGroupsFrom arms [] with
  | none => simp [hfrom] at h
  | some t =>
    have ht : t = tree := by
      simp only [hfrom, Option.bind_eq_bind, Option.bind_some] at h
      split at h
      · exact Option.some.inj h
      · cases h
    subst ht
    cases v with
    | variant name payload =>
      rw [OuterTree.run, findRow_outerGroupsFrom hfrom]
      rfl
    | int n => exact catchAll_outerGroupsFrom hfrom (by simp)
    | tuple items => exact catchAll_outerGroupsFrom hfrom (by simp)
    | record fields => exact catchAll_outerGroupsFrom hfrom (by simp)

/-! ### Integer literals -/

/-- Fewest literal cases worth a search. -/
def MIN_SEARCH_CASES : ℕ := 8

/-- Cases a search leaf tests one by one. -/
def SEARCH_LEAF : ℕ := 3

/-- A match on integer literals as a sorted case table. -/
structure IntSearch where
  /-- Literals and arm indices, sorted by literal, first arm per literal. -/
  cases : List (Word × ℕ)
  /-- The arm a value matching no case runs. -/
  default : ℕ

/-- The literals of the arms from index `i` on, each with its first arm. -/
def collectCases (literal : HirPat → Option Word) :
    ℕ → List HirArm → List (Word × ℕ) → Option (List (Word × ℕ))
  | _, [], cases => some cases
  | i, arm :: rest, cases =>
    match literal arm.pat with
    | some n =>
      collectCases literal (i + 1) rest
        (if cases.any (·.1 = n) then cases else cases ++ [(n, i)])
    | none => none

/-- The order of the case table: signed literals, then arms. -/
def caseLe (a b : Word × ℕ) : Bool := a.1.toInt < b.1.toInt || (a.1 = b.1 && a.2 ≤ b.2)

/-- Plan a binary search over arms whose literals `literal` gives. The default is the last arm. `none`
when some arm is neither a literal nor the trailing catch-all, or there are too few cases. -/
def intSearch (arms : List HirArm) (literal : HirPat → Option Word) : Option IntSearch := do
  let last ← arms.getLast?
  let cases ← collectCases literal 0 arms.dropLast []
  if !last.pat.any && (literal last.pat).isNone then none
  else if cases.length < MIN_SEARCH_CASES then none
  else some ⟨cases.mergeSort caseLe, arms.length - 1⟩

/-- Look a value up in the sorted cases, and take the default otherwise. -/
def IntSearch.run (plan : IntSearch) (n : Word) : ℕ := (plan.cases.lookup n).getD plan.default

/-- Whether an arm takes a value: a catch-all, or the literal itself. -/
def takes (literal : HirPat → Option Word) (n : Word) (arm : HirArm) : Bool :=
  arm.pat.any || literal arm.pat = some n

/-- The code for a search in sorted cases: split on the middle literal, and test a small leaf case
by case. -/
def searchNode (n : Word) (cases : List (Word × ℕ)) : Option ℕ :=
  if h : cases.length ≤ SEARCH_LEAF then cases.lookup n
  else
    have hlen : 3 < cases.length := Nat.lt_of_not_le h
    have hmid : cases.length / 2 < cases.length := by omega
    if n.toInt < cases[cases.length / 2].1.toInt then searchNode n (cases.take (cases.length / 2))
    else searchNode n (cases.drop (cases.length / 2))
termination_by cases.length
decreasing_by
  · rw [List.length_take]
    omega
  · rw [List.length_drop]
    omega

/-- **A case is looked up after the cases there are**, as the first arm of its literal. -/
theorem lookup_collectCases {literal : HirPat → Option Word} {i : ℕ} {arms : List HirArm}
    {cases r : List (Word × ℕ)} (h : collectCases literal i arms cases = some r) (n : Word) :
    r.lookup n = (cases.lookup n).or
      ((arms.findIdx? fun a ↦ literal a.pat = some n).map (· + i)) := by
  induction arms generalizing i cases with
  | nil =>
    cases h
    simp
  | cons arm rest ih =>
    rw [collectCases] at h
    split at h
    · rename_i m hm
      rw [ih h, List.findIdx?_cons, hm]
      by_cases hmn : m = n
      · subst hmn
        split
        · -- the literal has an arm already
          rename_i hany
          obtain ⟨c, hc, hcm⟩ := List.any_eq_true.1 hany
          have hbeq : (m == c.1) = true := beq_iff_eq.2 (of_decide_eq_true hcm).symm
          obtain ⟨j, hj⟩ := Option.isSome_iff_exists.1 (List.lookup_isSome_iff.2 ⟨c, hc, hbeq⟩)
          simp [hj]
        · rename_i hany
          have hnone : cases.lookup m = none := by
            rw [List.lookup_eq_none_iff]
            intro c hc
            exact bne_iff_ne.2 fun he ↦ hany (List.any_eq_true.2 ⟨c, hc, decide_eq_true he.symm⟩)
          simp [List.lookup_append, hnone]
      · have hcases : (if cases.any (·.1 = m) then cases else cases ++ [(m, i)]).lookup n =
            cases.lookup n := by
          split
          · rfl
          · have hbeq : (n == m) = false := beq_eq_false_iff_ne.2 (Ne.symm hmn)
            rw [List.lookup_append, List.lookup_cons, hbeq]
            exact Option.or_none
        rw [hcases]
        simp [hmn, Function.comp_def, Nat.add_comm 1, Nat.add_assoc]
    · cases h

theorem nodup_collectCases {literal : HirPat → Option Word} {i : ℕ} {arms : List HirArm}
    {cases r : List (Word × ℕ)} (h : collectCases literal i arms cases = some r)
    (hn : (cases.map Prod.fst).Nodup) : (r.map Prod.fst).Nodup := by
  induction arms generalizing i cases with
  | nil =>
    cases h
    exact hn
  | cons arm rest ih =>
    rw [collectCases] at h
    split at h
    · rename_i m hm
      refine ih h ?_
      split
      · exact hn
      · rename_i hany
        rw [List.map_append, List.nodup_append]
        refine ⟨hn, List.nodup_singleton _, fun a ha b hb hab ↦ ?_⟩
        obtain ⟨c, hc, rfl⟩ := List.mem_map.1 ha
        have hcm : c.1 = m := hab.trans (by simpa using hb)
        exact hany (List.any_eq_true.2 ⟨c, hc, decide_eq_true hcm⟩)
    · cases h

/-- Every arm the cases are collected from is a literal. -/
theorem isSome_of_collectCases {literal : HirPat → Option Word} {i : ℕ} {arms : List HirArm}
    {cases r : List (Word × ℕ)} (h : collectCases literal i arms cases = some r) :
    ∀ a ∈ arms, (literal a.pat).isSome := by
  induction arms generalizing i cases with
  | nil => simp
  | cons arm rest ih =>
    rw [collectCases] at h
    split at h
    · rename_i m hm
      intro a ha
      rcases List.mem_cons.1 ha with rfl | ha
      · rw [hm]
        rfl
      · exact ih h a ha
    · cases h

/-- With one case per literal, a lookup finds every case. -/
theorem lookup_eq_some_iff_mem {l : List (Word × ℕ)} (hn : (l.map Prod.fst).Nodup) {n : Word}
    {i : ℕ} : l.lookup n = some i ↔ (n, i) ∈ l := by
  induction l with
  | nil => simp
  | cons c l ih =>
    rw [List.map_cons, List.nodup_cons] at hn
    rw [List.lookup_cons, List.mem_cons]
    by_cases hc : n = c.1
    · have hnot : (c.1, i) ∉ l := fun h ↦ hn.1 (List.mem_map.2 ⟨_, h, rfl⟩)
      rw [beq_iff_eq.2 hc, hc]
      simp only [hnot, or_false, Option.some.injEq, Prod.ext_iff, true_and]
      exact eq_comm
    · have hne : (n, i) ≠ c := fun h ↦ hc (congrArg Prod.fst h)
      rw [beq_eq_false_iff_ne.2 hc]
      simp [hne, ih hn.2]

/-- So the order of the cases does not matter to it. -/
theorem lookup_perm {l r : List (Word × ℕ)} (hp : l.Perm r) (hn : (l.map Prod.fst).Nodup)
    (n : Word) : l.lookup n = r.lookup n := by
  refine Option.ext fun i ↦ ?_
  rw [lookup_eq_some_iff_mem hn, lookup_eq_some_iff_mem ((hp.map Prod.fst).nodup_iff.1 hn),
    hp.mem_iff]

theorem pairwise_sorted {l : List (Word × ℕ)} (hn : (l.map Prod.fst).Nodup) :
    (l.mergeSort caseLe).Pairwise fun a b ↦ a.1.toInt < b.1.toInt := by
  have hle : (l.mergeSort caseLe).Pairwise fun a b ↦ caseLe a b = true := by
    refine List.pairwise_mergeSort (fun a b c hab hbc ↦ ?_) (fun a b ↦ ?_) l
    · simp only [caseLe, Bool.or_eq_true, Bool.and_eq_true, decide_eq_true_eq] at hab hbc ⊢
      rcases hab with hab | ⟨hab, hab'⟩
      · rcases hbc with hbc | ⟨hbc, -⟩
        · exact Or.inl (hab.trans hbc)
        · exact Or.inl (hbc ▸ hab)
      · rcases hbc with hbc | ⟨hbc, hbc'⟩
        · exact Or.inl (hab ▸ hbc)
        · exact Or.inr ⟨hab.trans hbc, hab'.trans hbc'⟩
    · simp only [caseLe, Bool.or_eq_true, Bool.and_eq_true, decide_eq_true_eq]
      rcases lt_trichotomy a.1.toInt b.1.toInt with h | h | h
      · exact Or.inl (Or.inl h)
      · have he := BitVec.eq_of_toInt_eq h
        rcases le_total a.2 b.2 with h2 | h2
        · exact Or.inl (Or.inr ⟨he, h2⟩)
        · exact Or.inr (Or.inr ⟨he.symm, h2⟩)
      · exact Or.inr (Or.inl h)
  have hne : (l.mergeSort caseLe).Pairwise fun a b ↦ a.1 ≠ b.1 :=
    List.pairwise_map.1 (((List.mergeSort_perm l caseLe).map Prod.fst).nodup_iff.2 hn)
  refine (hle.and hne).imp fun {a b} h ↦ ?_
  obtain ⟨h, hne⟩ := h
  simp only [caseLe, Bool.or_eq_true, Bool.and_eq_true, decide_eq_true_eq] at h
  exact h.elim id fun h ↦ absurd h.1 hne

/-- A literal that is in no case is not found. -/
theorem lookup_eq_none {cases : List (Word × ℕ)} {n : Word} (h : ∀ c ∈ cases, c.1.toInt ≠ n.toInt) :
    cases.lookup n = none :=
  List.lookup_eq_none_iff.2 fun c hc ↦ bne_iff_ne.2 fun he ↦ h c hc (congrArg _ he.symm)

/-- **Searching by halves finds what searching from the front finds.** -/
theorem searchNode_eq_lookup {cases : List (Word × ℕ)}
    (hs : cases.Pairwise fun a b ↦ a.1.toInt < b.1.toInt) (n : Word) :
    searchNode n cases = cases.lookup n := by
  induction cases using searchNode.induct n with
  | case1 cases h => rw [searchNode, dif_pos h]
  | case2 cases h hlen hmid hlt ih =>
    have hupper : (cases.drop (cases.length / 2)).lookup n = none := by
      refine lookup_eq_none fun c hc ↦ ?_
      have hp := hs.sublist (List.drop_sublist (cases.length / 2) cases)
      rw [List.drop_eq_getElem_cons hmid] at hc hp
      rcases List.mem_cons.1 hc with rfl | hc
      · omega
      · have hlt' := (List.pairwise_cons.1 hp).1 c hc
        omega
    rw [searchNode, dif_neg h]
    rw [if_pos hlt, ih (hs.sublist (List.take_sublist _ _))]
    conv_rhs => rw [← List.take_append_drop (cases.length / 2) cases, List.lookup_append, hupper]
    exact Option.or_none.symm
  | case3 cases h hlen hmid hlt ih =>
    have hlower : (cases.take (cases.length / 2)).lookup n = none := by
      refine lookup_eq_none fun c hc ↦ ?_
      rw [← List.take_append_drop (cases.length / 2) cases, List.pairwise_append] at hs
      have hlt' := hs.2.2 c hc cases[cases.length / 2]
        (List.drop_eq_getElem_cons hmid ▸ List.mem_cons_self)
      omega
    rw [searchNode, dif_neg h]
    rw [if_neg hlt, ih (hs.sublist (List.drop_sublist _ _))]
    conv_rhs => rw [← List.take_append_drop (cases.length / 2) cases, List.lookup_append, hlower]
    exact Option.none_or.symm

/-- What a plan was made of. -/
theorem exists_of_intSearch {arms : List HirArm} {literal : HirPat → Option Word} {plan : IntSearch}
    (h : intSearch arms literal = some plan) :
    ∃ last cases, arms = arms.dropLast ++ [last] ∧
      collectCases literal 0 arms.dropLast [] = some cases ∧
      plan = ⟨cases.mergeSort caseLe, arms.length - 1⟩ := by
  unfold intSearch at h
  cases hlast : arms.getLast? with
  | none => simp [hlast] at h
  | some last =>
    cases hcases : collectCases literal 0 arms.dropLast [] with
    | none => simp [hlast, hcases] at h
    | some cases =>
      refine ⟨last, cases, (List.dropLast_append_getLast? last hlast).symm, rfl, ?_⟩
      simp only [hlast, hcases, Option.bind_eq_bind, Option.bind_some] at h
      split at h
      · cases h
      · split at h
        · cases h
        · exact (Option.some.inj h).symm

/-- Arms that are no catch-all take their literals. -/
theorem findIdx?_takes {literal : HirPat → Option Word} {n : Word} {arms : List HirArm}
    (hcut : ∀ a ∈ arms, a.pat.any = false) :
    arms.findIdx? (takes literal n) = arms.findIdx? fun a ↦ literal a.pat = some n := by
  induction arms with
  | nil => rfl
  | cons a arms ih =>
    have htakes : takes literal n a = decide (literal a.pat = some n) := by
      rw [takes, hcut a List.mem_cons_self, Bool.false_or]
    rw [List.findIdx?_cons, List.findIdx?_cons, htakes,
      ih fun b hb ↦ hcut b (List.mem_cons_of_mem _ hb)]

theorem intSearch_run {arms : List HirArm} {literal : HirPat → Option Word} {plan : IntSearch}
    (h : intSearch arms literal = some plan) (hcut : ∀ a ∈ arms.dropLast, a.pat.any = false)
    {n : Word} (hcover : ∃ a ∈ arms, takes literal n a) :
    arms.findIdx? (takes literal n) = some (plan.run n) := by
  obtain ⟨last, cases, harms, hcases, rfl⟩ := exists_of_intSearch h
  have hlookup : (cases.mergeSort caseLe).lookup n =
      arms.dropLast.findIdx? (takes literal n) := by
    have hp := List.mergeSort_perm cases caseLe
    have hn := nodup_collectCases hcases List.nodup_nil
    rw [lookup_perm hp ((hp.map Prod.fst).nodup_iff.2 hn), lookup_collectCases hcases]
    rw [findIdx?_takes hcut]
    simp
  rw [IntSearch.run, hlookup]
  cases hfind : arms.dropLast.findIdx? (takes literal n) with
  | some i =>
    rw [harms, List.findIdx?_append, hfind]
    rfl
  | none =>
    -- only the last arm is left to take the value
    have hlast : takes literal n last := by
      obtain ⟨a, ha, hta⟩ := hcover
      rw [harms, List.mem_append, List.mem_singleton] at ha
      rcases ha with ha | rfl
      · exact absurd hta (by simp [List.findIdx?_eq_none_iff.1 hfind a ha])
      · exact hta
    conv_lhs => rw [harms, List.findIdx?_append, hfind]
    simp [hlast]

/-- **Decision trees run the first arm that matches**: for arms cut after their first catch-all, the
groups and the catch-all run the arm that testing all arms in source order runs, and so does the
case table on the values its arms cover; the table is searched by halves. -/
theorem decisionTrees_spec (arms : List HirArm) (hcut : ∀ a ∈ arms.dropLast, a.pat.any = false) :
    (∀ tree, outerGroups arms = some tree → ∀ v, (∃ a ∈ arms, a.pat.accepts v) →
      tree.run v = firstArm arms v) ∧
    ∀ literal plan, intSearch arms literal = some plan →
      ∀ n, (∃ a ∈ arms, takes literal n a) →
        arms.findIdx? (takes literal n) = some (plan.run n) ∧
          searchNode n plan.cases = plan.cases.lookup n := by
  refine ⟨fun tree h v _ ↦ outerGroups_run h v, fun literal plan h n hcover ↦
    ⟨intSearch_run h hcut hcover, searchNode_eq_lookup ?_ n⟩⟩
  obtain ⟨last, cases, -, hcases, rfl⟩ := exists_of_intSearch h
  exact pairwise_sorted (nodup_collectCases hcases List.nodup_nil)

/-- Two rows of one variant around a row of another, and a catch-all. -/
theorem decisionTrees_spec_nested :
    let ok (p : HirPat) := HirPat.variantTuple "E" "Ok" [p]
    let arms : List HirArm :=
      [⟨ok (.int 1), 0⟩, ⟨.variantTuple "E" "Err" [.wild], 1⟩, ⟨ok (.int 2), 2⟩, ⟨.wild, 3⟩]
    (outerGroups arms).isSome ∧ ∀ tree, outerGroups arms = some tree → ∀ v,
      (∃ a ∈ arms, a.pat.accepts v) → tree.run v = firstArm arms v :=
  ⟨by decide, (decisionTrees_spec _ (by simp [HirPat.any])).1⟩

end CoilLang.Hir
