import CoilLang.Machine.TableHolds

/-!
# Runs on a table

**A table answers as a finite map does** over every run of insertions, lookups and removals of keys that are there
(`Store.table_refines`): no probe goes on for ever, and the entries in slot order are those of the map, each key once.

The heap interns its strings in such a table. A run of the intern table only removes keys that it has just listed, so
that **a text has at most one string**, by which it is always found (`InternRun.canonical`).
-/

namespace CoilLang.Machine.Table

variable {K V T : Type} {t : List (Entry K V)} {key : K} {val : V} {i n : ℕ}

/-! ### Looking a text up -/

theorem Holds.mem_keys {s : Store K V} {m : K → Option V} {hash : K → ℕ} (h : Holds hash s m) (key : K) :
    key ∈ s.iter.map Prod.fst ↔ (m key).isSome = true := by
  rw [List.mem_map, Option.isSome_iff_exists]
  constructor
  · rintro ⟨⟨k, v⟩, hmem, rfl⟩
    exact ⟨v, (h.iter.2.2 k v).mp hmem⟩
  · rintro ⟨v, hv⟩
    exact ⟨(key, v), (h.iter.2.2 key v).mpr hv, rfl⟩

section
variable [DecidableEq T] {text : K → T} {str : T}

/-- A walk ends with the first string of the text, or at a free slot before it. -/
theorem findLoop_eq (hcap : ∃ k, t.length = 2 ^ k) {d : ℕ} (hn : d < n)
    (hbefore : ∀ e < d, entry t ((i + e) % t.length) ≠ .free ∧
      ∀ k v, entry t ((i + e) % t.length) = .live k v → text k ≠ str) :
    (entry t ((i + d) % t.length) = .free → findLoop text t str n (i % t.length) = some none) ∧
      ∀ k v, entry t ((i + d) % t.length) = .live k v → text k = str →
        findLoop text t str n (i % t.length) = some (some k) := by
  induction d generalizing i n with
  | zero =>
    obtain ⟨n, rfl⟩ : ∃ m, n = m + 1 := ⟨n - 1, by omega⟩
    rw [Nat.add_zero]
    refine ⟨fun hfree ↦ ?_, fun k v hlive hk ↦ ?_⟩
    · rw [findLoop, hfree]
    · rw [findLoop, hlive]
      exact if_pos hk
  | succ d ih =>
    obtain ⟨n, rfl⟩ : ∃ m, n = m + 1 := ⟨n - 1, by omega⟩
    obtain ⟨hfree, hlive⟩ := hbefore 0 d.succ_pos
    rw [Nat.add_zero] at hfree hlive
    have hshift : ∀ e, i + 1 + e = i + (e + 1) := fun e ↦ by omega
    have hnext : (i % t.length + 1) &&& (t.length - 1) = (i + 1) % t.length := by
      rw [land_mask hcap, Nat.mod_add_mod]
    have hstep : findLoop text t str (n + 1) (i % t.length) = findLoop text t str n ((i + 1) % t.length) := by
      rw [findLoop, hnext]
      cases he : entry t (i % t.length) with
      | free => exact absurd he hfree
      | dead => rfl
      | live k v => exact if_neg (hlive k v he)
    rw [hstep, ← hshift d]
    refine ih (by omega) fun e he ↦ ?_
    rw [hshift]
    exact hbefore (e + 1) (by omega)

/-- What a lookup of a text answers: a key of the map with the text, if there is one. -/
def Found (text : K → T) (m : K → Option V) (str : T) (r : Option K) : Prop :=
  (∀ key, r = some key → (m key).isSome = true ∧ text key = str) ∧
    (r = none → ∀ key, (m key).isSome = true → text key ≠ str)

theorem Holds.find {s : Store K V} {m : K → Option V} {H : T → ℕ} (h : Holds (fun k ↦ H (text k)) s m) (str : T) :
    ∃ r, s.find text str (H str) = some r ∧ Found text m str r := by
  rw [Store.find]
  split
  · rename_i hlives
    refine ⟨none, rfl, fun key heq ↦ (by cases heq), fun _ key hkey ↦ ?_⟩
    rw [h.eq_none_of_lives hlives] at hkey
    cases hkey
  · rename_i hlives
    obtain ⟨hc, hfree⟩ := h.hash_chained (h.ne_nil hlives)
    obtain ⟨d, hd, hstop, hbefore⟩ := exists_first hfree (fun e ↦ ∃ k v, e = .live k v ∧ text k = str) (H str)
    have hpass : ∀ e < d, entry s.entries ((H str + e) % s.entries.length) ≠ .free ∧
        ∀ k v, entry s.entries ((H str + e) % s.entries.length) = .live k v → text k ≠ str :=
      fun e he ↦ ⟨(hbefore e he).1, fun k v hlive hk ↦ (hbefore e he).2 ⟨k, v, hlive, hk⟩⟩
    obtain ⟨hnone, hsome⟩ := findLoop_eq (n := s.cap) hc.cap hd hpass
    rw [show H str &&& (s.cap - 1) = H str % s.entries.length from land_mask hc.cap _]
    rcases hstop with hstop | ⟨k, v, hlive, hk⟩
    · refine ⟨none, hnone hstop, fun key heq ↦ (by cases heq), fun _ key hkey hkeyText ↦ ?_⟩
      -- A string of the text would be behind the free slot, where no walk comes to.
      obtain ⟨val, hval⟩ := Option.isSome_iff_exists.mp hkey
      obtain ⟨j, hj⟩ := (h.has key val).mpr hval
      obtain ⟨d', hd', rfl, hfull⟩ := hc.reach j key val hj
      rw [hkeyText] at hj hfull
      rcases lt_trichotomy d d' with hlt | rfl | hgt
      · exact hfull d hlt hstop
      · rw [hstop] at hj
        cases hj
      · exact (hpass d' hgt).2 key val hj hkeyText
    · refine ⟨some k, hsome k v hlive hk, fun key heq ↦ ?_, fun heq ↦ by cases heq⟩
      cases heq
      rw [(h.has k v).mp ⟨_, hlive⟩]
      exact ⟨rfl, hk⟩

end

/-! ### Runs -/

inductive Op (K V T : Type)
  | insert (key : K) (val : V)
  | remove (key : K)
  | get (key : K)
  | find (str : T)

inductive Out (K V : Type)
  | value (val : Option V)
  | key (key : Option K)
  deriving DecidableEq

section
variable [DecidableEq K] [DecidableEq T] (text : K → T) (H : T → ℕ)

/-- One operation; the hash of a key is that of its text. -/
def Store.exec (s : Store K V) : Op K V T → Option (Out K V × Store K V)
  | .insert key val => (s.insert (fun k ↦ H (text k)) key val).map fun r ↦ (.value r.1, r.2)
  | .remove key => (s.remove (fun k ↦ H (text k)) key).map fun r ↦ (.value r.1, r.2)
  | .get key => (s.get (fun k ↦ H (text k)) key).map fun r ↦ (.value r, s)
  | .find str => (s.find text str (H str)).map fun r ↦ (.key r, s)

def Store.run : Store K V → List (Op K V T) → Option (List (Out K V) × Store K V)
  | s, [] => some ([], s)
  | s, op :: ops => (s.exec text H op).bind fun r ↦ (run r.2 ops).map fun q ↦ (r.1 :: q.1, q.2)

/-- The map after an operation. -/
def Op.next (m : K → Option V) : Op K V T → K → Option V
  | .insert key val => Function.update m key (some val)
  | .remove key => Function.update m key none
  | _ => m

/-- Only a key that is there is removed. -/
def Op.Ready (m : K → Option V) : Op K V T → Prop
  | .remove key => (m key).isSome = true
  | _ => True

/-- What the map answers. -/
def Op.Answer (m : K → Option V) : Op K V T → Out K V → Prop
  | .insert key _, out => out = .value (m key)
  | .remove key, out => out = .value (m key)
  | .get key, out => out = .value (m key)
  | .find str, out => ∃ r, out = .key r ∧ Found text m str r

def Ready : (K → Option V) → List (Op K V T) → Prop
  | _, [] => True
  | m, op :: ops => op.Ready m ∧ Ready (op.next m) ops

def Agrees : (K → Option V) → List (Op K V T) → List (Out K V) → Prop
  | _, [], outs => outs = []
  | m, op :: ops, outs => ∃ out rest, outs = out :: rest ∧ op.Answer text m out ∧ Agrees (op.next m) ops rest

variable {text H} {s : Store K V} {m : K → Option V}

theorem Holds.exec (h : Holds (fun k ↦ H (text k)) s m) {op : Op K V T} (hready : op.Ready m) :
    ∃ out s', s.exec text H op = some (out, s') ∧ op.Answer text m out ∧ Holds (fun k ↦ H (text k)) s' (op.next m) := by
  cases op with
  | insert key val =>
    obtain ⟨s', hs', h'⟩ := h.insert key val
    exact ⟨_, s', by rw [Store.exec, hs']; rfl, rfl, h'⟩
  | remove key =>
    obtain ⟨val, hval⟩ := Option.isSome_iff_exists.mp hready
    obtain ⟨s', hs', h'⟩ := h.remove hval
    exact ⟨_, s', by rw [Store.exec, hs']; rfl, congrArg Out.value hval.symm, h'⟩
  | get key => exact ⟨_, s, by rw [Store.exec, h.get]; rfl, rfl, h⟩
  | find str =>
    obtain ⟨r, hr, hfound⟩ := h.find str
    exact ⟨_, s, by rw [Store.exec, hr]; rfl, ⟨r, rfl, hfound⟩, h⟩

theorem Holds.run (h : Holds (fun k ↦ H (text k)) s m) {ops : List (Op K V T)} (hready : Ready m ops) :
    ∃ outs s', s.run text H ops = some (outs, s') ∧ Agrees text m ops outs ∧
      Holds (fun k ↦ H (text k)) s' (ops.foldl Op.next m) := by
  induction ops generalizing s m with
  | nil => exact ⟨[], s, rfl, rfl, h⟩
  | cons op ops ih =>
    obtain ⟨out, s₁, hexec, hanswer, h₁⟩ := h.exec hready.1
    obtain ⟨outs, s₂, hrun, hagrees, h₂⟩ := ih h₁ hready.2
    refine ⟨out :: outs, s₂, ?_, ⟨out, outs, rfl, hanswer, hagrees⟩, h₂⟩
    rw [Store.run, hexec, Option.bind_some, hrun]
    rfl

/-- **A table is a finite map**, over every run in which only keys that are there are removed. -/
theorem Store.table_refines (text : K → T) (H : T → ℕ) (ops : List (Op K V T)) (hready : Ready (fun _ ↦ none) ops) :
    ∃ outs s, Store.run text H {} ops = some (outs, s) ∧ Agrees text (fun _ ↦ none) ops outs ∧
      (s.iter.map Prod.fst).Nodup ∧ s.iter.length = s.lives ∧
        ∀ key val, (key, val) ∈ s.iter ↔ ops.foldl Op.next (fun _ ↦ none) key = some val := by
  obtain ⟨outs, s, hrun, hagrees, h⟩ := (Holds.empty fun k ↦ H (text k)).run hready
  exact ⟨outs, s, hrun, hagrees, h.iter⟩

/-- A dead slot is used again. -/
theorem Store.table_refines_reuse : Ready (T := ℕ) (fun _ ↦ none)
    [.insert 1 10, .insert 9 90, .remove 1, .insert 17 170, .find 9] ∧
    ∃ outs s, Store.run (fun k ↦ k) (fun k ↦ k) ({} : Store ℕ ℕ)
      [.insert 1 10, .insert 9 90, .remove 1, .insert 17 170, .find 9] = some (outs, s) ∧
      Agrees (fun k ↦ k) (fun _ ↦ none) [.insert 1 10, .insert 9 90, .remove 1, .insert 17 170, .find 9] outs ∧
        (s.iter.map Prod.fst).Nodup ∧ s.iter.length = s.lives ∧ ∀ key val, (key, val) ∈ s.iter ↔
          List.foldl Op.next (fun _ ↦ none) [.insert 1 10, .insert 9 90, .remove 1, .insert 17 170, .find (9 : ℕ)] key =
            some val := by
  have hready : Ready (T := ℕ) (fun _ ↦ none)
      [.insert 1 10, .insert 9 90, .remove 1, .insert 17 170, .find 9] :=
    ⟨trivial, trivial, rfl, trivial, trivial, trivial⟩
  exact ⟨hready, Store.table_refines _ _ _ hready⟩

/-- In a table without a free slot the probe of a key that is not there goes on for ever. -/
theorem probeLoop_full (hcap : ∃ k, t.length = 2 ^ k) (hfull : ∀ j < t.length, entry t j ≠ .free)
    (hno : ∀ val, ¬ Has t key val) (hi : i < t.length) (dead : Option ℕ) : probeLoop t key n i dead = none := by
  induction n generalizing i dead with
  | zero => rfl
  | succ n ih =>
    have hmod : i % t.length = i := Nat.mod_eq_of_lt hi
    rw [← hmod, probeLoop_next hcap (hmod.symm ▸ hfull i hi) fun val hval ↦ hno val ⟨_, hval⟩]
    exact ih (Nat.mod_lt _ (cap_pos hcap)) _

/-- Seven removals of keys that are not there fill a table with one entry: the next lookup does not end. -/
theorem Store.run_absent : Store.run (fun k ↦ k) (fun k ↦ k) ({} : Store ℕ ℕ)
    [.insert 0 0, .remove 1, .remove 2, .remove 3, .remove 4, .remove 5, .remove 6, .remove 7, .get 8] = none := by
  decide

end

/-! ### Interning -/

section
variable [DecidableEq K] [DecidableEq T] (text : K → T) (H : T → ℕ)

/-- The string with the text: the one that is interned, else the new one. -/
def Store.intern (s : Store K Unit) (str : T) (fresh : K) : Option (K × Store K Unit) :=
  (s.find text str (H str)).bind fun r ↦
    match r with
    | some key => some (key, s)
    | none => (s.insert (fun k ↦ H (text k)) fresh ()).map fun q ↦ (fresh, q.2)

/-- Interns the string `key` itself, or an old copy of a young one, unless its text is interned already. -/
def Store.internRef (s : Store K Unit) (key copy : K) (young : Bool) : Option (K × Store K Unit) :=
  s.intern text H (text key) (if young then copy else key)

/-- Forgets the strings that are not marked. -/
def Store.unlink (marked : K → Bool) (s : Store K Unit) : Option (Store K Unit) :=
  ((s.iter.map Prod.fst).filter (!marked ·)).foldlM
    (fun s key ↦ (s.remove (fun k ↦ H (text k)) key).map Prod.snd) s

/-- The runs of the intern table. -/
inductive InternRun : Store K Unit → Prop
  | start : InternRun {}
  | intern {s s' : Store K Unit} {str : T} {fresh key : K} (hrun : InternRun s) (hfresh : text fresh = str)
    (h : s.intern text H str fresh = some (key, s')) : InternRun s'
  | internRef {s s' : Store K Unit} {key copy key' : K} {young : Bool} (hrun : InternRun s)
    (hcopy : text copy = text key) (h : s.internRef text H key copy young = some (key', s')) : InternRun s'
  | unlink {s s' : Store K Unit} {marked : K → Bool} (hrun : InternRun s)
    (h : s.unlink text H marked = some s') : InternRun s'

/-- The table holds the strings `m`, no two of one text. -/
structure Interns (s : Store K Unit) (m : K → Option Unit) : Prop where
  holds : Holds (fun k ↦ H (text k)) s m
  unique : ∀ k k', (m k).isSome = true → (m k').isSome = true → text k = text k' → k = k'

variable {text H} {s : Store K Unit} {m : K → Option Unit}

theorem Holds.removeAll {hash : K → ℕ} {keys : List K} (h : Holds hash s m) (hnodup : keys.Nodup)
    (hkeys : ∀ key ∈ keys, (m key).isSome = true) :
    ∃ s', keys.foldlM (fun s key ↦ (s.remove hash key).map Prod.snd) s = some s' ∧
      Holds hash s' fun key ↦ if key ∈ keys then none else m key := by
  induction keys generalizing s m with
  | nil => exact ⟨s, rfl, h⟩
  | cons key keys ih =>
    obtain ⟨hnot, hnodup⟩ := List.nodup_cons.mp hnodup
    obtain ⟨val, hval⟩ := Option.isSome_iff_exists.mp (hkeys key List.mem_cons_self)
    obtain ⟨s₁, hs₁, h₁⟩ := h.remove hval
    have hkeys' : ∀ k ∈ keys, (Function.update m key none k).isSome = true := by
      intro k hk
      rw [Function.update_of_ne (ne_of_mem_of_not_mem hk hnot)]
      exact hkeys k (List.mem_cons_of_mem _ hk)
    obtain ⟨s₂, hs₂, h₂⟩ := ih h₁ hnodup hkeys'
    refine ⟨s₂, ?_, ?_⟩
    · rw [List.foldlM_cons, hs₁]
      exact hs₂
    · refine h₂.congr fun k ↦ ?_
      rw [Function.update_apply]
      by_cases hk : k = key <;> by_cases hmem : k ∈ keys <;> simp [hk, hmem]

namespace Interns

omit [DecidableEq K] [DecidableEq T] in
/-- Only the texts of the interned strings matter. -/
theorem congr {text' : K → T} (h : Interns text H s m) (heq : ∀ key, (m key).isSome = true → text key = text' key) :
    Interns text' H s m where
  holds := h.holds.congr_hash fun key hkey ↦ congrArg H (heq key hkey)
  unique k k' hk hk' htext := h.unique k k' hk hk' ((heq k hk).trans (htext.trans (heq k' hk').symm))

omit [DecidableEq K] in
theorem find (h : Interns text H s m) (str : T) : ∃ r, s.find text str (H str) = some r ∧
    ∀ key, r = some key ↔ (m key).isSome = true ∧ text key = str := by
  obtain ⟨r, hr, hsome, hnone⟩ := h.holds.find str
  refine ⟨r, hr, fun key ↦ ⟨hsome key, fun hkey ↦ ?_⟩⟩
  cases hcase : r with
  | none => exact absurd hkey.2 (hnone hcase key hkey.1)
  | some key' =>
    obtain ⟨hmem, htext⟩ := hsome key' hcase
    rw [h.unique key' key hmem hkey.1 (htext.trans hkey.2.symm)]

omit [DecidableEq T] in
/-- A string is put in whose text is new. -/
theorem insert (h : Interns text H s m) {fresh : K} (hno : ∀ key, (m key).isSome = true → text key ≠ text fresh) :
    ∃ old s', s.insert (fun k ↦ H (text k)) fresh () = some (old, s') ∧
      Interns text H s' (Function.update m fresh (some ())) := by
  obtain ⟨s', hs', h'⟩ := h.holds.insert fresh ()
  refine ⟨_, s', hs', h', fun k k' hk hk' heq ↦ ?_⟩
  rw [Function.update_apply] at hk hk'
  split at hk <;> split at hk'
  · simp [*]
  · rename_i hk₀ _
    exact absurd (heq.symm.trans (congrArg text hk₀)) (hno k' hk')
  · rename_i hk₀
    exact absurd (heq.trans (congrArg text hk₀)) (hno k hk)
  · exact h.unique k k' hk hk' heq

theorem intern_of_none (h : Interns text H s m) {str : T} {fresh : K} (hfresh : text fresh = str)
    (hnone : s.find text str (H str) = some none) : ∃ s', s.intern text H str fresh = some (fresh, s') ∧
      Interns text H s' (Function.update m fresh (some ())) := by
  obtain ⟨r, hr, hfound⟩ := h.find str
  cases hr.symm.trans hnone
  have hno : ∀ key, (m key).isSome = true → text key ≠ text fresh := by
    intro key hkey htext
    cases (hfound key).mpr ⟨hkey, htext.trans hfresh⟩
  obtain ⟨old, s', hs', h'⟩ := h.insert hno
  exact ⟨s', by rw [Store.intern, hnone, Option.bind_some, hs']; rfl, h'⟩

theorem intern (h : Interns text H s m) {str : T} {fresh : K} (hfresh : text fresh = str) :
    ∃ key s', s.intern text H str fresh = some (key, s') ∧ text key = str ∧
      Interns text H s' (Function.update m key (some ())) := by
  obtain ⟨r, hr, hfound⟩ := h.find str
  cases r with
  | some key =>
    obtain ⟨hkey, htext⟩ := (hfound key).mp rfl
    refine ⟨key, s, by rw [Store.intern, hr]; rfl, htext, ?_⟩
    have hsame : Function.update m key (some ()) = m := by
      rw [Function.update_eq_self_iff]
      obtain ⟨⟨⟩, hval⟩ := Option.isSome_iff_exists.mp hkey
      exact hval.symm
    rwa [hsame]
  | none =>
    obtain ⟨s', hs', h'⟩ := h.intern_of_none hfresh hr
    exact ⟨fresh, s', hs', hfresh, h'⟩

omit [DecidableEq T] in
theorem unlink (h : Interns text H s m) (marked : K → Bool) : ∃ s', s.unlink text H marked = some s' ∧
    Interns text H s' fun key ↦ if marked key then m key else none := by
  obtain ⟨hnodup, -⟩ := h.holds.iter
  obtain ⟨s', hs', h'⟩ := h.holds.removeAll (hnodup.filter (!marked ·)) fun key hkey ↦
    (h.holds.mem_keys key).mp (List.mem_of_mem_filter hkey)
  have hmap : ∀ key, (if key ∈ (s.iter.map Prod.fst).filter (!marked ·) then none else m key) =
      if marked key then m key else none := by
    intro key
    simp only [List.mem_filter, h.holds.mem_keys]
    cases marked key <;> cases m key <;> rfl
  refine ⟨s', hs', h'.congr hmap, fun k k' hk hk' heq ↦ ?_⟩
  split at hk <;> split at hk'
  · exact h.unique k k' hk hk' heq
  · cases hk'
  · cases hk
  · cases hk

end Interns

theorem InternRun.interns (hrun : InternRun text H s) : ∃ m, Interns text H s m := by
  induction hrun with
  | start => exact ⟨_, Holds.empty _, fun k k' hk ↦ by cases hk⟩
  | intern _ hfresh h ih =>
    obtain ⟨m, hm⟩ := ih
    obtain ⟨key, s', hs', -, h'⟩ := hm.intern hfresh
    cases h.symm.trans hs'
    exact ⟨_, h'⟩
  | @internRef s s' key copy key' young _ hcopy h ih =>
    obtain ⟨m, hm⟩ := ih
    have htext : text (if young then copy else key) = text key := by
      split
      · exact hcopy
      · rfl
    obtain ⟨key, s', hs', -, h'⟩ := hm.intern htext
    cases h.symm.trans hs'
    exact ⟨_, h'⟩
  | unlink _ h ih =>
    obtain ⟨m, hm⟩ := ih
    obtain ⟨s', hs', h'⟩ := hm.unlink _
    cases h.symm.trans hs'
    exact ⟨_, h'⟩

/-- **A text has at most one interned string**, and every operation of the intern table ends. A lookup finds the
string of the text if there is one, interning adds no second one, and what is unlinked are the unmarked strings. -/
theorem InternRun.canonical (hrun : InternRun text H s) :
    (∀ str, ∃ r, s.find text str (H str) = some r ∧
      ∀ key, r = some key ↔ key ∈ s.iter.map Prod.fst ∧ text key = str) ∧
    (∀ str fresh, text fresh = str → ∃ key s', s.intern text H str fresh = some (key, s') ∧ text key = str ∧
      ∀ k, k ∈ s'.iter.map Prod.fst ↔ k = key ∨ k ∈ s.iter.map Prod.fst) ∧
    ∀ marked, ∃ s', s.unlink text H marked = some s' ∧
      ∀ key, key ∈ s'.iter.map Prod.fst ↔ key ∈ s.iter.map Prod.fst ∧ marked key = true := by
  obtain ⟨m, hm⟩ := hrun.interns
  refine ⟨fun str ↦ ?_, fun str fresh hfresh ↦ ?_, fun marked ↦ ?_⟩
  · obtain ⟨r, hr, hfound⟩ := hm.find str
    refine ⟨r, hr, fun key ↦ ?_⟩
    rw [hfound, hm.holds.mem_keys]
  · obtain ⟨key, s', hs', htext, h'⟩ := hm.intern hfresh
    refine ⟨key, s', hs', htext, fun k ↦ ?_⟩
    rw [h'.holds.mem_keys, hm.holds.mem_keys, Function.update_apply]
    split
    · rename_i hk
      simp [hk]
    · rename_i hk
      simp [hk]
  · obtain ⟨s', hs', h'⟩ := hm.unlink marked
    refine ⟨s', hs', fun key ↦ ?_⟩
    rw [h'.holds.mem_keys, hm.holds.mem_keys]
    cases marked key <;> simp

/-- A second string of one text is not interned. -/
theorem InternRun.canonical_twice : ∃ s : Store ℕ Unit, InternRun (fun k ↦ k % 4) (fun n ↦ n) s ∧
    s.iter = [(1, ()), (2, ())] ∧
    (∀ str, ∃ r, s.find (fun k ↦ k % 4) str str = some r ∧
      ∀ key, r = some key ↔ key ∈ s.iter.map Prod.fst ∧ key % 4 = str) ∧
    (∀ str fresh, fresh % 4 = str → ∃ key s', s.intern (fun k ↦ k % 4) (fun n ↦ n) str fresh = some (key, s') ∧
      key % 4 = str ∧ ∀ k, k ∈ s'.iter.map Prod.fst ↔ k = key ∨ k ∈ s.iter.map Prod.fst) ∧
    ∀ marked, ∃ s', s.unlink (fun k ↦ k % 4) (fun n ↦ n) marked = some s' ∧
      ∀ key, key ∈ s'.iter.map Prod.fst ↔ key ∈ s.iter.map Prod.fst ∧ marked key = true := by
  obtain ⟨s₁, s₂, s₃, h₁, h₂, h₃, hiter⟩ : ∃ s₁ s₂ s₃ : Store ℕ Unit,
      Store.intern (fun k ↦ k % 4) (fun n ↦ n) {} 1 1 = some (1, s₁) ∧
        s₁.intern (fun k ↦ k % 4) (fun n ↦ n) 1 5 = some (1, s₂) ∧
          s₂.intern (fun k ↦ k % 4) (fun n ↦ n) 2 2 = some (2, s₃) ∧ s₃.iter = [(1, ()), (2, ())] :=
    ⟨_, _, _, rfl, rfl, rfl, rfl⟩
  have hrun : InternRun (fun k : ℕ ↦ k % 4) (fun n ↦ n) s₃ :=
    .intern (.intern (.intern .start (by decide) h₁) (by decide) h₂) (by decide) h₃
  exact ⟨s₃, hrun, hiter, hrun.canonical⟩

end

end CoilLang.Machine.Table
