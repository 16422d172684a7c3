import CoilLang.Hir.Frame

/-!
# Unrolling keeps what a body does

A copy of the body of a loop runs without the counter: it has the literal wherever the body reads it. So the
runs of a trip and of its copy are compared in states that **differ at the counter only** (`Tracks`). The
counter is captured by nothing, so the difference is gone when a trap leaves the body.
-/

namespace CoilLang.Hir

variable {H P W α β : Type}

namespace State

theorem set_env_self (s : State H W) (i : LocalId) (x : Value H) : (s.set i x).env i = x := if_pos rfl

theorem set_env_of_ne (s : State H W) {i l : LocalId} (x : Value H) (h : l ≠ i) : (s.set i x).env l = s.env l := if_neg h

theorem set_self {s : State H W} {i : LocalId} {x : Value H} (h : s.env i = x) : s.set i x = s := by
  refine State.ext (funext fun l ↦ ?_) rfl
  by_cases hl : l = i
  · rw [hl, set_env_self, h]
  · exact set_env_of_ne s x hl

theorem set_set (s : State H W) (i : LocalId) (x y : Value H) : (s.set i x).set i y = s.set i y := by
  refine State.ext (funext fun l ↦ ?_) rfl
  by_cases hl : l = i
  · rw [hl, set_env_self, set_env_self]
  · rw [set_env_of_ne _ _ hl, set_env_of_ne _ _ hl, set_env_of_ne _ _ hl]

theorem set_comm (s : State H W) {i l : LocalId} (x y : Value H) (h : l ≠ i) : (s.set i x).set l y = (s.set l y).set i x := by
  refine State.ext (funext fun k ↦ ?_) rfl
  by_cases hk : k = l
  · rw [hk, set_env_self, set_env_of_ne _ _ h, set_env_self]
  · rw [set_env_of_ne _ _ hk]
    by_cases hki : k = i
    · rw [hki, set_env_self, set_env_self]
    · rw [set_env_of_ne _ _ hki, set_env_of_ne _ _ hki, set_env_of_ne _ _ hk]

theorem onlyKeep_set {keep : LocalId → Bool} {i : LocalId} (hi : keep i = false) (s : State H W) (x : Value H) :
    (s.set i x).onlyKeep keep = s.onlyKeep keep := by
  refine State.ext (funext fun l ↦ ?_) rfl
  by_cases hl : keep l = true
  · have hne : l ≠ i := fun h ↦ by rw [h, hi] at hl; cases hl
    show (if keep l then (s.set i x).env l else _) = if keep l then s.env l else _
    rw [if_pos hl, if_pos hl, set_env_of_ne _ _ hne]
  · show (if keep l then (s.set i x).env l else _) = if keep l then s.env l else _
    rw [if_neg hl, if_neg hl]

end State

/-- The same result with another value of the counter; nothing is left of it after an exit. -/
def carry (i : LocalId) (x : Value H) : Except (Exit H P) α × State H W → Except (Exit H P) α × State H W
  | (.ok a, t) => (.ok a, t.set i x)
  | (.error e, t) => (.error e, t)

/-- `m'` does without the local what `m` does with the value `v` of it, and both leave only by a trap. -/
structure Tracks (i : LocalId) (v : Value H) (m m' : Run H P W α) : Prop where
  run : ∀ s x, s.env i = v → m' (s.set i x) = (m s).map (carry i x)
  keep : Keeps i m
  exits : ∀ s e t, (.error e, t) ∈ m s → e.isTrap = true

theorem bind_congr_mem {γ δ : Type} {o : Part γ} {f g : γ → Part δ} (h : ∀ a ∈ o, f a = g a) : o.bind f = o.bind g := by
  refine Part.ext fun d ↦ ?_
  rw [Part.mem_bind_iff, Part.mem_bind_iff]
  exact ⟨fun ⟨a, ha, hd⟩ ↦ ⟨a, ha, h a ha ▸ hd⟩, fun ⟨a, ha, hd⟩ ↦ ⟨a, ha, (h a ha).symm ▸ hd⟩⟩

namespace Tracks

variable {i : LocalId} {v : Value H}

theorem pure (a : α) : Tracks i v (pure a : Run H P W α) (pure a) where
  run s x _ := by rw [Run.pure_apply, Run.pure_apply, Part.map_some, carry]
  keep := .pure a
  exits s e t h := by cases Part.mem_some_iff.mp h

theorem bind {m m' : Run H P W α} {f f' : α → Run H P W β} (hm : Tracks i v m m') (hf : ∀ a, Tracks i v (f a) (f' a)) :
    Tracks i v (m >>= f) (m' >>= f') where
  run s x hs := by
    rw [Run.bind_apply, Run.bind_apply, hm.run s x hs, Part.bind_map, Part.map_bind]
    refine bind_congr_mem fun r hr ↦ ?_
    obtain ⟨q, t⟩ := r
    cases q with
    | ok a => exact (hf a).run t x ((hm.keep s _ hr trivial).trans hs)
    | error e => rw [carry, Run.andThen, Run.andThen, Part.map_some, carry]
  keep := hm.keep.bind fun a ↦ (hf a).keep
  exits s e t h := by
    obtain ⟨⟨q, u⟩, hq, h⟩ := Part.mem_bind_iff.mp h
    cases q with
    | ok a => exact (hf a).exits u e t h
    | error e' =>
      cases Part.mem_some_iff.mp h
      exact hm.exits s e t hq

theorem trap {keep : LocalId → Bool} (hi : keep i = false) (t : Trap P) :
    Tracks i v (Run.trap keep t : Run H P W α) (Run.trap keep t) where
  run s x _ := by rw [Run.trap, Run.trap, Part.map_some, carry, State.onlyKeep_set hi]
  keep := .trap keep t
  exits s e u h := by
    cases Part.mem_some_iff.mp h
    rfl

theorem host {keep : LocalId → Bool} (hi : keep i = false) (f : W → Except P α × W) :
    Tracks i v (Run.host keep f : Run H P W α) (Run.host keep f) where
  run s x _ := by
    have hworld : (s.set i x).world = s.world := rfl
    rw [Run.host, Run.host, hworld]
    split
    · rfl
    · rename_i p w _
      have hkept : ({ s.set i x with world := w } : State H W).onlyKeep keep = ({ s with world := w } : State H W).onlyKeep keep :=
        State.onlyKeep_set hi { s with world := w } x
      rw [Part.map_some, carry, hkept]
  keep := .host keep f
  exits s e u h := by
    unfold Run.host at h
    split at h
    · cases Part.mem_some_iff.mp h
    · cases Part.mem_some_iff.mp h
      rfl

theorem look {keep : LocalId → Bool} (hi : keep i = false) {f : W → Option α} {k k' : α → Run H P W β}
    (hk : ∀ w a, f w = some a → Tracks i v (k a) (k' a)) :
    Tracks i v (Run.look keep f >>= k) (Run.look keep f >>= k') where
  run s x hs := by
    cases h : f s.world with
    | some a =>
      have h' : f (s.set i x).world = some a := h
      exact (Run.look_bind_some h').trans (((hk _ a h).run s x hs).trans (by rw [Run.look_bind_some h]))
    | none =>
      have h' : f (s.set i x).world = none := h
      refine (Run.look_bind_none h').trans ?_
      rw [Run.look_bind_none h, Part.map_some, carry, State.onlyKeep_set hi]
  keep := .look fun w a h ↦ (hk w a h).keep
  exits s e t h := by
    cases hf : f s.world with
    | some a =>
      rw [Run.look_bind_some hf] at h
      exact (hk _ a hf).exits s e t h
    | none =>
      rw [Run.look_bind_none hf] at h
      cases Part.mem_some_iff.mp h
      rfl

theorem read {l : LocalId} (hl : l ≠ i) : Tracks i v (Run.read l : Run H P W (Value H)) (Run.read l) where
  run s x _ := by rw [Run.read, Run.read, Part.map_some, carry, State.set_env_of_ne s x hl]
  keep := .read l
  exits s e t h := by cases Part.mem_some_iff.mp h

/-- Where the local is read, the value stands in for it. -/
theorem readCounter : Tracks i v (Run.read i : Run H P W (Value H)) (Pure.pure v) where
  run s x hs := by rw [Run.pure_apply, Run.read, Part.map_some, carry, hs]
  keep := .read i
  exits s e t h := by cases Part.mem_some_iff.mp h

theorem write {l : LocalId} (y : Value H) (hl : l ≠ i) : Tracks i v (Run.write l y : Run H P W Unit) (Run.write l y) where
  run s x _ := by rw [Run.write, Run.write, Part.map_some, carry, State.set_comm s x y hl]
  keep := .write y hl
  exits s e t h := by cases Part.mem_some_iff.mp h

end Tracks

/-- Runs with and without the counter. -/
def tracksRel (c : Ctx H P W) {i : LocalId} (hi : c.captured i = false) (v : Value H) : RunRel c where
  rel := Tracks i v
  reads l := l ≠ i
  writes l := l ≠ i
  control := False
  pure := .pure
  bind := .bind
  trap := .trap hi
  host := .host hi
  look _ := .look hi
  read := .read
  write := .write
  exit _ h := h.elim
  loop h := h.elim
  forIn _ h := h.elim
  deferring _ h := h.elim

/-! ### Copies -/

theorem copyAll_eq (i : LocalId) (n : Word) (es : List HirExpr) : copyAll i n es = es.map (copy i n) := by
  induction es with
  | nil => rfl
  | cons e es ih => rw [copyAll, ih, List.map_cons]

/-- A tree that `plain` accepts as a part of the body of a loop. -/
structure Straight (i : LocalId) (e : HirExpr) : Prop where
  writes : writes e i = false
  leaves : ∀ x ∈ e.nodes, x.kind.leaves = false

theorem Straight.child {i : LocalId} {e x : HirExpr} (h : Straight i e) (hx : x ∈ e.children) : Straight i x :=
  ⟨writes_child h.writes hx, fun y hy ↦ h.leaves y (HirExpr.mem_nodes_of_child hx y hy)⟩

section
variable (c : Ctx H P W) {i : LocalId} (hi : c.captured i = false)

theorem tracksRel_allows (v : Value H) {ty : Option Ty} {flags : HirFlags} {k : HirKind} {es : List HirExpr}
    (h : Straight i (.node ty flags k es)) (hk : k ≠ .loc i) : (tracksRel c hi v).Allows k (es.map c.den) := by
  have hwrites := writes_eq_false.mp h.writes _ (HirExpr.mem_nodes_self _)
  have hleaves : k.leaves = false := h.leaves _ (HirExpr.mem_nodes_self _)
  have hkeeps := keepsRel_allows c hwrites
  cases k with
  | loc l => exact fun hl ↦ hk (hl ▸ rfl)
  | letLocal l => exact hkeeps
  | assign => exact fun m hm l hl ↦ ⟨(hkeeps m hm l hl).2, (hkeeps m hm l hl).2⟩
  | clear ls => exact hkeeps
  | letPat p => cases hwrites
  | matchOn ps => cases hwrites
  | lambda body => cases hwrites
  | loop => cases hleaves
  | forIn p kind => cases hleaves
  | brk => cases hleaves
  | cont => cases hleaves
  | ret => cases hleaves
  | defer captures => cases hleaves
  | _ => exact trivial

/-- **A copy does without the counter what the tree does with it.** -/
theorem tracks_copy (n : Word) (e : HirExpr) (h : Straight i e) :
    (tracksRel c hi (.int n)).NodeRel (c.den e) (c.den (copy i n e)) := by
  induction e using HirExpr.induction with
  | h ty flags kind children ih =>
    rw [copy]
    split
    · rename_i hloc
      have hkind : kind = .loc i := HirExpr.isLoc_iff.mp hloc
      rw [hkind, Ctx.den_node, Ctx.den_node]
      exact ⟨.readCounter, .hidden fun hne ↦ hne rfl⟩
    · rename_i hloc
      rw [copyAll_eq]
      refine RunRel.node (tracksRel_allows c hi _ h fun hk ↦ hloc (HirExpr.isLoc_iff.mpr hk)) ?_
      exact List.forall₂_map_right_iff.mpr (List.forall₂_same.mpr fun x hx ↦ ih x hx (h.child hx))

end

/-! ### Statements in a row -/

namespace Run

theorem bind_assoc {γ : Type} (m : Run H P W α) (f : α → Run H P W β) (g : β → Run H P W γ) :
    (m >>= f) >>= g = m >>= fun a ↦ f a >>= g := by
  funext s
  rw [bind_apply, bind_apply, bind_apply, Part.bind_assoc]
  refine bind_congr_mem fun r _ ↦ ?_
  obtain ⟨q, t⟩ := r
  cases q with
  | ok a => rfl
  | error e => rw [andThen, Part.bind_some, andThen, andThen]

theorem pure_bind (a : α) (f : α → Run H P W β) : pure a >>= f = f a := by
  funext s
  rw [bind_apply, pure_apply, Part.bind_some, andThen]

/-- One after the other, for what they do. -/
def seq : List (Run H P W α) → Run H P W Unit
  | [] => pure ()
  | m :: ms => m >>= fun _ ↦ seq ms

theorem seq_append (ms ns : List (Run H P W α)) : seq (ms ++ ns) = seq ms >>= fun _ ↦ seq ns := by
  induction ms with
  | nil => rw [List.nil_append, seq, pure_bind]
  | cons m ms ih => rw [List.cons_append, seq, ih, seq, bind_assoc]

theorem keeps_seq {i : LocalId} {ms : List (Run H P W α)} (h : ∀ m ∈ ms, Keeps i m) : Keeps i (seq ms) := by
  induction ms with
  | nil => exact .pure ()
  | cons m ms ih =>
    exact (h m List.mem_cons_self).bind fun _ ↦ ih fun n hn ↦ h n (List.mem_cons_of_mem m hn)

end Run

namespace Ctx

variable (c : Ctx H P W)

theorem seq_runs_cons (m : Meaning (Run H P W (Value H))) (ms : List (Meaning (Run H P W (Value H)))) :
    Run.seq (Meaning.runs (m :: ms)) = m.run >>= fun _ ↦ Run.seq (Meaning.runs ms) := rfl

/-- A block without `defer` runs its statements; only its value depends on the tail. -/
theorem block_discard (tail : Bool) {ms : List (Meaning (Run H P W (Value H)))}
    (h : ∀ m ∈ ms, ∀ captures d, m.shape ≠ .defer captures d) {γ : Type} (a : γ) :
    (c.block tail ms >>= fun _ ↦ pure a) = Run.seq (Meaning.runs ms) >>= fun _ ↦ pure a := by
  induction ms with
  | nil =>
    show ((pure .unit : Run H P W (Value H)) >>= fun _ ↦ pure a) = (pure () : Run H P W Unit) >>= fun _ ↦ pure a
    rw [Run.pure_bind, Run.pure_bind]
  | cons m ms ih =>
    rw [block]
    split
    · rename_i captures d hd
      exact absurd hd (h m List.mem_cons_self captures d)
    · rw [seq_runs_cons, Run.bind_assoc]
      split
      · rename_i hlast
        rw [List.isEmpty_iff.mp hlast.2]
        show _ = m.run >>= fun _ ↦ pure () >>= fun _ ↦ pure a
        simp only [Run.pure_bind]
      · rw [Run.bind_assoc, ih fun n hn ↦ h n (List.mem_cons_of_mem m hn)]

theorem block_false {ms : List (Meaning (Run H P W (Value H)))} (h : ∀ m ∈ ms, ∀ captures d, m.shape ≠ .defer captures d) :
    c.block false ms = Run.seq (Meaning.runs ms) >>= fun _ ↦ pure .unit := by
  induction ms with
  | nil =>
    show c.block false [] = (pure () : Run H P W Unit) >>= fun _ ↦ (pure .unit : Run H P W (Value H))
    rw [Run.pure_bind, block]
  | cons m ms ih =>
    rw [block]
    split
    · rename_i captures d hd
      exact absurd hd (h m List.mem_cons_self captures d)
    · rw [if_neg (by simp), ih fun n hn ↦ h n (List.mem_cons_of_mem m hn), seq_runs_cons, Run.bind_assoc]

end Ctx

/-! ### One trip -/

theorem litInt_eq_some {e : HirExpr} {n : Word} : e.litInt = some n ↔ e.kind = .lit (.int n) := by
  obtain ⟨ty, flags, kind, children⟩ := e
  show HirExpr.litInt (.node ty flags kind children) = some n ↔ kind = .lit (.int n)
  cases kind with
  | lit l =>
    cases l with
    | int m => exact ⟨fun h ↦ (by cases h; rfl), fun h ↦ (by cases h; rfl)⟩
    | _ => exact ⟨fun h ↦ (by cases h), fun h ↦ (by cases h)⟩
  | _ => exact ⟨fun h ↦ (by cases h), fun h ↦ (by cases h)⟩

/-- The statement that steps the counter. -/
theorem bump_cases {i : LocalId} {e : HirExpr} (h : bump i e = true) : ∃ ty flags place ty' flags' lhs rhs,
    e = .node ty flags .assign [place, .node ty' flags' (.bin .intAdd) [lhs, rhs]] ∧
      place.kind = .loc i ∧ lhs.kind = .loc i ∧ rhs.litInt = some 1 := by
  unfold bump at h
  split at h
  · rename_i ty flags place ty' flags' lhs rhs
    rw [Bool.and_eq_true, Bool.and_eq_true, HirExpr.isLoc_iff, HirExpr.isLoc_iff, beq_iff_eq] at h
    exact ⟨ty, flags, place, ty', flags', lhs, rhs, rfl, h.1.1, h.1.2, h.2⟩
  · cases h

section
variable (c : Ctx H P W) {i : LocalId}

theorem eval_loc {e : HirExpr} (h : e.kind = .loc i) : c.eval e = Run.read i := by
  obtain ⟨ty, flags, kind, children⟩ := e
  cases (h : kind = .loc i)
  rw [Ctx.eval, Ctx.den_node, Ctx.sem]

theorem eval_litInt {e : HirExpr} {n : Word} (h : e.litInt = some n) : c.eval e = pure (.int n) := by
  obtain ⟨ty, flags, kind, children⟩ := e
  cases litInt_eq_some.mp h
  rw [Ctx.eval, Ctx.den_node]
  rfl

theorem eval_bin (ty : Option Ty) (flags : HirFlags) (op : BinOp) (lhs rhs : HirExpr) :
    c.eval (.node ty flags (.bin op) [lhs, rhs]) = c.eval lhs >>= fun x ↦ c.eval rhs >>= fun y ↦ c.bin op ty x y := by
  rw [Ctx.eval, Ctx.den_node]
  rfl

/-- Two expressions that give an integer and change nothing are compared or added. -/
theorem eval_bin_some {ty : Option Ty} {flags : HirFlags} {op : BinOp} {lhs rhs : HirExpr} {s : State H W} {a b : Word}
    (ha : c.eval lhs s = .some (.ok (.int a), s)) (hb : c.eval rhs s = .some (.ok (.int b), s)) :
    c.eval (.node ty flags (.bin op) [lhs, rhs]) s = c.bin op ty (.int a) (.int b) s := by
  rw [eval_bin, Run.bind_some ha, Run.bind_some hb]

theorem read_apply {s : State H W} {v : Value H} (h : s.env i = v) : (Run.read i : Run H P W (Value H)) s = .some (.ok v, s) := by
  rw [Run.read, h]

theorem eval_assign_loc {ty : Option Ty} {flags : HirFlags} {place value : HirExpr} (h : place.kind = .loc i) :
    c.eval (.node ty flags .assign [place, value]) = Run.read i >>= fun old ↦ c.eval value >>= fun v ↦
      Run.write i v >>= fun _ ↦ pure (Ctx.shown ty flags old v) := by
  have hshape : (c.den place).shape = .loc i := shape_den_eq_loc.mpr h
  rw [Ctx.eval, Ctx.den_node]
  show c.assign ty flags (c.den place) (c.den value) = _
  rw [Ctx.assign, hshape]
  rfl

theorem eval_assign_lit (ty : Option Ty) (flags : HirFlags) {place value : HirExpr} {n : Word} (h : place.kind = .loc i)
    (hvalue : value.litInt = some n) (s : State H W) :
    c.eval (.node ty flags .assign [place, value]) s =
      .some (.ok (Ctx.shown ty flags (s.env i) (.int n)), s.set i (.int n)) := by
  rw [eval_assign_loc c h, eval_litInt c hvalue, Run.bind_some (read_apply rfl), Run.pure_bind]
  exact Run.bind_some rfl

theorem add_one_of_lt {n : Word} (h : n.toInt + 1 < 2 ^ 63) : IntArith.add n 1 = .ok (n + 1) := by
  have hlo : -2 ^ 63 ≤ n.toInt := BitVec.le_toInt n
  show IntArith.checked (n.toInt + 1) = _
  rw [IntArith.checked, if_pos ⟨by omega, h⟩]
  congr 1
  rw [BitVec.ofInt_add, BitVec.ofInt_toInt]
  rfl

theorem add_one_of_not_lt {n : Word} (h : ¬ n.toInt + 1 < 2 ^ 63) : IntArith.add n 1 = .error .overflow := by
  show IntArith.checked (n.toInt + 1) = _
  rw [IntArith.checked, if_neg fun hr ↦ h hr.2]

/-- The counter steps, or its step overflows. -/
theorem eval_bump {e : HirExpr} (h : bump i e = true) {s : State H W} {n : Word} (hs : s.env i = .int n) :
    ∃ v, c.eval e s = if n.toInt + 1 < 2 ^ 63 then .some (.ok v, s.set i (.int (n + 1)))
      else .some (.error (.trap (.int .overflow)), s.onlyKeep c.captured) := by
  obtain ⟨ty, flags, place, ty', flags', lhs, rhs, rfl, hplace, hlhs, hrhs⟩ := bump_cases h
  have hvalue : c.eval (.node ty' flags' (.bin .intAdd) [lhs, rhs]) s = c.arith (IntArith.add n 1) s := by
    rw [eval_bin_some c (by rw [eval_loc c hlhs, read_apply hs]) (by rw [eval_litInt c hrhs, Run.pure_apply])]
    rfl
  refine ⟨Ctx.shown ty flags (.int n) (.int (n + 1)), ?_⟩
  rw [eval_assign_loc c hplace, Run.bind_some (read_apply hs)]
  split
  · rename_i hlt
    rw [add_one_of_lt hlt] at hvalue
    rw [Run.bind_some hvalue]
    exact Run.bind_some rfl
  · rename_i hlt
    rw [add_one_of_not_lt hlt] at hvalue
    rw [Run.bind_error hvalue]

/-- What `plain` asks of the statements of a body. -/
structure PlainStmts (i : LocalId) (stmts : List HirExpr) : Prop where
  write : ∀ s ∈ stmts, bump i s = true ∨ writes s i = false
  leaves : ∀ s ∈ stmts, ∀ x ∈ s.nodes, x.kind.leaves = false

theorem PlainStmts.tail {s : HirExpr} {stmts : List HirExpr} (h : PlainStmts i (s :: stmts)) : PlainStmts i stmts :=
  ⟨fun x hx ↦ h.write x (List.mem_cons_of_mem s hx), fun x hx ↦ h.leaves x (List.mem_cons_of_mem s hx)⟩

theorem PlainStmts.straight {s : HirExpr} {stmts : List HirExpr} (h : PlainStmts i (s :: stmts)) (hb : bump i s = false) :
    Straight i s :=
  ⟨(h.write s List.mem_cons_self).resolve_left (by simp [hb]), h.leaves s List.mem_cons_self⟩

/-- The runs of statements in a row. -/
noncomputable def evalSeq (es : List HirExpr) : Run H P W Unit := Run.seq (es.map c.eval)

theorem evalSeq_cons (e : HirExpr) (es : List HirExpr) : evalSeq c (e :: es) = c.eval e >>= fun _ ↦ evalSeq c es := rfl

theorem evalSeq_append (es fs : List HirExpr) : evalSeq c (es ++ fs) = evalSeq c es >>= fun _ ↦ evalSeq c fs := by
  rw [evalSeq, List.map_append, Run.seq_append]
  rfl

variable (hi : c.captured i = false)
include hi

/-- The statements of a trip on one side of the step. -/
theorem tracks_straight {stmts : List HirExpr} (h : PlainStmts i stmts) (hb : stmts.countP (bump i) = 0) (n : Word) :
    Tracks i (.int n) (evalSeq c stmts) (evalSeq c (copyTrip i n stmts)) := by
  induction stmts with
  | nil => exact .pure ()
  | cons s stmts ih =>
    have hs : bump i s = false := by
      cases hs : bump i s with
      | false => rfl
      | true => rw [List.countP_cons_of_pos hs] at hb; omega
    rw [List.countP_cons_of_neg (by simp [hs])] at hb
    rw [copyTrip, if_neg (by simp [hs]), evalSeq_cons, evalSeq_cons]
    exact (tracks_copy c hi n s (h.straight hs)).run.bind fun _ ↦ ih h.tail hb

/-- `m'` does without the counter what a trip `m` does, which steps the counter by one. -/
structure TripTracks (i : LocalId) (n : Word) (m m' : Run H P W Unit) : Prop where
  run : ∀ s x, s.env i = .int n → m' (s.set i x) = (m s).map (carry i x)
  steps : ∀ s a t, s.env i = .int n → (.ok a, t) ∈ m s → t.env i = .int (n + 1)
  exits : ∀ s e t, s.env i = .int n → (.error e, t) ∈ m s → e.isTrap = true

omit hi in
theorem TripTracks.after {n : Word} {m m' : Run H P W α} {f f' : Run H P W Unit} (hm : Tracks i (.int n) m m')
    (hf : TripTracks i n f f') : TripTracks i n (m >>= fun _ ↦ f) (m' >>= fun _ ↦ f') where
  run s x hs := by
    rw [Run.bind_apply, Run.bind_apply, hm.run s x hs, Part.bind_map, Part.map_bind]
    refine bind_congr_mem fun r hr ↦ ?_
    obtain ⟨q, t⟩ := r
    cases q with
    | ok a => exact hf.run t x ((hm.keep s _ hr trivial).trans hs)
    | error e => rw [carry, Run.andThen, Run.andThen, Part.map_some, carry]
  steps s a t hs h := by
    obtain ⟨⟨q, u⟩, hq, h⟩ := Part.mem_bind_iff.mp h
    cases q with
    | ok b => exact hf.steps u a t ((hm.keep s _ hq trivial).trans hs) h
    | error e => cases Part.mem_some_iff.mp h
  exits s e t hs h := by
    obtain ⟨⟨q, u⟩, hq, h⟩ := Part.mem_bind_iff.mp h
    cases q with
    | ok b => exact hf.exits u e t ((hm.keep s _ hq trivial).trans hs) h
    | error e' =>
      cases Part.mem_some_iff.mp h
      exact hm.exits s e t hq

/-- **One trip and its copy**, when the step of the counter does not overflow. -/
theorem tracks_trip {stmts : List HirExpr} (h : PlainStmts i stmts) (hb : stmts.countP (bump i) = 1) {n : Word}
    (hn : n.toInt + 1 < 2 ^ 63) : TripTracks i n (evalSeq c stmts) (evalSeq c (copyTrip i n stmts)) := by
  induction stmts with
  | nil => cases hb
  | cons s stmts ih =>
    cases hs : bump i s with
    | false =>
      rw [List.countP_cons_of_neg (by simp [hs])] at hb
      rw [copyTrip, if_neg (by simp [hs]), evalSeq_cons, evalSeq_cons]
      exact .after (tracks_copy c hi n s (h.straight hs)).run (ih h.tail hb)
    | true =>
      rw [List.countP_cons_of_pos hs, Nat.add_eq_right] at hb
      rw [copyTrip, if_pos hs, evalSeq_cons]
      have hrest := tracks_straight c hi h.tail hb (n + 1)
      have hstep : ∀ t : State H W, t.env i = .int n →
          (c.eval s >>= fun _ ↦ evalSeq c stmts) t = evalSeq c stmts (t.set i (.int (n + 1))) := by
        intro t ht
        obtain ⟨v, hv⟩ := eval_bump c hs ht
        rw [if_pos hn] at hv
        exact Run.bind_some hv
      refine ⟨fun t x ht ↦ ?_, fun t a u ht hu ↦ ?_, fun t e u ht hu ↦ ?_⟩
      · have hrun := hrest.run (t.set i (.int (n + 1))) x (State.set_env_self _ _ _)
        rw [State.set_set] at hrun
        rw [hstep t ht, hrun]
      · rw [hstep t ht] at hu
        exact (hrest.keep _ _ hu trivial).trans (State.set_env_self _ _ _)
      · rw [hstep t ht] at hu
        exact hrest.exits _ e u hu

end

/-! ### The loop -/

/-- A loop is its first trip and, if that asks for another, the loop again. -/
theorem Run.loop_apply (m : Run H P W α) (s : State H W) :
    Run.loop m s = ((m s).map (Run.trip id)).bind (Sum.elim Part.some (Run.loop m)) := by
  refine Part.ext fun r ↦ ?_
  refine PFun.mem_fix_iff.trans (Iff.trans ⟨?_, ?_⟩ Part.mem_bind_iff.symm)
  · rintro (h | ⟨t, ht, hr⟩)
    · exact ⟨_, h, Part.mem_some r⟩
    · exact ⟨_, ht, hr⟩
  · rintro ⟨q, hq, hr⟩
    cases q with
    | inl r' =>
      rw [Part.mem_some_iff.mp hr]
      exact .inl hq
    | inr t => exact .inr ⟨t, hq, hr⟩

/-- What a compare of the counter with the bound gives. -/
def test : BinOp → Word → Word → Bool
  | .lt, a, k => a.toInt < k.toInt
  | .le, a, k => a.toInt ≤ k.toInt
  | _, _, _ => false

section
variable (c : Ctx H P W) {i : LocalId}

theorem eval_compare {cond lhs rhs : HirExpr} {op : BinOp} (h : compareParts cond = some (op, lhs, rhs))
    (hop : op = .lt ∨ op = .le) {s : State H W} {a k : Word} (ha : c.eval lhs s = .some (.ok (.int a), s))
    (hk : c.eval rhs s = .some (.ok (.int k), s)) : c.eval cond s = .some (.ok (.bool (test op a k)), s) := by
  unfold compareParts at h
  split at h
  · cases h
    rw [eval_bin_some c hk ha]
    rfl
  · cases h
    rw [eval_bin_some c hk ha]
    rfl
  · cases h
    rw [eval_bin_some c ha hk]
    rcases hop with rfl | rfl
    · rfl
    · rfl
  · cases h

/-- The body of a `while` loop with its test. -/
noncomputable def whileTrip (cond body : HirExpr) : Run H P W (Value H) := do
  let x ← c.eval cond
  let b ← Run.look c.captured fun _ ↦ x.truth
  if b then c.eval body else Run.exit .brk

theorem eval_while {lp cond body : HirExpr} (h : whileParts lp = some (cond, body)) :
    c.eval lp = Run.loop (whileTrip c cond body >>= fun _ ↦ pure (.unit : Value H)) := by
  unfold whileParts at h
  split at h
  · cases h
    rw [Ctx.eval, Ctx.den_node]
    show Run.loop (c.den _).run = _
    rw [Ctx.den_node]
    rfl
  · cases h

theorem whileTrip_true {cond body : HirExpr} {s : State H W} (h : c.eval cond s = .some (.ok (.bool true), s)) :
    whileTrip c cond body s = c.eval body s := by
  rw [whileTrip, Run.bind_some h]
  exact Run.look_bind_some (a := true) rfl

theorem whileTrip_false {cond body : HirExpr} {s : State H W} (h : c.eval cond s = .some (.ok (.bool false), s)) :
    whileTrip c cond body s = .some (.error .brk, s) := by
  rw [whileTrip, Run.bind_some h]
  exact Run.look_bind_some (a := false) rfl

theorem shape_den_ne_defer {e : HirExpr} (h : e.kind.leaves = false) (captures : List (Option LocalId))
    (d : Run H P W (Value H)) : (c.den e).shape ≠ .defer captures d := by
  obtain ⟨ty, flags, kind, children⟩ := e
  rw [Ctx.den_node]
  intro hd
  unfold shapeOf at hd
  split at hd <;> cases hd
  cases h

theorem runs_den (es : List HirExpr) : Meaning.runs (es.map c.den) = es.map c.eval := by
  rw [Meaning.runs, List.map_map]
  rfl

/-- The body of the loop is its statements, whatever value the last of them has. -/
theorem eval_body_discard {body : HirExpr} {stmts : List HirExpr} (h : body.stmts = some stmts) (hp : PlainStmts i stmts) :
    (c.eval body >>= fun _ ↦ pure (.unit : Value H)) = evalSeq c stmts >>= fun _ ↦ pure .unit := by
  unfold HirExpr.stmts at h
  split at h
  · cases h
    rw [Ctx.eval, Ctx.den_node]
    show (c.block _ (stmts.map c.den) >>= _) = _
    rw [c.block_discard, runs_den, evalSeq]
    intro m hm
    obtain ⟨e, he, rfl⟩ := List.mem_map.mp hm
    exact shape_den_ne_defer c (hp.leaves e he e (HirExpr.mem_nodes_self e))
  · cases h

/-- A trip whose test holds, and the rest of the loop. -/
theorem loop_trip {cond body : HirExpr} {stmts : List HirExpr} (hbody : body.stmts = some stmts) (hp : PlainStmts i stmts)
    {s : State H W} (h : c.eval cond s = .some (.ok (.bool true), s))
    (hexits : ∀ e t, (.error e, t) ∈ evalSeq c stmts s → e.isTrap = true) :
    Run.loop (whileTrip c cond body >>= fun _ ↦ pure (.unit : Value H)) s =
      (evalSeq c stmts >>= fun _ ↦ Run.loop (whileTrip c cond body >>= fun _ ↦ pure (.unit : Value H))) s := by
  have hfirst : (whileTrip c cond body >>= fun _ ↦ pure (.unit : Value H)) s =
      (evalSeq c stmts >>= fun _ ↦ pure (.unit : Value H)) s := by
    rw [← eval_body_discard c hbody hp, Run.bind_apply, whileTrip_true c h, ← Run.bind_apply]
  rw [Run.loop_apply, hfirst, Run.bind_apply, Run.bind_apply, Part.map_bind, Part.bind_assoc]
  refine bind_congr_mem fun r hr ↦ ?_
  obtain ⟨q, t⟩ := r
  cases q with
  | ok a =>
    rw [Run.andThen, Run.andThen, Run.pure_apply, Part.map_some, Part.bind_some]
    rfl
  | error e =>
    rw [Run.andThen, Run.andThen, Part.map_some, Part.bind_some]
    cases e with
    | trap x => rfl
    | brk => cases hexits _ _ hr
    | cont => cases hexits _ _ hr
    | ret v => cases hexits _ _ hr

theorem loop_end {cond body : HirExpr} {s : State H W} (h : c.eval cond s = .some (.ok (.bool false), s)) :
    Run.loop (whileTrip c cond body >>= fun _ ↦ pure (.unit : Value H)) s = .some (.ok .unit, s) := by
  rw [Run.loop_apply, Run.bind_error (whileTrip_false c h), Part.map_some, Part.bind_some]
  rfl

end

/-! ### Loops that unroll -/

/-- What `counted` has checked of a loop. -/
structure CountedAs (b : HirBody) (before : List HirExpr) (f : Found) (lp cond rhs : HirExpr) (op : BinOp) (k : Word) : Prop where
  parts : whileParts lp = some (cond, f.body)
  compare : ∃ lhs, compareParts cond = some (op, lhs, rhs) ∧ lhs.kind = .loc f.i
  captured : b.captured f.i = false
  bound : boundOf b f.i rhs f.body before = some k
  start : startOf f.i before.reverse = some f.start
  trips : tripsOf op k f.start = some f.trips
  pos : 1 ≤ f.trips
  small : f.trips ≤ maxTrips
  plain : plain f.i f.body = true

theorem localId_eq_some {e : HirExpr} {l : LocalId} : e.localId = some l ↔ e.kind = .loc l := by
  obtain ⟨ty, flags, kind, children⟩ := e
  show HirExpr.localId (.node ty flags kind children) = some l ↔ kind = .loc l
  cases kind with
  | loc m => exact ⟨fun h ↦ (by cases h; rfl), fun h ↦ (by cases h; rfl)⟩
  | _ => exact ⟨fun h ↦ (by cases h), fun h ↦ (by cases h)⟩

theorem guard_eq_some {p : Prop} [Decidable p] {u : Unit} : (guard p : Option Unit) = some u ↔ p := by
  rw [guard]
  split
  · rename_i h
    exact ⟨fun _ ↦ h, fun _ ↦ rfl⟩
  · rename_i h
    exact ⟨fun hf ↦ (by cases hf), fun hp ↦ absurd hp h⟩

theorem counted_eq_some {b : HirBody} {lp : HirExpr} {before : List HirExpr} {f : Found} (h : counted b lp before = some f) :
    ∃ cond rhs op k, CountedAs b before f lp cond rhs op k := by
  unfold counted at h
  simp only [Option.bind_eq_bind, Option.bind_eq_some_iff, Option.pure_def, guard_eq_some] at h
  obtain ⟨⟨cond, body⟩, hparts, ⟨op, lhs, rhs⟩, hcompare, i, hi, -, hcap, k, hk, start, hstart, trips, htrips, -, hsmall, -, -, h⟩ := h
  cases h
  exact ⟨cond, rhs, op, k, hparts, ⟨lhs, hcompare, localId_eq_some.mp hi⟩, Bool.eq_false_iff.mpr hcap, hk, hstart, htrips,
    hsmall.1, hsmall.2.1, hsmall.2.2⟩

theorem children_of_stmts {e : HirExpr} {stmts : List HirExpr} (h : e.stmts = some stmts) : e.children = stmts := by
  obtain ⟨ty, flags, kind, children⟩ := e
  cases kind with
  | block tail =>
    cases h
    rfl
  | _ => cases h

theorem plain_eq_true {i : LocalId} {body : HirExpr} (h : plain i body = true) :
    ∃ stmts, body.stmts = some stmts ∧ PlainStmts i stmts ∧ stmts.countP (bump i) = 1 := by
  unfold plain at h
  split at h
  · rename_i stmts hstmts
    rw [Bool.and_eq_true, Bool.and_eq_true, List.all_eq_true, List.all_eq_true, beq_iff_eq] at h
    refine ⟨stmts, hstmts, ⟨fun s hs ↦ ?_, fun s hs x hx ↦ ?_⟩, h.1.2⟩
    · simpa using h.1.1 s hs
    · have hchild : s ∈ body.children := (children_of_stmts hstmts).symm ▸ hs
      simpa using h.2 x (HirExpr.mem_nodes_of_child hchild x hx)
  · cases h

/-- The last literal written to a local is its value. -/
def After (before : List HirExpr) (s : State H W) : Prop :=
  ∀ l n, startOf l before.reverse = some n → s.env l = .int n

section
variable {c : Ctx H P W} {b : HirBody} {before : List HirExpr} {f : Found} {lp cond rhs : HirExpr} {op : BinOp} {k : Word}

theorem boundOf_cases {i : LocalId} {body : HirExpr} (h : boundOf b i rhs body before = some k) :
    rhs.litInt = some k ∨ ∃ l, rhs.kind = .loc l ∧ writes body l = false ∧ startOf l before.reverse = some k := by
  unfold boundOf at h
  split at h
  · rename_i n _ hn
    cases h
    exact .inl hn
  · rename_i l _ hl
    split at h
    · rename_i hok
      exact .inr ⟨l, localId_eq_some.mp hl, Bool.eq_false_iff.mpr hok.2.2, h⟩
    · cases h
  · cases h

/-- The bound of a loop has its value before the loop. -/
theorem CountedAs.eval_bound (h : CountedAs b before f lp cond rhs op k) {s : State H W} (hs : After before s) :
    c.eval rhs s = .some (.ok (.int k), s) := by
  rcases boundOf_cases h.bound with hlit | ⟨l, hl, -, hstart⟩
  · rw [eval_litInt c hlit, Run.pure_apply]
  · rw [eval_loc c hl, read_apply (hs l k hstart)]

/-- And no trip changes it. -/
theorem CountedAs.keeps_bound (h : CountedAs b before f lp cond rhs op k) {stmts : List HirExpr}
    (hstmts : f.body.stmts = some stmts) {s t : State H W} {a : Unit} (hs : c.eval rhs s = .some (.ok (.int k), s))
    (ht : (.ok a, t) ∈ evalSeq c stmts s) : c.eval rhs t = .some (.ok (.int k), t) := by
  rcases boundOf_cases h.bound with hlit | ⟨l, hl, hwrites, -⟩
  · rw [eval_litInt c hlit, Run.pure_apply]
  · have hkeeps : Keeps l (evalSeq c stmts) := by
      refine Run.keeps_seq fun m hm ↦ ?_
      obtain ⟨e, he, rfl⟩ := List.mem_map.mp hm
      exact keeps_of_writes c (writes_child hwrites ((children_of_stmts hstmts).symm ▸ he))
    rw [eval_loc c hl, Run.read, Part.some_inj, Prod.mk.injEq, Except.ok.injEq] at hs
    rw [eval_loc c hl, read_apply ((hkeeps s _ ht trivial).trans hs.1)]

theorem CountedAs.op_eq (h : CountedAs b before f lp cond rhs op k) : op = .lt ∨ op = .le := by
  have htrips := h.trips
  unfold tripsOf at htrips
  split at htrips
  · exact .inl rfl
  · exact .inr rfl
  · cases htrips

theorem CountedAs.eval_cond (h : CountedAs b before f lp cond rhs op k) {s : State H W} {n : Word}
    (hn : s.env f.i = .int n) (hs : c.eval rhs s = .some (.ok (.int k), s)) :
    c.eval cond s = .some (.ok (.bool (test op n k)), s) := by
  obtain ⟨lhs, hcompare, hlhs⟩ := h.compare
  exact eval_compare c hcompare h.op_eq (by rw [eval_loc c hlhs, read_apply hn]) hs

/-- The test holds on the trips counted, and not after them. -/
theorem CountedAs.test_eq (h : CountedAs b before f lp cond rhs op k) (n : Word) :
    test op n k = decide (n.toInt < f.start.toInt + f.trips) := by
  have htrips := h.trips
  rcases h.op_eq with rfl | rfl
  · rw [tripsOf, checkedInt, Option.ite_none_right_eq_some, Option.some.injEq] at htrips
    rw [test, ← htrips.2]
    congr 1
    rw [eq_iff_iff]
    omega
  · rw [tripsOf, Option.bind_eq_some_iff] at htrips
    obtain ⟨d, hd, htrips⟩ := htrips
    rw [checkedInt, Option.ite_none_right_eq_some, Option.some.injEq] at hd htrips
    rw [test, ← htrips.2, ← hd.2]
    congr 1
    rw [eq_iff_iff]
    omega

/-! ### The unrolled loop -/

theorem toInt_add_ofInt {n : Word} {z : ℤ} (hlo : -2 ^ 63 ≤ n.toInt + z) (hhi : n.toInt + z < 2 ^ 63) :
    (n + BitVec.ofInt 64 z).toInt = n.toInt + z := by
  have h : n + BitVec.ofInt 64 z = BitVec.ofInt 64 (n.toInt + z) := by
    rw [BitVec.ofInt_add, BitVec.ofInt_toInt]
  rw [h, BitVec.toInt_ofInt]
  exact Int.bmod_eq_of_le (by omega) (by omega)

theorem toInt_add_ofNat {n : Word} {t : ℕ} (h : n.toInt + t < 2 ^ 63) : (n + BitVec.ofNat 64 t).toInt = n.toInt + t := by
  have hlo : -2 ^ 63 ≤ n.toInt := BitVec.le_toInt n
  rw [← BitVec.ofInt_natCast, toInt_add_ofInt (by omega) h]

/-- The copies of `r` trips from the trip `t` on. -/
def copiesFrom (f : Found) (stmts : List HirExpr) (t r : ℕ) : List HirExpr :=
  (List.range' t r).flatMap fun t ↦ copyTrip f.i (f.start + BitVec.ofNat 64 t) stmts

/-- The counter after the loop. -/
def finish (f : Found) : Run H P W (Value H) := do
  Run.write f.i (.int (f.start + BitVec.ofInt 64 f.trips))
  pure .unit

/-- **The rest of the loop is the rest of the copies**, whatever the counter holds there. -/
theorem CountedAs.loop_eq (h : CountedAs b before f lp cond rhs op k) (hc : c.captured f.i = false) {stmts : List HirExpr}
    (hstmts : f.body.stmts = some stmts) (hp : PlainStmts f.i stmts) (hb : stmts.countP (bump f.i) = 1)
    (hfit : f.start.toInt + f.trips < 2 ^ 63) (r t : ℕ) (htr : (t : ℤ) + r = f.trips) {s : State H W} (x : Value H)
    (hs : s.env f.i = .int (f.start + BitVec.ofNat 64 t)) (hk : c.eval rhs s = .some (.ok (.int k), s)) :
    (evalSeq c (copiesFrom f stmts t r) >>= fun _ ↦ finish f) (s.set f.i x) =
      Run.loop (whileTrip c cond f.body >>= fun _ ↦ pure (.unit : Value H)) s := by
  have hvalue : (f.start + BitVec.ofNat 64 t).toInt = f.start.toInt + t := toInt_add_ofNat (by omega)
  have hcond := h.eval_cond hs hk
  rw [h.test_eq, hvalue] at hcond
  induction r generalizing t s x with
  | zero =>
    have ht : f.trips = (t : ℤ) := by omega
    have hfinish : finish f (s.set f.i x) = (.some (.ok .unit, s) : Part (Except (Exit H P) (Value H) × State H W)) := by
      refine (Run.bind_some rfl).trans ?_
      rw [Run.pure_apply, State.set_set, ht, BitVec.ofInt_natCast, State.set_self hs]
    rw [decide_eq_false (by omega)] at hcond
    rw [loop_end c hcond, ← hfinish]
    exact congrFun (Run.pure_bind () fun _ ↦ finish f) _
  | succ r ih =>
    rw [decide_eq_true (by omega)] at hcond
    have htrip := tracks_trip c hc hp hb (n := f.start + BitVec.ofNat 64 t) (by rw [hvalue]; omega)
    have hnext : f.start + BitVec.ofNat 64 t + 1 = f.start + BitVec.ofNat 64 (t + 1) := by
      rw [BitVec.add_assoc, BitVec.ofNat_add]
      rfl
    have hsplit : copiesFrom f stmts t (r + 1) = copyTrip f.i (f.start + BitVec.ofNat 64 t) stmts ++ copiesFrom f stmts (t + 1) r := by
      rw [copiesFrom, List.range'_succ, List.flatMap_cons]
      rfl
    rw [loop_trip c hstmts hp hcond fun e u hu ↦ htrip.exits s e u hs hu, hsplit, evalSeq_append, Run.bind_assoc, Run.bind_apply,
      Run.bind_apply, htrip.run s x hs, Part.bind_map]
    refine bind_congr_mem fun q hq ↦ ?_
    obtain ⟨q, u⟩ := q
    cases q with
    | ok a =>
      have hu : u.env f.i = .int (f.start + BitVec.ofNat 64 (t + 1)) := hnext ▸ htrip.steps s a u hs hq
      have hk' := h.keeps_bound hstmts hk hq
      have hvalue' : (f.start + BitVec.ofNat 64 (t + 1)).toInt = f.start.toInt + (t + 1 : ℕ) := toInt_add_ofNat (by omega)
      have hcond' := h.eval_cond hu hk'
      rw [h.test_eq, hvalue'] at hcond'
      exact ih (t + 1) (by omega) x hu hk' hvalue' hcond'
    | error e => rfl

theorem thenPlace_eq_some {i : LocalId} {stmts : List HirExpr} (h : stmts.countP (bump i) = 1) :
    ∃ place, thenPlace i stmts = some place ∧ place.kind = .loc i := by
  induction stmts with
  | nil => cases h
  | cons s stmts ih =>
    obtain ⟨ty, flags, kind, children⟩ := s
    rw [thenPlace]
    split
    · rename_i hb
      obtain ⟨_, _, place, _, _, _, _, he, hplace, -, -⟩ := bump_cases hb
      cases he
      exact ⟨place, rfl, hplace⟩
    · rename_i hb
      rw [List.countP_cons_of_neg hb] at h
      exact ih h

theorem leaves_copy {i : LocalId} {n : Word} {e : HirExpr} (h : e.kind.leaves = false) : (copy i n e).kind.leaves = false := by
  obtain ⟨ty, flags, kind, children⟩ := e
  rw [copy]
  split
  · rfl
  · exact h

theorem leaves_copyTrip {i : LocalId} {stmts : List HirExpr} (h : PlainStmts i stmts) (n : Word) :
    ∀ e ∈ copyTrip i n stmts, e.kind.leaves = false := by
  induction stmts generalizing n with
  | nil => exact fun e he ↦ absurd he List.not_mem_nil
  | cons s stmts ih =>
    rw [copyTrip]
    split
    · exact ih h.tail (n + 1)
    · intro e he
      rcases List.mem_cons.mp he with rfl | he
      · exact leaves_copy (h.leaves s List.mem_cons_self s (HirExpr.mem_nodes_self s))
      · exact ih h.tail n e he

/-- The unrolled loop is its copies and the last value of the counter. -/
theorem eval_unrolled {stmts : List HirExpr} (hstmts : f.body.stmts = some stmts) (hp : PlainStmts f.i stmts)
    (hb : stmts.countP (bump f.i) = 1) :
    c.eval (unrolled lp f) = evalSeq c (copiesFrom f stmts 0 f.trips.toNat) >>= fun _ ↦ finish f := by
  obtain ⟨place, hplace, hloc⟩ := thenPlace_eq_some hb
  have hcopies : ∀ e ∈ copiesFrom f stmts 0 f.trips.toNat, e.kind.leaves = false := by
    intro e he
    obtain ⟨t, -, he⟩ := List.mem_flatMap.mp he
    exact leaves_copyTrip hp _ e he
  have hlast : ∀ ty flags value, value.litInt = some (f.start + BitVec.ofInt 64 f.trips) →
      (Run.seq [c.eval (.node ty flags .assign [place, value])] >>= fun _ ↦ pure (.unit : Value H)) = finish f := by
    intro ty flags value hvalue
    funext s
    have hset := eval_assign_lit c ty flags hloc hvalue s
    have hseq : Run.seq [c.eval (.node ty flags .assign [place, value])] s =
        .some (.ok (), s.set f.i (.int (f.start + BitVec.ofInt 64 f.trips))) := Run.bind_some hset
    have hfinish : (finish f : Run H P W (Value H)) s = .some (.ok .unit, s.set f.i (.int (f.start + BitVec.ofInt 64 f.trips))) :=
      Run.bind_some rfl
    rw [Run.bind_some hseq, hfinish]
    rfl
  rw [unrolled, hstmts]
  dsimp only
  rw [hplace]
  dsimp only
  rw [List.range_eq_range', Ctx.eval, Ctx.den_node]
  show c.block false (List.map c.den (copiesFrom f stmts 0 f.trips.toNat ++ [_])) = _
  rw [c.block_false, runs_den, List.map_append, Run.seq_append, Run.bind_assoc]
  · rw [List.map_cons, List.map_nil, hlast _ _ _ rfl]
    rfl
  · intro m hm
    obtain ⟨e, he, rfl⟩ := List.mem_map.mp hm
    rcases List.mem_append.mp he with he | he
    · exact shape_den_ne_defer c (hcopies e he)
    · rw [List.mem_singleton.mp he]
      exact shape_den_ne_defer c rfl

/-- **An unrolled loop does what the loop does** after the statements before it. -/
theorem CountedAs.eval_unrolled (h : CountedAs b before f lp cond rhs op k) (hlocals : c.locals = b.locals)
    (hfit : f.start.toInt + f.trips < 2 ^ 63) {s : State H W} (hs : After before s) :
    c.eval (unrolled lp f) s = c.eval lp s := by
  obtain ⟨stmts, hstmts, hp, hb⟩ := plain_eq_true h.plain
  have hc : c.captured f.i = false := by
    rw [Ctx.captured, hlocals]
    exact h.captured
  have hpos := h.pos
  have hstart : s.env f.i = .int (f.start + BitVec.ofNat 64 0) := by
    rw [hs f.i f.start h.start]
    congr 1
    exact (BitVec.add_zero f.start).symm
  rw [Hir.eval_unrolled hstmts hp hb, eval_while c h.parts,
    ← h.loop_eq hc hstmts hp hb hfit f.trips.toNat 0 (by omega) (s.env f.i) hstart (h.eval_bound hs), State.set_self rfl]

end

end CoilLang.Hir
