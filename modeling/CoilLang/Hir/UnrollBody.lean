import CoilLang.Hir.UnrollSound

/-!
# Unrolling a body

A round replaces loops anywhere in the tree. Above a block nothing depends on the rewrite, since the
meaning of a node is made of the meanings of its children; in a block, **the statements before a loop
have set its counter** (`After`). So a body after `unroll` runs as before, provided the last value of
each counter is an `int`.

It is not for `i <= K` with `K` the largest `int`: there the last step of the counter overflows, and
the loop traps, where the unrolled loop assigns a value that wrapped around. A loop of this kind never
ends without a trap (`CountedAs.not_ok`).
-/

namespace CoilLang.Hir

variable {H P W α β : Type}

/-- The last value of the counter is an `int`. -/
def Found.Fits (f : Found) : Prop := f.start.toInt + f.trips < 2 ^ 63

instance (f : Found) : Decidable f.Fits := inferInstanceAs (Decidable (_ < _))

/-! ### The counter before a loop -/

section
variable (c : Ctx H P W)

theorem startOf_concat (l : LocalId) (before : List HirExpr) (e : HirExpr) :
    startOf l (before ++ [e]).reverse = startOf l (e :: before.reverse) := by
  rw [List.reverse_append, List.reverse_singleton, List.singleton_append]

theorem env_of_setTo {l : LocalId} {e value : HirExpr} {n : Word} (h : setTo l e = some value) (hvalue : value.litInt = some n)
    {s t : State H W} {v : Value H} (ht : (.ok v, t) ∈ c.eval e s) : t.env l = .int n := by
  unfold setTo at h
  split at h
  · rename_i ty flags l' init
    rw [Option.ite_none_right_eq_some, Option.some.injEq] at h
    obtain ⟨rfl, rfl⟩ := h
    have hlet : c.eval (.node ty flags (.letLocal l') [init]) s = .some (.ok .unit, s.set l' (.int n)) := by
      rw [Ctx.eval, Ctx.den_node]
      show (c.eval init >>= fun v ↦ Run.write l' v >>= fun _ ↦ (pure .unit : Run H P W (Value H))) s = _
      rw [eval_litInt c hvalue, Run.pure_bind]
      exact Run.bind_some rfl
    rw [hlet] at ht
    cases Part.mem_some_iff.mp ht
    exact State.set_env_self _ _ _
  · rename_i ty flags place value'
    rw [Option.ite_none_right_eq_some, Option.some.injEq] at h
    obtain ⟨hloc, rfl⟩ := h
    rw [eval_assign_lit c ty flags (HirExpr.isLoc_iff.mp hloc) hvalue] at ht
    cases Part.mem_some_iff.mp ht
    exact State.set_env_self _ _ _
  · cases h

/-- What the statements before say is so after one more. -/
theorem After.step {before : List HirExpr} {s t : State H W} (hs : After before s) {e : HirExpr} {v : Value H}
    (ht : (.ok v, t) ∈ c.eval e s) : After (before ++ [e]) t := by
  intro l n h
  rw [startOf_concat, startOf] at h
  split at h
  · rename_i value hset
    exact env_of_setTo c hset h ht
  · split at h
    · cases h
    · rename_i hwrites
      exact (keeps_of_writes c (Bool.eq_false_iff.mpr hwrites) s _ ht trivial).trans (hs l n h)

/-- A `defer` sets nothing. -/
theorem After.defer {before : List HirExpr} {s : State H W} (hs : After before s) {e : HirExpr}
    {captures : List (Option LocalId)} (he : e.kind = .defer captures) : After (before ++ [e]) s := by
  intro l n h
  obtain ⟨ty, flags, kind, children⟩ := e
  cases (he : kind = .defer captures)
  rw [startOf_concat, startOf] at h
  dsimp only [setTo] at h
  split at h
  · cases h
  · exact hs l n h

theorem kind_of_shape_defer {e : HirExpr} {captures : List (Option LocalId)} {d : Run H P W (Value H)}
    (h : (c.den e).shape = .defer captures d) : e.kind = .defer captures := by
  obtain ⟨ty, flags, kind, children⟩ := e
  rw [Ctx.den_node] at h
  dsimp only at h
  unfold shapeOf at h
  split at h <;> cases h
  rfl

/-! ### A round -/

variable (b : HirBody) (hlocals : c.locals = b.locals) (factor : ℤ)

theorem replaceAll_eq (es : List HirExpr) : replaceAll b factor es = es.map (replace b factor) := by
  induction es with
  | nil => rfl
  | cons e es ih => rw [replaceAll, ih, List.map_cons]

theorem mem_findAll {f : Found} {e : HirExpr} {es : List HirExpr} (he : e ∈ es) (hf : f ∈ find b factor e) :
    f ∈ findAll b factor es := by
  induction es with
  | nil => cases he
  | cons x es ih =>
    rw [findAll, List.mem_append]
    rcases List.mem_cons.mp he with rfl | he
    · exact .inl hf
    · exact .inr (ih he)

theorem length_replaceIn (before stmts : List HirExpr) : (replaceIn b factor before stmts).length = stmts.length := by
  induction stmts generalizing before with
  | nil => rfl
  | cons s stmts ih => rw [replaceIn, List.length_cons, ih, List.length_cons]

theorem isEmpty_replaceIn (before stmts : List HirExpr) :
    ((replaceIn b factor before stmts).map c.den).isEmpty = (stmts.map c.den).isEmpty := by
  rw [Bool.eq_iff_iff, List.isEmpty_iff_length_eq_zero, List.isEmpty_iff_length_eq_zero, List.length_map, List.length_map,
    length_replaceIn]

/-- A statement of a block that is no `defer`. -/
theorem block_cons {tail : Bool} {m : Meaning (Run H P W (Value H))} {ms : List (Meaning (Run H P W (Value H)))}
    (h : ∀ captures d, m.shape ≠ .defer captures d) :
    c.block tail (m :: ms) = if tail ∧ ms.isEmpty then m.run else m.run >>= fun _ ↦ c.block tail ms := by
  rw [Ctx.block]
  split
  · rename_i captures d hd
    exact absurd hd (h captures d)
  · rfl

theorem block_cons_congr {tail : Bool} {m m' : Meaning (Run H P W (Value H))} {ms ms' : List (Meaning (Run H P W (Value H)))}
    (h : ∀ captures d, m.shape ≠ .defer captures d) (h' : ∀ captures d, m'.shape ≠ .defer captures d)
    (hempty : ms'.isEmpty = ms.isEmpty) {s : State H W} (hm : m'.run s = m.run s)
    (hrest : ∀ v t, (.ok v, t) ∈ m.run s → c.block tail ms' t = c.block tail ms t) :
    c.block tail (m' :: ms') s = c.block tail (m :: ms) s := by
  rw [block_cons c h, block_cons c h', hempty]
  split
  · exact hm
  · rw [Run.bind_apply, Run.bind_apply, hm]
    refine bind_congr_mem fun r hr ↦ ?_
    obtain ⟨q, t⟩ := r
    cases q with
    | ok v => exact hrest v t hr
    | error e => rfl

theorem whileParts_shape {lp cond body : HirExpr} (h : whileParts lp = some (cond, body)) (captures : List (Option LocalId))
    (d : Run H P W (Value H)) : (c.den lp).shape ≠ .defer captures d := by
  intro hd
  have hkind := kind_of_shape_defer c hd
  unfold whileParts at h
  split at h <;> cases h
  cases hkind

theorem unrolled_shape {f : Found} {stmts : List HirExpr} (hstmts : f.body.stmts = some stmts) (lp : HirExpr)
    (hb : stmts.countP (bump f.i) = 1) (captures : List (Option LocalId)) (d : Run H P W (Value H)) :
    (c.den (unrolled lp f)).shape ≠ .defer captures d := by
  intro hd
  have hkind := kind_of_shape_defer c hd
  obtain ⟨place, hplace, -⟩ := thenPlace_eq_some hb
  rw [unrolled, hstmts] at hkind
  dsimp only at hkind
  rw [hplace] at hkind
  cases hkind

include hlocals in
/-- The statements of a block, after those before. -/
theorem block_replaceIn (tail : Bool) (before stmts : List HirExpr) (hfit : ∀ f ∈ findIn b factor before stmts, f.Fits)
    (hden : ∀ e ∈ stmts, (∀ f ∈ find b factor e, f.Fits) → c.den (replace b factor e) = c.den e) {s : State H W}
    (hs : After before s) :
    c.block tail ((replaceIn b factor before stmts).map c.den) s = c.block tail (stmts.map c.den) s := by
  induction stmts generalizing before s with
  | nil => rfl
  | cons e stmts ih =>
    rw [findIn] at hfit
    have hrest : ∀ t : State H W, After (before ++ [e]) t →
        c.block tail ((replaceIn b factor (before ++ [e]) stmts).map c.den) t = c.block tail (stmts.map c.den) t :=
      fun t ht ↦ ih (before ++ [e]) (fun f hf ↦ hfit f (List.mem_append_right _ hf))
        (fun x hx ↦ hden x (List.mem_cons_of_mem e hx)) ht
    rw [replaceIn, List.map_cons, List.map_cons]
    cases htaken : taken b factor e before with
    | some f =>
      rw [htaken] at hfit
      obtain ⟨hcounted, -⟩ := Option.filter_eq_some_iff.mp htaken
      obtain ⟨cond, rhs, op, k, h⟩ := counted_eq_some hcounted
      obtain ⟨stmts', hstmts, hp, hb⟩ := plain_eq_true h.plain
      refine block_cons_congr c (whileParts_shape c h.parts) (unrolled_shape c hstmts e hb) (isEmpty_replaceIn c b factor _ _)
        (h.eval_unrolled hlocals (hfit f (List.mem_append_left _ (List.mem_singleton_self f))) hs) fun v t ht ↦ ?_
      exact hrest t (hs.step c ht)
    | none =>
      rw [htaken] at hfit
      have he := hden e List.mem_cons_self fun f hf ↦ hfit f (List.mem_append_left _ hf)
      dsimp only
      rw [he]
      by_cases hd : ∃ captures d, (c.den e).shape = .defer captures d
      · obtain ⟨captures, d, hd⟩ := hd
        have hblock : ∀ ms, c.block tail (c.den e :: ms) = Run.deferring c.captured captures d (c.block tail ms) := by
          intro ms
          rw [Ctx.block, hd]
        rw [hblock, hblock, Run.deferring, Run.deferring, hrest s (hs.defer (kind_of_shape_defer c hd))]
      · have hno : ∀ captures d, (c.den e).shape ≠ .defer captures d := fun captures d h ↦ hd ⟨captures, d, h⟩
        exact block_cons_congr c hno hno (isEmpty_replaceIn c b factor _ _) rfl fun v t ht ↦ hrest t (hs.step c ht)

include hlocals in
/-- **A round changes the meaning of no tree** whose loops fit. -/
theorem den_replace (e : HirExpr) (hfit : ∀ f ∈ find b factor e, f.Fits) : c.den (replace b factor e) = c.den e := by
  induction e using HirExpr.induction with
  | h ty flags kind children ih =>
    have hplain : (∀ f ∈ findAll b factor children, f.Fits) →
        c.den (.node ty flags kind (replaceAll b factor children)) = c.den (.node ty flags kind children) := by
      intro hall
      have hchildren : (replaceAll b factor children).map c.den = children.map c.den := by
        rw [replaceAll_eq, List.map_map]
        exact List.map_congr_left fun e he ↦ ih e he fun f hf ↦ hall f (mem_findAll b factor he hf)
      rw [Ctx.den_node, Ctx.den_node, hchildren]
    rw [find.eq_def] at hfit
    rw [replace.eq_def]
    dsimp only at hfit ⊢
    split at hfit
    · rename_i tail
      have hblock : c.block tail ((replaceIn b factor [] children).map c.den) = c.block tail (children.map c.den) := by
        funext s
        exact block_replaceIn c b hlocals factor tail [] children hfit ih fun l n h ↦ by cases h
      rw [Ctx.den_node, Ctx.den_node]
      exact congrArg (fun r ↦ Meaning.mk r .other) hblock
    · exact hplain hfit

end

/-- The cap on the trips of a loop. -/
def cap (factor : ℕ) : ℤ := min (BitVec.ofNat 64 factor).toInt maxTrips

theorem run_once {b b' : HirBody} {factor : ℕ} (h : once b factor = some b')
    (hfit : ∀ root, b.root = some root → ∀ f ∈ find b (cap factor) root, f.Fits) (host : Host H P W) (s : State H W) :
    b'.run host s = b.run host s := by
  unfold once at h
  rw [Option.bind_eq_bind, Option.bind_eq_some_iff] at h
  obtain ⟨root, hroot, h⟩ := h
  dsimp only at h
  split at h
  · cases h
  · cases h
    rw [HirBody.run, HirBody.run, hroot]
    exact congrFun (congrArg Meaning.run (den_replace ⟨host, b.locals⟩ b rfl (cap factor) root (hfit root hroot))) s

/-- Every loop that unrolls, in any of `n` rounds, has a last value of its counter. -/
def FitsRounds (factor : ℕ) : ℕ → HirBody → Prop
  | 0, _ => True
  | n + 1, b => (∀ root, b.root = some root → ∀ f ∈ find b (cap factor) root, f.Fits) ∧
      ∀ next, once b factor = some next → FitsRounds factor n next

theorem run_again {b : HirBody} {factor n : ℕ} (hfit : FitsRounds factor n b) (host : Host H P W) (s : State H W) :
    (again factor n b).run host s = b.run host s := by
  induction n generalizing b with
  | zero => rfl
  | succ n ih =>
    rw [again]
    split
    · rename_i next hnext
      rw [ih (hfit.2 next hnext), run_once hnext hfit.1]
    · rfl

/-- A body whose loops fit runs as before. -/
theorem run_unroll {b b' : HirBody} {factor : ℕ} (h : unroll b factor = some b') (hfit : FitsRounds factor rounds b)
    (host : Host H P W) (s : State H W) : b'.run host s = b.run host s := by
  rw [unroll, Option.map_eq_some_iff] at h
  obtain ⟨next, hnext, rfl⟩ := h
  exact (run_again (hfit.2 next hnext) host s).trans (run_once hnext hfit.1 host s)

/-! ### A counter without a last value -/

section
variable {c : Ctx H P W} {b : HirBody} {before : List HirExpr} {f : Found} {lp cond rhs : HirExpr} {op : BinOp} {k : Word}

/-- A trip leaves only by a trap, and the counter stays an `int`. -/
theorem seq_plain {i : LocalId} (hi : c.captured i = false) {stmts : List HirExpr} (h : PlainStmts i stmts) {s : State H W}
    {n : Word} (hs : s.env i = .int n) {r : Except (Exit H P) Unit} {t : State H W} (ht : (r, t) ∈ evalSeq c stmts s) :
    (∃ e, r = .error e ∧ e.isTrap = true) ∨ r = .ok () ∧ ∃ m, t.env i = .int m := by
  induction stmts generalizing s n with
  | nil =>
    cases Part.mem_some_iff.mp ht
    exact .inr ⟨rfl, n, hs⟩
  | cons e stmts ih =>
    rw [evalSeq_cons] at ht
    cases hb : bump i e with
    | true =>
      obtain ⟨v, hv⟩ := eval_bump c hb hs
      split at hv
      · rw [Run.bind_some hv] at ht
        exact ih h.tail (State.set_env_self _ _ _) ht
      · rw [Run.bind_error hv] at ht
        cases Part.mem_some_iff.mp ht
        exact .inl ⟨_, rfl, rfl⟩
    | false =>
      have htracks := (tracks_copy c hi n e (h.straight hb)).run
      obtain ⟨⟨q, u⟩, hq, ht⟩ := Part.mem_bind_iff.mp ht
      cases q with
      | ok a => exact ih h.tail ((htracks.keep s _ hq trivial).trans hs) ht
      | error x =>
        cases Part.mem_some_iff.mp ht
        exact .inl ⟨x, rfl, htracks.exits s x t hq⟩

/-- **A loop whose counter has no last value never ends with one**: its test holds for every `int`. -/
theorem CountedAs.not_ok (h : CountedAs b before f lp cond rhs op k) (hlocals : c.locals = b.locals) (hfit : ¬ f.Fits)
    {s : State H W} (hs : After before s) (v : Value H) (t : State H W) : (.ok v, t) ∉ c.eval lp s := by
  obtain ⟨stmts, hstmts, hp, -⟩ := plain_eq_true h.plain
  have hc : c.captured f.i = false := by
    rw [Ctx.captured, hlocals]
    exact h.captured
  have htrip : ∀ {s : State H W} {n : Word}, s.env f.i = .int n → c.eval rhs s = .some (.ok (.int k), s) →
      (whileTrip c cond f.body >>= fun _ ↦ pure (.unit : Value H)) s = (evalSeq c stmts >>= fun _ ↦ pure (.unit : Value H)) s := by
    intro s n hn hk
    have hcond := h.eval_cond hn hk
    have hlt : n.toInt < f.start.toInt + f.trips := by
      have hhi : n.toInt < 2 ^ 63 := BitVec.toInt_lt
      rw [Found.Fits] at hfit
      omega
    rw [h.test_eq, decide_eq_true hlt] at hcond
    rw [← eval_body_discard c hstmts hp, Run.bind_apply, whileTrip_true c hcond, ← Run.bind_apply]
  intro hend
  rw [eval_while c h.parts] at hend
  -- the counter is an `int` and the bound has its value on every trip, so no trip breaks
  refine PFun.fixInduction' (C := fun s : State H W ↦ (∃ n, s.env f.i = .int n) → c.eval rhs s = .some (.ok (.int k), s) → False)
    hend ?_ ?_ ⟨f.start, hs f.i f.start h.start⟩ (h.eval_bound hs)
  · rintro u hu ⟨n, hn⟩ hk
    obtain ⟨q, hq, htr⟩ := (Part.mem_map_iff _).mp hu
    rw [htrip hn hk] at hq
    obtain ⟨⟨r, w⟩, hr, hq⟩ := Part.mem_bind_iff.mp hq
    cases r with
    | ok a =>
      cases Part.mem_some_iff.mp hq
      cases htr
    | error e =>
      cases Part.mem_some_iff.mp hq
      rcases seq_plain hc hp hn hr with ⟨x, hx, htrap⟩ | ⟨hx, -⟩
      · cases hx
        cases e with
        | trap y => cases htr
        | brk => cases htrap
        | cont => cases htrap
        | ret y => cases htrap
      · cases hx
  · rintro u w - hw ih ⟨n, hn⟩ hk
    obtain ⟨q, hq, htr⟩ := (Part.mem_map_iff _).mp hw
    rw [htrip hn hk] at hq
    obtain ⟨⟨r, x⟩, hr, hq⟩ := Part.mem_bind_iff.mp hq
    rcases seq_plain hc hp hn hr with ⟨e, rfl, htrap⟩ | ⟨rfl, m, hm⟩
    · cases Part.mem_some_iff.mp hq
      cases e with
      | trap y => cases htr
      | brk => cases htrap
      | cont => cases htrap
      | ret y => cases htrap
    · cases Part.mem_some_iff.mp hq
      cases htr
      exact ih ⟨m, hm⟩ (h.keeps_bound hstmts hk hr)

/-- Every loop fits but `i <= K` with the largest `K`. -/
theorem CountedAs.fits_iff (h : CountedAs b before f lp cond rhs op k) : f.Fits ↔ ¬ (op = .le ∧ k.toInt = 2 ^ 63 - 1) := by
  have hk : k.toInt < 2 ^ 63 := BitVec.toInt_lt
  have htrips := h.trips
  have hchecked : ∀ {r q : ℤ}, checkedInt r = some q → r = q := fun hr ↦ Option.some.inj (Option.ite_none_right_eq_some.mp hr).2
  rw [Found.Fits]
  rcases h.op_eq with rfl | rfl
  · have hd := hchecked htrips
    exact ⟨fun _ hle ↦ (by cases hle.1), fun _ ↦ by omega⟩
  · obtain ⟨d, hd, htrips⟩ := Option.bind_eq_some_iff.mp htrips
    have hd := hchecked hd
    have htrips := hchecked htrips
    refine ⟨fun hfit hle ↦ (by have := hle.2; omega), fun hmax ↦ ?_⟩
    have hne : k.toInt ≠ 2 ^ 63 - 1 := fun hle ↦ hmax ⟨rfl, hle⟩
    omega

end

/-- **Unrolling a body whose loops fit changes no run of it**; and where the copies of a loop end
without a trap, the loop does what they do only if it fits. -/
theorem unroll_exact :
    (∀ {b b' : HirBody} {factor : ℕ}, unroll b factor = some b' → FitsRounds factor rounds b →
      ∀ (host : Host H P W) (s : State H W), b'.run host s = b.run host s) ∧
    ∀ {b : HirBody} {before : List HirExpr} {f : Found} {lp : HirExpr}, counted b lp before = some f →
      ∀ (host : Host H P W) (s : State H W), After before s →
        (∃ v t, (.ok v, t) ∈ Ctx.eval ⟨host, b.locals⟩ (unrolled lp f) s) →
        (Ctx.eval ⟨host, b.locals⟩ (unrolled lp f) s = Ctx.eval ⟨host, b.locals⟩ lp s ↔ f.Fits) := by
  refine ⟨fun h hfit host s ↦ run_unroll h hfit host s, fun h host s hs hends ↦ ?_⟩
  obtain ⟨cond, rhs, op, k, h⟩ := counted_eq_some h
  obtain ⟨v, t, hend⟩ := hends
  refine ⟨fun heq ↦ ?_, fun hfit ↦ h.eval_unrolled rfl hfit hs⟩
  by_contra hfit
  exact h.not_ok rfl hfit hs v t (heq ▸ hend)

/-- `i = n`, for the only local. -/
def setStmt (n : Word) : HirExpr := .node none {} .assign [.node none {} (.loc 0) [], .node none {} (.lit (.int n)) []]

/-- `while i <= last { i = i + 1 }`. -/
def stepLoop (last : Word) : HirExpr :=
  let int (n : Word) := HirExpr.node none {} (.lit (.int n)) []
  let i := HirExpr.node none {} (.loc 0) []
  let step := HirExpr.node none {} .assign [i, .node none {} (.bin .intAdd) [i, int 1]]
  let test := HirExpr.node none {} (.bin .le) [i, int last]
  let ite := HirExpr.node none {} .ite [test, .node none {} (.block false) [step], .node none {} .brk []]
  .node none {} .loop [.node none {} (.block false) [ite]]

def countUp (first last : Word) : HirBody where
  locals := [{}]
  root := some (.node none {} (.block false) [setStmt first, stepLoop last])

/-- The counter set to `first` and then, in a block, to `last`. -/
def setTwice (first last : Word) : HirBody where
  locals := [{}]
  root := some (.node none {} (.block false) [setStmt first, .node none {} (.block false) [setStmt last]])

/-- A run time without operations. -/
def noHost : Host Empty Unit Unit where
  op := fun _ _ _ w ↦ (.error (), w)
  store := fun _ _ _ w ↦ (.error (), w)
  blank := fun _ ↦ .unit
  items := fun _ _ ↦ none
  field := fun _ _ _ ↦ none
  iter := fun _ _ w ↦ (.error (), w)
  next := fun _ _ w ↦ (.error (), w)
  hasDrop := fun _ ↦ false

theorem unroll_exact_two : unroll (countUp 0 2) 8 = some (setTwice 0 3) ∧
    ∀ s, (setTwice 0 3).run noHost s = (countUp 0 2).run noHost s := by
  have hunroll : unroll (countUp 0 2) 8 = some (setTwice 0 3) := rfl
  refine ⟨hunroll, unroll_exact.1 hunroll ⟨fun root hroot f hf ↦ ?_, fun next hnext ↦ ?_⟩ noHost⟩
  · cases hroot
    cases List.mem_singleton.mp (show f ∈ [_] from hf)
    decide
  · cases hnext
    exact ⟨fun root hroot f hf ↦ (by cases hroot; cases hf), fun next hnext ↦ (by cases hnext)⟩

theorem eval_setStmt (c : Ctx H P W) (n : Word) (s : State H W) :
    c.eval (setStmt n) s = .some (.ok (Ctx.shown none {} (s.env 0) (.int n)), s.set 0 (.int n)) :=
  eval_assign_lit c none {} rfl rfl s

theorem eval_block_setStmt (c : Ctx H P W) (n : Word) (stmts : List HirExpr) (s : State H W) :
    c.eval (.node none {} (.block false) (setStmt n :: stmts)) s = c.block false (stmts.map c.den) (s.set 0 (.int n)) := by
  rw [Ctx.eval, Ctx.den_node]
  exact Run.bind_some (eval_setStmt c n s)

theorem run_setTwice (first last : Word) (host : Host H P W) (s : State H W) :
    (setTwice first last).run host s = .some (.ok .unit, s.set 0 (.int last)) := by
  show Ctx.eval ⟨host, [{}]⟩ (.node none {} (.block false) [setStmt first, .node none {} (.block false) [setStmt last]]) s = _
  rw [eval_block_setStmt]
  refine (Run.bind_some (eval_block_setStmt ⟨host, [{}]⟩ last [] _)).trans ?_
  rw [State.set_set]
  rfl

/-- A body that ends, with a loop that ends. -/
theorem run_countUp {first last : Word} {host : Host H P W} {s t : State H W} {v : Value H}
    (h : (.ok v, t) ∈ (countUp first last).run host s) :
    ∃ v u, (.ok v, u) ∈ Ctx.eval ⟨host, [{}]⟩ (stepLoop last) (s.set 0 (.int first)) := by
  change _ ∈ Ctx.eval ⟨host, [{}]⟩ (.node none {} (.block false) [setStmt first, stepLoop last]) s at h
  rw [eval_block_setStmt] at h
  obtain ⟨⟨q, u⟩, hq, h⟩ := Part.mem_bind_iff.mp h
  cases q with
  | ok v => exact ⟨v, u, hq⟩
  | error e => cases Part.mem_some_iff.mp h

/-- `i <= 2 ^ 63 - 1` from the largest `int` traps when it steps `i`; unrolled it sets `i` to the smallest. -/
theorem unroll_overflow : ¬ ∀ (b b' : HirBody) (factor : ℕ), unroll b factor = some b' →
    ∀ s, b'.run noHost s = b.run noHost s := by
  intro hall
  have heq := hall (countUp 0x7fffffffffffffff#64 0x7fffffffffffffff#64) (setTwice 0x7fffffffffffffff#64 0x8000000000000000#64) 8
    rfl ⟨fun _ ↦ .unit, ()⟩
  rw [run_setTwice] at heq
  obtain ⟨v, u, hend⟩ := run_countUp (heq ▸ Part.mem_some _)
  obtain ⟨cond, rhs, op, k, h⟩ := counted_eq_some
    (show counted (countUp 0x7fffffffffffffff#64 0x7fffffffffffffff#64) (stepLoop 0x7fffffffffffffff#64)
      [setStmt 0x7fffffffffffffff#64] = some _ from rfl)
  refine h.not_ok rfl (by decide) ?_ v u hend
  exact (show After [] _ from fun l n h ↦ (by cases h)).step ⟨noHost, [{}]⟩ (by rw [eval_setStmt]; exact Part.mem_some _)

end CoilLang.Hir
