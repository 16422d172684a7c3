import CoilLang.Hir.Relation
import CoilLang.Hir.Unroll

/-!
# Locals a tree leaves alone

`writes` looks for a node that may write a local, anywhere below a tree. Where it finds none, a run of the
tree **leaves the local as it was** (`keeps_of_writes`), whether it ends with a value or with an exit. A
trap is apart, since no value of a local is kept over it that no `defer` captures.
-/

namespace CoilLang.Hir

variable {H P W α β : Type}

namespace Run

theorem bind_apply (m : Run H P W α) (f : α → Run H P W β) (s : State H W) : (m >>= f) s = (m s).bind (andThen f) := rfl

theorem pure_apply (a : α) (s : State H W) : (pure a : Run H P W α) s = .some (.ok a, s) := rfl

/-- A run after a value is the run from there. -/
theorem bind_some {m : Run H P W α} {f : α → Run H P W β} {s t : State H W} {a : α} (h : m s = .some (.ok a, t)) :
    (m >>= f) s = f a t := by
  rw [bind_apply, h, Part.bind_some, andThen]

theorem bind_error {m : Run H P W α} {f : α → Run H P W β} {s t : State H W} {e : Exit H P}
    (h : m s = .some (.error e, t)) : (m >>= f) s = .some (.error e, t) := by
  rw [bind_apply, h, Part.bind_some, andThen]

/-- What the world determines is looked up without a change. -/
theorem look_bind_some {keep : LocalId → Bool} {f : W → Option α} {k : α → Run H P W β} {s : State H W} {a : α}
    (h : f s.world = some a) : (look keep f >>= k) s = k a s :=
  bind_some (by rw [look, h])

theorem look_bind_none {keep : LocalId → Bool} {f : W → Option α} {k : α → Run H P W β} {s : State H W}
    (h : f s.world = none) : (look keep f >>= k) s = .some (.error (.trap .stuck), s.onlyKeep keep) :=
  bind_error (by rw [look, h])

end Run

def Exit.isTrap : Exit H P → Bool
  | .trap _ => true
  | _ => false

/-- The result is not a trap. -/
def Runs : Except (Exit H P) α → Prop
  | .ok _ => True
  | .error e => e.isTrap = false

/-- A run that does not trap leaves the local as it was. -/
def Keeps (i : LocalId) (m : Run H P W α) : Prop := ∀ s, ∀ r ∈ m s, Runs r.1 → r.2.env i = s.env i

namespace Keeps

variable {i : LocalId}

theorem pure (a : α) : Keeps i (pure a : Run H P W α) := by
  intro s r hr _
  rw [Part.mem_some_iff.mp hr]

theorem bind {m : Run H P W α} {f : α → Run H P W β} (hm : Keeps i m) (hf : ∀ a, Keeps i (f a)) : Keeps i (m >>= f) := by
  intro s r hr hruns
  obtain ⟨⟨q, t⟩, hq, hr⟩ := Part.mem_bind_iff.mp hr
  cases q with
  | ok a => exact (hf a t r hr hruns).trans (hm s _ hq trivial)
  | error e =>
    rw [Part.mem_some_iff.mp hr] at hruns ⊢
    exact hm s _ hq hruns

theorem exit (e : Exit H P) : Keeps i (Run.exit e : Run H P W α) := by
  intro s r hr _
  rw [Part.mem_some_iff.mp hr]

theorem trap (keep : LocalId → Bool) (t : Trap P) : Keeps i (Run.trap keep t : Run H P W α) := by
  intro s r hr hruns
  rw [Part.mem_some_iff.mp hr] at hruns
  exact absurd hruns Bool.true_eq_false.mp

theorem host (keep : LocalId → Bool) (f : W → Except P α × W) : Keeps i (Run.host keep f : Run H P W α) := by
  intro s r hr hruns
  unfold Run.host at hr
  split at hr
  · rw [Part.mem_some_iff.mp hr]
  · rw [Part.mem_some_iff.mp hr] at hruns
    exact absurd hruns Bool.true_eq_false.mp

theorem look {keep : LocalId → Bool} {f : W → Option α} {k : α → Run H P W β}
    (hk : ∀ w a, f w = some a → Keeps i (k a)) : Keeps i (Run.look keep f >>= k) := by
  intro s r hr hruns
  cases h : f s.world with
  | some a =>
    rw [Run.look_bind_some h] at hr
    exact hk _ a h s r hr hruns
  | none =>
    rw [Run.look_bind_none h] at hr
    rw [Part.mem_some_iff.mp hr] at hruns
    exact absurd hruns Bool.true_eq_false.mp

theorem read (l : LocalId) : Keeps i (Run.read l : Run H P W (Value H)) := by
  intro s r hr _
  rw [Part.mem_some_iff.mp hr]

theorem write {l : LocalId} (v : Value H) (h : l ≠ i) : Keeps i (Run.write l v : Run H P W Unit) := by
  intro s r hr _
  rw [Part.mem_some_iff.mp hr]
  exact if_neg h.symm

theorem deferring {d : Run H P W β} {m : Run H P W α} (keep : LocalId → Bool) (captures : List (Option LocalId))
    (hm : Keeps i m) : Keeps i (Run.deferring keep captures d m) := by
  intro s r hr hruns
  obtain ⟨q, hq, hr⟩ := Part.mem_bind_iff.mp hr
  obtain ⟨⟨x, u⟩, -, rfl⟩ := (Part.mem_map_iff _).mp hr
  unfold Run.afterDefer at hruns ⊢
  split at hruns
  · exact absurd hruns Bool.true_eq_false.mp
  · exact hm s q hq hruns

/-- Each trip of an iteration keeps the local, so the iteration does. -/
theorem fix {σ : Type} (env : σ → Value H) {step : σ →. (Except (Exit H P) (Value H) × State H W) ⊕ σ}
    (hstop : ∀ a, ∀ r, Sum.inl r ∈ step a → Runs r.1 → r.2.env i = env a)
    (hagain : ∀ a b, Sum.inr b ∈ step a → env b = env a) {a : σ} {r : Except (Exit H P) (Value H) × State H W}
    (h : r ∈ step.fix a) (hr : Runs r.1) : r.2.env i = env a :=
  PFun.fixInduction' h (fun b hb ↦ hstop b r hb hr) fun b d _ hd ih ↦ ih.trans (hagain b d hd)

theorem of_trip_inl {q : Except (Exit H P) α × State H W} {again : State H W → β}
    {r : Except (Exit H P) (Value H) × State H W} (h : Run.trip again q = .inl r) : r.2 = q.2 ∧ (Runs r.1 → Runs q.1) := by
  unfold Run.trip at h
  split at h
  · cases h
  · cases h
  · cases h
    exact ⟨rfl, fun _ ↦ rfl⟩
  · cases h
    exact ⟨rfl, id⟩

theorem of_trip_inr {q : Except (Exit H P) α × State H W} {again : State H W → β} {b : β}
    (h : Run.trip again q = .inr b) : b = again q.2 ∧ Runs q.1 := by
  unfold Run.trip at h
  split at h
  · cases h
    exact ⟨rfl, trivial⟩
  · cases h
    exact ⟨rfl, rfl⟩
  · cases h
  · cases h

theorem loop {m : Run H P W α} (hm : Keeps i m) : Keeps i (Run.loop m) := by
  intro s r hr hruns
  refine fix (fun t : State H W ↦ t.env i) (fun t q hq hq' ↦ ?_) (fun t u hu ↦ ?_) hr hruns
  · obtain ⟨p, hp, htrip⟩ := (Part.mem_map_iff _).mp hq
    obtain ⟨hstate, hruns⟩ := of_trip_inl htrip
    rw [hstate]
    exact hm t p hp (hruns hq')
  · obtain ⟨p, hp, htrip⟩ := (Part.mem_map_iff _).mp hu
    obtain ⟨rfl, hruns⟩ := of_trip_inr htrip
    exact hm t p hp hruns

theorem forIn {next : Value H → Run H P W (Option (Value H × Value H))} {m : Value H → Run H P W α} (it : Value H)
    (hnext : ∀ x, Keeps i (next x)) (hm : ∀ x, Keeps i (m x)) : Keeps i (Run.forIn next m it) := by
  intro s r hr hruns
  refine fix (fun p : Value H × State H W ↦ p.2.env i) (a := (it, s)) (fun p q hq hq' ↦ ?_) (fun p u hu ↦ ?_) hr hruns
  · obtain ⟨x, hx, hq⟩ := Part.mem_bind_iff.mp hq
    unfold Run.item at hq
    split at hq
    · obtain ⟨y, hy, htrip⟩ := (Part.mem_map_iff _).mp hq
      obtain ⟨hstate, hruns⟩ := of_trip_inl htrip
      rw [hstate]
      exact (hm _ _ y hy (hruns hq')).trans (hnext _ _ _ hx trivial)
    · cases Part.mem_some_iff.mp hq
      exact hnext _ _ _ hx trivial
    · cases Part.mem_some_iff.mp hq
      exact hnext _ _ _ hx hq'
  · obtain ⟨x, hx, hu⟩ := Part.mem_bind_iff.mp hu
    unfold Run.item at hu
    split at hu
    · obtain ⟨y, hy, htrip⟩ := (Part.mem_map_iff _).mp hu
      obtain ⟨rfl, hruns⟩ := of_trip_inr htrip
      exact (hm _ _ y hy hruns).trans (hnext _ _ _ hx trivial)
    · cases Part.mem_some_iff.mp hu
    · cases Part.mem_some_iff.mp hu

end Keeps

/-! ### Trees -/

/-- Equal runs that keep a local. -/
def keepsRel (c : Ctx H P W) (i : LocalId) : RunRel c where
  rel m m' := m' = m ∧ Keeps i m
  reads _ := True
  writes l := l ≠ i
  control := True
  pure a := ⟨rfl, .pure a⟩
  bind hm hf := ⟨by rw [hm.1, funext fun a ↦ (hf a).1], hm.2.bind fun a ↦ (hf a).2⟩
  trap t := ⟨rfl, .trap _ t⟩
  host f := ⟨rfl, .host _ f⟩
  look f k k' hk := by
    refine ⟨funext fun s ↦ ?_, .look fun w a h ↦ (hk w a h).2⟩
    cases h : f s.world with
    | some a => rw [Run.look_bind_some h, Run.look_bind_some h, (hk _ a h).1]
    | none => rw [Run.look_bind_none h, Run.look_bind_none h]
  read _ := ⟨rfl, .read _⟩
  write v h := ⟨rfl, .write v h⟩
  exit e _ := ⟨rfl, .exit e⟩
  loop _ hm := ⟨by rw [hm.1], hm.2.loop⟩
  forIn it _ hn hm := ⟨by rw [funext fun x ↦ (hn x).1, funext fun x ↦ (hm x).1], .forIn it (fun x ↦ (hn x).2) fun x ↦ (hm x).2⟩
  deferring captures _ hd hm := ⟨by rw [hd.1, hm.1], hm.2.deferring _ captures⟩

theorem shapeOf_eq_loc {R : Type} {ty : Option Ty} {k : HirKind} {ms : List (Meaning R)} {l : LocalId} :
    shapeOf ty k ms = .loc l ↔ k = .loc l := by
  refine ⟨fun h ↦ ?_, fun h ↦ by rw [h, shapeOf]⟩
  unfold shapeOf at h
  split at h <;> cases h
  rfl

theorem shape_den_eq_loc {c : Ctx H P W} {e : HirExpr} {l : LocalId} : (c.den e).shape = .loc l ↔ e.kind = .loc l := by
  obtain ⟨ty, flags, kind, children⟩ := e
  rw [Ctx.den_node]
  exact shapeOf_eq_loc

theorem writes_eq_false {e : HirExpr} {i : LocalId} : writes e i = false ↔ ∀ x ∈ e.nodes, x.writesHere i = false := by
  rw [writes, List.any_eq_false]
  simp

theorem writes_child {e x : HirExpr} {i : LocalId} (h : writes e i = false) (hx : x ∈ e.children) : writes x i = false :=
  writes_eq_false.mpr fun y hy ↦ writes_eq_false.mp h y (HirExpr.mem_nodes_of_child hx y hy)

/-- A node that does not write a local itself asks for nothing of it but reads. -/
theorem keepsRel_allows (c : Ctx H P W) {i : LocalId} {ty : Option Ty} {flags : HirFlags} {k : HirKind} {es : List HirExpr}
    (h : HirExpr.writesHere i (.node ty flags k es) = false) : (keepsRel c i).Allows k (es.map c.den) := by
  cases k with
  | letLocal l => exact fun hl ↦ absurd h (by simp [HirExpr.writesHere, hl])
  | letPat p => cases h
  | assign =>
    cases es with
    | nil => exact fun m hm ↦ absurd hm (by simp)
    | cons place es =>
      intro m hm l hl
      rw [List.map_cons, List.head?_cons, Option.mem_some_iff] at hm
      rw [← hm, shape_den_eq_loc] at hl
      refine ⟨trivial, fun hli ↦ ?_⟩
      rw [← hli, HirExpr.writesHere, HirExpr.isLoc_iff.mpr hl] at h
      cases h
  | forIn p kind => cases h
  | matchOn ps => cases h
  | lambda body => cases h
  | clear ls =>
    intro l hl hli
    rw [HirExpr.writesHere, ← hli, List.contains_eq_mem, decide_eq_false_iff_not] at h
    exact h hl
  | _ => exact trivial

theorem keepsRel_den (c : Ctx H P W) {i : LocalId} (e : HirExpr) (h : writes e i = false) :
    (keepsRel c i).NodeRel (c.den e) (c.den e) := by
  induction e using HirExpr.induction with
  | h ty flags kind children ih =>
    refine RunRel.node (keepsRel_allows c (writes_eq_false.mp h _ (HirExpr.mem_nodes_self _))) ?_
    exact List.forall₂_same.mpr fun x hx ↦ ih x hx (writes_child h hx)

/-- **A tree with no write of a local keeps it.** -/
theorem keeps_of_writes (c : Ctx H P W) {i : LocalId} {e : HirExpr} (h : writes e i = false) : Keeps i (c.eval e) :=
  (keepsRel_den c e h).run.2

end CoilLang.Hir
