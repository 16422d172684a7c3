import CoilLang.Hir.Run

/-!
# Relations that the meaning of a tree respects

The meaning of a node is made from the meanings of its children by a few operations on runs. A relation
between runs that these respect (`RunRel`) **holds between two nodes of one kind** when it
holds between their children (`RunRel.node`). Every argument about a rewrite below a node is an instance: that
a tree leaves a local alone, that two trees run alike where a local has a known value.

A relation need not allow everything. It says which locals may be read and written, and whether a
run may leave an expression other than by a trap (`control`); `RunRel.Allows` collects what a kind
asks for.
-/

namespace CoilLang.Hir

variable {H P W : Type}

/-- A relation between runs that the operations of the language respect. -/
structure RunRel (c : Ctx H P W) where
  rel : ∀ {α : Type}, Run H P W α → Run H P W α → Prop
  reads : LocalId → Prop
  writes : LocalId → Prop
  /-- Loops, exits and `defer` are respected too. -/
  control : Prop
  pure : ∀ {α : Type} (a : α), rel (pure a) (pure a)
  bind : ∀ {α β : Type} {m m' : Run H P W α} {f f' : α → Run H P W β}, rel m m' → (∀ a, rel (f a) (f' a)) →
    rel (m >>= f) (m' >>= f')
  trap : ∀ {α : Type} (t : Trap P), rel (Run.trap c.captured t : Run H P W α) (Run.trap c.captured t)
  host : ∀ {α : Type} (f : W → Except P α × W), rel (Run.host c.captured f) (Run.host c.captured f)
  look : ∀ {α β : Type} (f : W → Option α) {k k' : α → Run H P W β}, (∀ w a, f w = some a → rel (k a) (k' a)) →
    rel (Run.look c.captured f >>= k) (Run.look c.captured f >>= k')
  read : ∀ {l : LocalId}, reads l → rel (Run.read l) (Run.read l)
  write : ∀ {l : LocalId} (v : Value H), writes l → rel (Run.write l v) (Run.write l v)
  exit : ∀ {α : Type} (e : Exit H P), control → rel (Run.exit e : Run H P W α) (Run.exit e)
  loop : ∀ {α : Type} {m m' : Run H P W α}, control → rel m m' → rel (Run.loop m) (Run.loop m')
  forIn : ∀ {α : Type} {next next' : Value H → Run H P W (Option (Value H × Value H))} {m m' : Value H → Run H P W α}
    (it : Value H), control → (∀ x, rel (next x) (next' x)) → (∀ x, rel (m x) (m' x)) →
    rel (Run.forIn next m it) (Run.forIn next' m' it)
  deferring : ∀ {α β : Type} {d d' : Run H P W β} {m m' : Run H P W α} (captures : List (Option LocalId)), control →
    rel d d' → rel m m' → rel (Run.deferring c.captured captures d m) (Run.deferring c.captured captures d' m')

mutual

/-- The locals a pattern binds. -/
def HirPat.locals : HirPat → List LocalId
  | .bind l => [l]
  | .variantTuple _ _ ps => localsOf ps
  | .variantRecord _ _ ps => fieldLocals ps
  | .tuple ps => localsOf ps
  | .record ps => fieldLocals ps
  | _ => []
termination_by structural p => p

def HirPat.localsOf : List HirPat → List LocalId
  | [] => []
  | p :: ps => p.locals ++ localsOf ps
termination_by structural ps => ps

def HirPat.fieldLocals : List (String × HirPat) → List LocalId
  | [] => []
  | (_, p) :: ps => p.locals ++ fieldLocals ps
termination_by structural ps => ps

end

namespace Ctx

variable (c : Ctx H P W)

mutual

theorem mem_locals_of_binds (w : W) : ∀ (p : HirPat) (v : Value H) (bs : List (LocalId × Value H)),
    c.binds w p v = some bs → ∀ b ∈ bs, b.1 ∈ p.locals
  | .wild, v, bs, h, b, hb => by
    rw [binds, Option.some.injEq] at h
    exact absurd (h ▸ hb) List.not_mem_nil
  | .bind l, v, bs, h, b, hb => by
    rw [binds, Option.some.injEq] at h
    rw [← h, List.mem_singleton] at hb
    rw [hb, HirPat.locals]
    exact List.mem_singleton_self l
  | .int n, v, bs, h, b, hb => by
    rw [binds, Option.ite_none_right_eq_some, Option.some.injEq] at h
    exact absurd (h.2 ▸ hb) List.not_mem_nil
  | .variant e k, v, bs, h, b, hb => by
    rw [binds, Option.map_eq_some_iff] at h
    obtain ⟨p, -, rfl⟩ := h
    exact absurd hb List.not_mem_nil
  | .variantTuple e k ps, v, bs, h, b, hb => by
    rw [binds, Option.bind_eq_some_iff] at h
    obtain ⟨p, -, h⟩ := h
    rw [HirPat.locals]
    exact mem_localsOf_of_bindsAll w ps p.2 bs h b hb
  | .variantRecord e k ps, v, bs, h, b, hb => by
    rw [binds, Option.bind_eq_some_iff] at h
    obtain ⟨p, -, h⟩ := h
    rw [HirPat.locals]
    exact mem_fieldLocals_of_bindsFields w ps _ bs h b hb
  | .tuple ps, v, bs, h, b, hb => by
    rw [binds, Option.bind_eq_some_iff] at h
    obtain ⟨vs, -, h⟩ := h
    rw [HirPat.locals]
    exact mem_localsOf_of_bindsAll w ps vs bs h b hb
  | .record ps, v, bs, h, b, hb => by
    rw [binds] at h
    rw [HirPat.locals]
    exact mem_fieldLocals_of_bindsFields w ps _ bs h b hb
termination_by structural p => p

theorem mem_localsOf_of_bindsAll (w : W) : ∀ (ps : List HirPat) (vs : List (Value H)) (bs : List (LocalId × Value H)),
    c.bindsAll w ps vs = some bs → ∀ b ∈ bs, b.1 ∈ HirPat.localsOf ps
  | [], vs, bs, h, b, hb => by
    rw [bindsAll, Option.ite_none_right_eq_some, Option.some.injEq] at h
    exact absurd (h.2 ▸ hb) List.not_mem_nil
  | p :: ps, vs, bs, h, b, hb => by
    rw [bindsAll, Option.bind_eq_some_iff] at h
    obtain ⟨v, -, h⟩ := h
    rw [Option.bind_eq_some_iff] at h
    obtain ⟨bs₁, h₁, h⟩ := h
    rw [Option.map_eq_some_iff] at h
    obtain ⟨bs₂, h₂, rfl⟩ := h
    rw [HirPat.localsOf, List.mem_append]
    rcases List.mem_append.mp hb with hb | hb
    · exact .inl (mem_locals_of_binds w p v bs₁ h₁ b hb)
    · exact .inr (mem_localsOf_of_bindsAll w ps vs.tail bs₂ h₂ b hb)
termination_by structural ps => ps

theorem mem_fieldLocals_of_bindsFields (w : W) : ∀ (ps : List (String × HirPat)) (get : String → Option (Value H))
    (bs : List (LocalId × Value H)), c.bindsFields w ps get = some bs → ∀ b ∈ bs, b.1 ∈ HirPat.fieldLocals ps
  | [], get, bs, h, b, hb => by
    rw [bindsFields, Option.some.injEq] at h
    exact absurd (h ▸ hb) List.not_mem_nil
  | (f, p) :: ps, get, bs, h, b, hb => by
    rw [bindsFields, Option.bind_eq_some_iff] at h
    obtain ⟨v, -, h⟩ := h
    rw [Option.bind_eq_some_iff] at h
    obtain ⟨bs₁, h₁, h⟩ := h
    rw [Option.map_eq_some_iff] at h
    obtain ⟨bs₂, h₂, rfl⟩ := h
    rw [HirPat.fieldLocals, List.mem_append]
    rcases List.mem_append.mp hb with hb | hb
    · exact .inl (mem_locals_of_binds w p v bs₁ h₁ b hb)
    · exact .inr (mem_fieldLocals_of_bindsFields w ps get bs₂ h₂ b hb)
termination_by structural ps => ps

end

theorem mem_locals_of_arm {w : W} {v : Value H} {ps : List HirPat} {r : List (LocalId × Value H) × ℕ}
    (h : c.arm w v ps = some r) : ∀ b ∈ r.1, ∃ p ∈ ps, b.1 ∈ p.locals := by
  induction ps generalizing r with
  | nil => cases h
  | cons p ps ih =>
    rw [arm] at h
    split at h
    · rename_i bs hbs
      cases h
      exact fun b hb ↦ ⟨p, List.mem_cons_self, c.mem_locals_of_binds w p v bs hbs b hb⟩
    · rw [Option.map_eq_some_iff] at h
      obtain ⟨r', hr', rfl⟩ := h
      intro b hb
      obtain ⟨q, hq, hbq⟩ := ih hr' b hb
      exact ⟨q, List.mem_cons_of_mem p hq, hbq⟩

end Ctx

namespace RunRel

variable {c : Ctx H P W} (R : RunRel c)

/-! ### The operations the meaning of a node is made of -/

theorem all {α : Type} {ms ms' : List (Run H P W α)} (h : List.Forall₂ R.rel ms ms') :
    R.rel (Run.all ms) (Run.all ms') := by
  induction h with
  | nil => exact R.pure []
  | cons hm _ ih => exact R.bind hm fun a ↦ R.bind ih fun as ↦ R.pure (a :: as)

theorem writeAll (bs : List (LocalId × Value H)) (h : ∀ b ∈ bs, R.writes b.1) :
    R.rel (Run.writeAll bs) (Run.writeAll bs) := by
  induction bs with
  | nil => exact R.pure ()
  | cons b bs ih =>
    exact R.bind (R.write b.2 (h b List.mem_cons_self)) fun _ ↦ ih fun x hx ↦ h x (List.mem_cons_of_mem b hx)

theorem op (k : HirKind) (ty : Option Ty) (vs : List (Value H)) : R.rel (c.op k ty vs) (c.op k ty vs) := R.host _

theorem arith (r : IntResult) : R.rel (c.arith r) (c.arith r) := by
  unfold Ctx.arith
  split
  · exact R.pure _
  · exact R.trap _

theorem bin (o : BinOp) (ty : Option Ty) (a b : Value H) : R.rel (c.bin o ty a b) (c.bin o ty a b) := by
  unfold Ctx.bin
  split
  · split
    · exact R.arith _
    · exact R.pure _
    · exact R.op _ _ _
  · split
    · exact R.pure _
    · exact R.op _ _ _
  · exact R.op _ _ _

theorem un (o : UnOp) (ty : Option Ty) (a : Value H) : R.rel (c.un o ty a) (c.un o ty a) := by
  unfold Ctx.un
  split
  · split
    · exact R.arith _
    · exact R.pure _
    · exact R.pure _
  · split
    · exact R.pure _
    · exact R.op _ _ _
  · exact R.op _ _ _

theorem lit (ty : Option Ty) (l : Lit) : R.rel (c.lit ty l) (c.lit ty l) := by
  cases l with
  | int n => exact R.pure _
  | bool b => exact R.pure _
  | unit => exact R.pure _
  | float bits => exact R.op _ _ _
  | str s => exact R.op _ _ _

theorem make (kind : MakeKind) (ty : Option Ty) (vs : List (Value H)) : R.rel (c.make kind ty vs) (c.make kind ty vs) := by
  unfold Ctx.make
  split
  · split
    · exact R.bind (R.op _ _ _) fun _ ↦ R.pure _
    · exact R.pure _
  · exact R.op _ _ _

/-! ### Related nodes -/

/-- What a parent sees of two nodes is related; a local that may not be written need not be seen as a place. -/
inductive ShapeRel : Shape (Run H P W (Value H)) → Shape (Run H P W (Value H)) → Prop
  | loc (l : LocalId) : ShapeRel (.loc l) (.loc l)
  | hidden {l : LocalId} : ¬ R.writes l → ShapeRel (.loc l) .other
  | place (k : HirKind) (ty : Option Ty) {os os' : List (Run H P W (Value H))} : List.Forall₂ R.rel os os' →
    ShapeRel (.place k ty os) (.place k ty os')
  | defer (captures : List (Option LocalId)) {d d' : Run H P W (Value H)} : R.control → R.rel d d' →
    ShapeRel (.defer captures d) (.defer captures d')
  | bin (op : BinOp) (ty : Option Ty) {r r' : Run H P W (Value H)} : R.rel r r' → ShapeRel (.bin op ty r) (.bin op ty r')
  | other : ShapeRel .other .other

structure NodeRel (m m' : Meaning (Run H P W (Value H))) : Prop where
  run : R.rel m.run m'.run
  shape : R.ShapeRel m.shape m'.shape

/-- What a node of a kind asks of the relation. -/
def Allows (k : HirKind) (ms : List (Meaning (Run H P W (Value H)))) : Prop :=
  match k with
  | .loc l => R.reads l
  | .letLocal l => R.writes l
  | .letPat p => ∀ l ∈ p.locals, R.writes l
  | .assign => ∀ m ∈ ms.head?, ∀ l, m.shape = .loc l → R.reads l ∧ R.writes l
  | .loop | .brk | .cont | .ret | .defer _ => R.control
  | .forIn p _ => R.control ∧ ∀ l ∈ p.locals, R.writes l
  | .matchOn ps => ∀ p ∈ ps, ∀ l ∈ p.locals, R.writes l
  | .lambda _ => ∀ l ∈ c.captures, R.reads l
  | .clear ls => ∀ l ∈ ls, R.writes l
  | _ => True

variable {R}

theorem runs {ms ms' : List (Meaning (Run H P W (Value H)))} (h : List.Forall₂ R.NodeRel ms ms') :
    List.Forall₂ R.rel (Meaning.runs ms) (Meaning.runs ms') := by
  induction h with
  | nil => exact .nil
  | cons hm _ ih => exact .cons hm.run ih

theorem shapeOf {ty : Option Ty} {k : HirKind} {ms ms' : List (Meaning (Run H P W (Value H)))}
    (hk : R.Allows k ms) (h : List.Forall₂ R.NodeRel ms ms') :
    R.ShapeRel (Hir.shapeOf ty k ms) (Hir.shapeOf ty k ms') := by
  cases k with
  | loc l => exact .loc l
  | global name => exact .place _ _ (runs h)
  | field name => exact .place _ _ (runs h)
  | index kind => exact .place _ _ (runs h)
  | defer captures =>
    rcases h with _ | ⟨ha, _ | ⟨hb, h⟩⟩
    · exact .other
    · exact .defer _ hk ha.run
    · exact .other
  | bin op =>
    rcases h with _ | ⟨ha, _ | ⟨hb, _ | ⟨hc, h⟩⟩⟩
    · exact .other
    · exact .other
    · exact .bin _ _ hb.run
    · exact .other
  | _ => exact .other

theorem block {tail : Bool} {ms ms' : List (Meaning (Run H P W (Value H)))} (h : List.Forall₂ R.NodeRel ms ms') :
    R.rel (c.block tail ms) (c.block tail ms') := by
  induction h with
  | nil => exact R.pure _
  | @cons m m' ms ms' hm hms ih =>
    have hempty : ms.isEmpty = ms'.isEmpty := by
      rw [Bool.eq_iff_iff, List.isEmpty_iff_length_eq_zero, List.isEmpty_iff_length_eq_zero, hms.length_eq]
    have hplain : R.rel (if tail ∧ ms.isEmpty then m.run else m.run >>= fun _ ↦ c.block tail ms)
        (if tail ∧ ms'.isEmpty then m'.run else m'.run >>= fun _ ↦ c.block tail ms') := by
      rw [hempty]
      split
      · exact hm.run
      · exact R.bind hm.run fun _ ↦ ih
    obtain ⟨run, shape⟩ := m
    obtain ⟨run', shape'⟩ := m'
    cases hm.shape with
    | defer captures hc hd => exact R.deferring captures hc hd ih
    | _ => exact hplain

theorem assign {ty : Option Ty} {flags : HirFlags} {place place' value value' : Meaning (Run H P W (Value H))}
    (hp : R.NodeRel place place') (hv : R.NodeRel value value')
    (hl : ∀ l, place.shape = .loc l → R.reads l ∧ R.writes l) :
    R.rel (c.assign ty flags place value) (c.assign ty flags place' value') := by
  obtain ⟨run, shape⟩ := place
  obtain ⟨run', shape'⟩ := place'
  cases hp.shape with
  | loc l =>
    obtain ⟨hr, hw⟩ := hl l rfl
    exact R.bind (R.read hr) fun old ↦ R.bind hv.run fun v ↦ R.bind (R.write v hw) fun _ ↦ R.pure _
  | hidden hn => exact absurd (hl _ rfl).2 hn
  | place k placeTy hos =>
    have hplain : ∀ (store : List (Value H) → Value H → Run H P W Unit), (∀ vs v, R.rel (store vs v) (store vs v)) →
        ∀ {os os'}, List.Forall₂ R.rel os os' →
        R.rel (value.run >>= fun v ↦ Run.all os >>= fun vs ↦ store vs v >>= fun _ ↦ Pure.pure (Ctx.shown ty flags v v))
          (value'.run >>= fun v ↦ Run.all os' >>= fun vs ↦ store vs v >>= fun _ ↦ Pure.pure (Ctx.shown ty flags v v)) :=
      fun store hstore os os' hos ↦
        R.bind hv.run fun v ↦ R.bind (R.all hos) fun vs ↦ R.bind (hstore vs v) fun _ ↦ R.pure _
    obtain ⟨vrun, vshape⟩ := value
    obtain ⟨vrun', vshape'⟩ := value'
    obtain ⟨adjust, prefixed, compound⟩ := flags
    cases compound with
    | false => exact hplain _ (fun vs v ↦ R.host _) hos
    | true =>
      cases hv.shape with
      | bin op opTy hrhs =>
        exact R.bind (R.all hos) fun vs ↦ R.bind (R.op _ _ _) fun old ↦ R.bind hrhs fun r ↦
          R.bind (R.bin _ _ _ _) fun v ↦ R.bind (R.host _) fun _ ↦ R.pure _
      | _ => exact hplain _ (fun vs v ↦ R.host _) hos
  | defer captures hc hd => exact R.trap _
  | bin op opTy hr => exact R.trap _
  | other => exact R.trap _

theorem strict {k : HirKind} {ty : Option Ty} {ms ms' : List (Meaning (Run H P W (Value H)))}
    (h : List.Forall₂ R.NodeRel ms ms') :
    R.rel (Run.all (Meaning.runs ms) >>= fun vs ↦ c.op k ty vs) (Run.all (Meaning.runs ms') >>= fun vs ↦ c.op k ty vs) :=
  R.bind (R.all (runs h)) fun vs ↦ R.op k ty vs

theorem getD_runs {ms ms' : List (Meaning (Run H P W (Value H)))} (h : List.Forall₂ R.NodeRel ms ms') (k : ℕ) :
    R.rel ((Meaning.runs ms).getD k (Run.trap c.captured .stuck)) ((Meaning.runs ms').getD k (Run.trap c.captured .stuck)) := by
  induction h generalizing k with
  | nil => exact R.trap _
  | cons hm _ ih =>
    cases k with
    | zero => exact hm.run
    | succ k => exact ih k

theorem cond {x x' : Run H P W (Value H)} (hx : R.rel x x')
    {t t' e e' : Bool → Run H P W (Value H)} (ht : ∀ b, R.rel (t b) (t' b)) (he : ∀ b, R.rel (e b) (e' b)) (want : Bool) :
    R.rel (x >>= fun v ↦ Run.look c.captured (fun _ ↦ v.truth) >>= fun b ↦ if b = want then t b else e b)
      (x' >>= fun v ↦ Run.look c.captured (fun _ ↦ v.truth) >>= fun b ↦ if b = want then t' b else e' b) := by
  refine R.bind hx fun v ↦ R.look _ fun _ b _ ↦ ?_
  split
  · exact ht b
  · exact he b

/-- Related children make related nodes. -/
theorem sem {ty : Option Ty} {flags : HirFlags} {k : HirKind} {ms ms' : List (Meaning (Run H P W (Value H)))}
    (hk : R.Allows k ms) (h : List.Forall₂ R.NodeRel ms ms') :
    R.rel (c.sem ty flags k ms) (c.sem ty flags k ms') := by
  cases k with
  | lit l => exact R.lit ty l
  | loc l => exact R.read hk
  | bin op =>
    rcases h with _ | ⟨ha, _ | ⟨hb, _ | ⟨hc, h⟩⟩⟩
    · exact strict .nil
    · exact strict (.cons ha .nil)
    · exact R.bind ha.run fun x ↦ R.bind hb.run fun y ↦ R.bin op ty x y
    · exact strict (.cons ha (.cons hb (.cons hc h)))
  | logic and =>
    rcases h with _ | ⟨ha, _ | ⟨hb, _ | ⟨hc, h⟩⟩⟩
    · exact strict .nil
    · exact strict (.cons ha .nil)
    · exact cond ha.run (fun _ ↦ hb.run) (fun t ↦ R.pure _) and
    · exact strict (.cons ha (.cons hb (.cons hc h)))
  | un op =>
    rcases h with _ | ⟨ha, _ | ⟨hb, h⟩⟩
    · exact strict .nil
    · exact R.bind ha.run fun x ↦ R.un op ty x
    · exact strict (.cons ha (.cons hb h))
  | make kind => exact R.bind (R.all (runs h)) fun vs ↦ R.make kind ty vs
  | block tail => exact block h
  | letLocal l =>
    rcases h with _ | ⟨ha, _ | ⟨hb, h⟩⟩
    · exact R.bind (R.write _ hk) fun _ ↦ R.pure _
    · exact R.bind ha.run fun v ↦ R.bind (R.write v hk) fun _ ↦ R.pure _
    · exact strict (.cons ha (.cons hb h))
  | letPat pat =>
    rcases h with _ | ⟨ha, _ | ⟨hb, h⟩⟩
    · exact strict .nil
    · refine R.bind ha.run fun v ↦ R.look _ fun w bs hbs ↦ R.bind (R.writeAll bs fun b hb ↦ ?_) fun _ ↦ R.pure _
      exact hk _ (c.mem_locals_of_binds w pat v bs hbs b hb)
    · exact strict (.cons ha (.cons hb h))
  | assign =>
    rcases h with _ | ⟨ha, _ | ⟨hb, _ | ⟨hc, h⟩⟩⟩
    · exact strict .nil
    · exact strict (.cons ha .nil)
    · exact assign ha hb fun l hl ↦ hk _ rfl l hl
    · exact strict (.cons ha (.cons hb (.cons hc h)))
  | ite =>
    rcases h with _ | ⟨ha, _ | ⟨hb, _ | ⟨hc, _ | ⟨hd, h⟩⟩⟩⟩
    · exact strict .nil
    · exact strict (.cons ha .nil)
    · exact cond ha.run (fun _ ↦ hb.run) (fun _ ↦ R.pure _) true
    · exact cond ha.run (fun _ ↦ hb.run) (fun _ ↦ hc.run) true
    · exact strict (.cons ha (.cons hb (.cons hc (.cons hd h))))
  | loop =>
    rcases h with _ | ⟨ha, _ | ⟨hb, h⟩⟩
    · exact strict .nil
    · exact R.loop hk ha.run
    · exact strict (.cons ha (.cons hb h))
  | forIn pat kind =>
    rcases h with _ | ⟨ha, _ | ⟨hb, _ | ⟨hc, h⟩⟩⟩
    · exact strict .nil
    · exact strict (.cons ha .nil)
    · refine R.bind ha.run fun x ↦ R.bind (R.host _) fun it ↦ R.forIn it hk.1 (fun it ↦ R.host _) fun x ↦ ?_
      refine R.look _ fun w bs hbs ↦ R.bind (R.writeAll bs fun b hb ↦ ?_) fun _ ↦ hb.run
      exact hk.2 _ (c.mem_locals_of_binds w pat x bs hbs b hb)
    · exact strict (.cons ha (.cons hb (.cons hc h)))
  | brk => exact R.exit _ hk
  | cont => exact R.exit _ hk
  | ret =>
    rcases h with _ | ⟨ha, _ | ⟨hb, h⟩⟩
    · exact R.exit _ hk
    · exact R.bind ha.run fun v ↦ R.exit _ hk
    · exact strict (.cons ha (.cons hb h))
  | matchOn pats =>
    rcases h with _ | ⟨ha, h⟩
    · exact strict .nil
    · refine R.bind ha.run fun v ↦ R.look _ fun w r hr ↦ R.bind (R.writeAll r.1 fun b hb ↦ ?_) fun _ ↦ getD_runs h r.2
      obtain ⟨p, hp, hbp⟩ := c.mem_locals_of_arm hr b hb
      exact hk p hp _ hbp
  | lambda body =>
    have hreads : List.Forall₂ R.rel (c.captures.map Run.read) (c.captures.map Run.read) :=
      List.forall₂_map_left_iff.mpr (List.forall₂_map_right_iff.mpr (List.forall₂_same.mpr fun l hl ↦ R.read (hk l hl)))
    exact R.bind (R.all hreads) fun vs ↦ R.op _ ty vs
  | defer captures => exact R.pure _
  | clear ls =>
    refine R.bind (R.writeAll _ fun b hb ↦ ?_) fun _ ↦ R.pure _
    obtain ⟨l, hl, rfl⟩ := List.mem_map.mp hb
    exact hk l hl
  | global name => exact strict h
  | field name => exact strict h
  | index kind => exact strict h
  | cast => exact strict h
  | call callee => exact strict h
  | named name => exact strict h
  | spread => exact strict h
  | append => exact strict h
  | yield delegate => exact strict h
  | resume => exact strict h
  | builtin op => exact strict h
  | unsupported what => exact strict h

/-- **A relation that holds between the children holds between the nodes.** -/
theorem node {ty : Option Ty} {flags : HirFlags} {k : HirKind} {es es' : List HirExpr}
    (hk : R.Allows k (es.map c.den)) (h : List.Forall₂ (fun e e' ↦ R.NodeRel (c.den e) (c.den e')) es es') :
    R.NodeRel (c.den (.node ty flags k es)) (c.den (.node ty flags k es')) := by
  have hms : List.Forall₂ R.NodeRel (es.map c.den) (es'.map c.den) :=
    List.forall₂_map_left_iff.mpr (List.forall₂_map_right_iff.mpr h)
  rw [Ctx.den_node, Ctx.den_node]
  exact ⟨sem hk hms, shapeOf hk hms⟩

end RunRel

end CoilLang.Hir
