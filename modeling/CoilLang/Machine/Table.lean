import CoilLang.Machine.KeyIndexInvariant

/-!
# The table of interned strings

An open-addressing hash table keyed by strings, which are the same key only if they are the same object: the intern
table of the heap, and the named fields of an object. A probe starts at the home slot of its key and goes on, around
the end of the table, to the slot of the key or to a free one; a removed key leaves a dead slot behind, which probes
pass. **A probe that meets neither its key nor a free slot goes on for ever**: it is `none` here.

A store that `Holds` a finite map answers as the map does, every probe in it ends, and inserting and removing keep it
so; but only a key that is there may be removed. Removing another one turns a free slot into a dead one that no count
knows of (`run_absent`).
-/

namespace CoilLang.Machine.Table

variable {K V T : Type}

inductive Entry (K V : Type)
  | free
  | dead
  | live (key : K) (val : V)
  deriving DecidableEq, Repr

namespace Entry

def val? : Entry K V → Option V
  | .live _ val => some val
  | _ => none

def pair? : Entry K V → Option (K × V)
  | .live key val => some (key, val)
  | _ => none

def isLive : Entry K V → Bool
  | .live _ _ => true
  | _ => false

def isDead : Entry K V → Bool
  | .dead => true
  | _ => false

end Entry

/-- A table of no or `2 ^ k` entries. -/
structure Store (K V : Type) where
  lives : ℕ := 0
  deads : ℕ := 0
  entries : List (Entry K V) := []
  deriving DecidableEq, Repr

def entry (t : List (Entry K V)) (i : ℕ) : Entry K V := t.getD i .free

/-- The slot of `key`, or the one to put it in: the first dead one that the probe passes, else the free one it ends
at. `n` is the number of rounds; a probe that has been at every slot goes on for ever. -/
def probeLoop [DecidableEq K] (t : List (Entry K V)) (key : K) : ℕ → ℕ → Option ℕ → Option ℕ
  | 0, _, _ => none
  | n + 1, index, dead =>
    match entry t index with
    | .free => some (dead.getD index)
    | .dead => probeLoop t key n ((index + 1) &&& (t.length - 1)) (dead.or (some index))
    | .live k _ =>
      if k = key then some index else probeLoop t key n ((index + 1) &&& (t.length - 1)) dead

/-- The first string with the text, if any. -/
def findLoop [DecidableEq T] (text : K → T) (t : List (Entry K V)) (s : T) : ℕ → ℕ → Option (Option K)
  | 0, _ => none
  | n + 1, index =>
    match entry t index with
    | .free => some none
    | .dead => findLoop text t s n ((index + 1) &&& (t.length - 1))
    | .live k _ =>
      if text k = s then some (some k) else findLoop text t s n ((index + 1) &&& (t.length - 1))

def probe [DecidableEq K] (hash : K → ℕ) (t : List (Entry K V)) (key : K) : Option ℕ :=
  probeLoop t key t.length (hash key &&& (t.length - 1)) none

namespace Store

def cap (s : Store K V) : ℕ := s.entries.length

/-- The entries in slot order. -/
def iter (s : Store K V) : List (K × V) := s.entries.filterMap Entry.pair?

def find [DecidableEq T] (text : K → T) (s : Store K V) (str : T) (hash : ℕ) : Option (Option K) :=
  if s.lives = 0 then some none else findLoop text s.entries str s.cap (hash &&& (s.cap - 1))

variable [DecidableEq K] (hash : K → ℕ)

def get (s : Store K V) (key : K) : Option (Option V) :=
  if s.lives = 0 then some none else (probe hash s.entries key).map fun i ↦ (entry s.entries i).val?

/-- Puts the live entries `old` into a new table. -/
def rehash : List (Entry K V) → List (Entry K V) → Option (List (Entry K V))
  | [], t => some t
  | .live key val :: old, t => (probe hash t key).bind fun i ↦ rehash old (t.set i (.live key val))
  | _ :: old, t => rehash old t

def resize (s : Store K V) : Option (Store K V) :=
  (rehash hash s.entries (List.replicate (max (s.cap * 2) 8) .free)).map fun entries ↦ { s with deads := 0, entries }

/-- Writes the entry of `key` into the slot that its probe found. -/
def put (s : Store K V) (key : K) (val : V) (i : ℕ) : Option V × Store K V :=
  let entries := s.entries.set i (.live key val)
  match entry s.entries i with
  | .free => (none, { s with lives := s.lives + 1, entries })
  | .dead => (none, { lives := s.lives + 1, deads := s.deads - 1, entries })
  | .live _ old => (some old, { s with entries })

/-- The value that `key` had. -/
def insert (s : Store K V) (key : K) (val : V) : Option (Option V × Store K V) :=
  (if s.cap * 3 / 4 ≤ s.lives + s.deads then s.resize hash else some s).bind fun s ↦
    (probe hash s.entries key).map (s.put key val)

/-- The value that `key` had. The slot that its probe found is dead afterwards, also if it was free. -/
def remove (s : Store K V) (key : K) : Option (Option V × Store K V) :=
  if s.lives = 0 then some (none, s)
  else (probe hash s.entries key).map fun i ↦
    let entries := s.entries.set i .dead
    match entry s.entries i with
    | .live _ old => (some old, { lives := s.lives - 1, deads := s.deads + 1, entries })
    | _ => (none, { s with entries })

end Store

end CoilLang.Machine.Table
