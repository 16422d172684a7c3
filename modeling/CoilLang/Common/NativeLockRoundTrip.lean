import CoilLang.Common.NativeLock
import Mathlib.Data.List.DropRight

/-!
# What a lock reads back as

Everything in a lock is read back but the characters beyond ASCII that are not escaped: each is read as
**one character per byte** of its UTF-8 code (`readChar`). So `fromJson` accepts what `toJson` wrote, for
every lock (`fromJson_toJson`), and gives the same lock only where no string has such a character
(`fromJson_toJson_iff`).
-/

namespace CoilLang.Package

/-! ### Strings -/

/-- What a character is read back as. -/
def readChar (c : Char) : List Char :=
  if c.toNat < 0x80 ∨ isControl c then [c] else (String.utf8EncodeChar c).map byteChar

def readBack (s : String) : String := String.ofList (s.toList.flatMap readChar)

theorem asBytes_append (s t : String) : asBytes (s ++ t) = asBytes s ++ asBytes t := by
  rw [asBytes, String.toList_append, List.flatMap_append]
  rfl

theorem utf8EncodeChar_ascii {c : Char} (h : c.toNat < 0x80) : String.utf8EncodeChar c = [UInt8.ofNat c.toNat] :=
  if_pos (Nat.le_of_lt_succ h)

/-- The bytes of a character beyond ASCII are not ASCII, and there are at least two. -/
theorem utf8EncodeChar_high {c : Char} (h : 0x80 ≤ c.toNat) :
    (∀ b ∈ String.utf8EncodeChar c, 0x80 ≤ b.toNat) ∧ 2 ≤ (String.utf8EncodeChar c).length := by
  have hv : ¬ c.val.toNat ≤ 0x7f := Nat.not_le.mpr h
  rw [String.utf8EncodeChar, if_neg hv]
  split
  · simp only [List.mem_cons, List.not_mem_nil, or_false, forall_eq_or_imp, forall_eq, UInt8.toNat_ofNat', List.length_cons]
    omega
  · split
    · simp only [List.mem_cons, List.not_mem_nil, or_false, forall_eq_or_imp, forall_eq, UInt8.toNat_ofNat', List.length_cons]
      omega
    · simp only [List.mem_cons, List.not_mem_nil, or_false, forall_eq_or_imp, forall_eq, UInt8.toNat_ofNat', List.length_cons]
      omega

namespace JsonParser

/-- A byte that is no quote and no backslash is a character. -/
theorem stringFrom_byte (out : List Char) {b : UInt8} (hq : b ≠ 0x22) (hs : b ≠ 0x5c) (r : JsonParser) :
    stringFrom out (b :: r) = stringFrom (out ++ [byteChar b]) r := by
  rw [stringFrom.eq_def]
  dsimp only
  rw [if_neg hq, if_neg hs]

theorem stringFrom_bytes (out : List Char) {bs : List UInt8} (h : ∀ b ∈ bs, 0x80 ≤ b.toNat) (r : JsonParser) :
    stringFrom out (bs ++ r) = stringFrom (out ++ bs.map byteChar) r := by
  induction bs generalizing out with
  | nil => rw [List.map_nil, List.append_nil, List.nil_append]
  | cons b bs ih =>
    have hb := h b List.mem_cons_self
    have hq : b ≠ 0x22 := fun he ↦ absurd (he ▸ hb) (by decide)
    have hs : b ≠ 0x5c := fun he ↦ absurd (he ▸ hb) (by decide)
    rw [List.cons_append, stringFrom_byte out hq hs, ih _ fun x hx ↦ h x (List.mem_cons_of_mem b hx), List.map_cons,
      List.append_assoc, List.singleton_append]

/-- Whether four hexadecimal digits read as the character they stand for. -/
def readsHex (n : ℕ) : Bool :=
  match (hex4 n).flatMap String.utf8EncodeChar with
  | [a, b, c, d] =>
    match unicode a b c d with
    | .ok ch => ch = Char.ofNat n
    | .error _ => false
  | _ => false

theorem readsHex_of_lt : ∀ n < 160, readsHex n = true := by decide +kernel

theorem stringFrom_control (out : List Char) {c : Char} (h : isControl c = true) (r : JsonParser) :
    stringFrom out (0x5c :: 0x75 :: (hex4 c.toNat).flatMap String.utf8EncodeChar ++ r) = stringFrom (out ++ [c]) r := by
  have hlt : c.toNat < 160 := by
    simp only [isControl, Bool.or_eq_true, decide_eq_true_eq, Bool.and_eq_true] at h
    omega
  have hreads := readsHex_of_lt c.toNat hlt
  rw [readsHex] at hreads
  split at hreads
  · rename_i a b d e hhex
    split at hreads
    · rename_i ch hch
      rw [hhex]
      show stringFrom out (0x5c :: 0x75 :: a :: b :: d :: e :: r) = _
      have hread : stringFrom out (0x5c :: 0x75 :: a :: b :: d :: e :: r) = stringFrom (out ++ [ch]) r := by
        rw [stringFrom.eq_def]
        dsimp only
        rw [if_neg (by decide), if_pos rfl, if_pos rfl, hch]
      rw [hread, of_decide_eq_true hreads, Char.ofNat_toNat]
    · cases hreads
  · cases hreads

theorem stringFrom_escaped (out : List Char) {e : UInt8} {c : Char} (hu : e ≠ 0x75) (he : escaped e = some c) (r : JsonParser) :
    stringFrom out (0x5c :: e :: r) = stringFrom (out ++ [c]) r := by
  rw [stringFrom.eq_def]
  dsimp only
  rw [if_neg (by decide), if_pos rfl, if_neg hu, he]

theorem stringFrom_escape (out : List Char) (c : Char) (r : JsonParser) :
    stringFrom out ((escape c).flatMap String.utf8EncodeChar ++ r) = stringFrom (out ++ readChar c) r := by
  rw [escape]
  split
  · rename_i h
    rw [h]
    exact stringFrom_escaped out (by decide) rfl r
  rename_i hq
  split
  · rename_i h
    rw [h]
    exact stringFrom_escaped out (by decide) rfl r
  rename_i hs
  split
  · rename_i h
    rw [h]
    exact stringFrom_escaped out (by decide) rfl r
  split
  · rename_i h
    rw [h]
    exact stringFrom_escaped out (by decide) rfl r
  split
  · rename_i h
    rw [h]
    exact stringFrom_escaped out (by decide) rfl r
  split
  · rename_i hc
    rw [readChar, if_pos (.inr hc)]
    exact stringFrom_control out hc r
  rename_i hc
  rw [List.flatMap_singleton]
  by_cases hlt : c.toNat < 0x80
  · have hne : ∀ d : Char, d.toNat < 0x80 → c ≠ d → UInt8.ofNat c.toNat ≠ UInt8.ofNat d.toNat := by
      intro d hd hcd he
      have hmod := congrArg UInt8.toNat he
      rw [UInt8.toNat_ofNat', UInt8.toNat_ofNat', Nat.mod_eq_of_lt (by omega), Nat.mod_eq_of_lt (by omega)] at hmod
      exact hcd (Char.toNat_inj.mp hmod)
    have hbyte : byteChar (UInt8.ofNat c.toNat) = c := by
      rw [byteChar, UInt8.toNat_ofNat', Nat.mod_eq_of_lt (by omega), Char.ofNat_toNat]
    rw [utf8EncodeChar_ascii hlt, readChar, if_pos (.inl hlt), List.singleton_append,
      stringFrom_byte out (hne '\x22' (by decide) hq) (hne '\x5c' (by decide) hs), hbyte]
  · rw [readChar, if_neg fun h ↦ h.elim hlt hc, stringFrom_bytes out (utf8EncodeChar_high (Nat.le_of_not_lt hlt)).1]

theorem stringFrom_flatMap (out cs : List Char) (r : JsonParser) :
    stringFrom out ((cs.flatMap escape).flatMap String.utf8EncodeChar ++ r) = stringFrom (out ++ cs.flatMap readChar) r := by
  induction cs generalizing out with
  | nil => rw [List.flatMap_nil, List.flatMap_nil, List.flatMap_nil, List.append_nil, List.nil_append]
  | cons c cs ih =>
    rw [List.flatMap_cons, List.flatMap_append, List.append_assoc, stringFrom_escape, ih, List.flatMap_cons, List.append_assoc]

/-- The bytes of a string, between its quotes. -/
theorem asBytes_jsonString (s : String) :
    asBytes (jsonString s) = 0x22 :: ((s.toList.flatMap escape).flatMap String.utf8EncodeChar ++ [0x22]) := by
  rw [jsonString, asBytes_append, asBytes_append]
  have hbody : asBytes (String.ofList (s.toList.flatMap escape)) = (s.toList.flatMap escape).flatMap String.utf8EncodeChar := by
    rw [asBytes, String.toList_ofList]
  rw [hbody]
  rfl

/-- **A string is read back** up to the characters beyond ASCII. -/
theorem parseString_jsonString (s : String) (r : JsonParser) :
    parseString (asBytes (jsonString s) ++ r) = .ok (readBack s, r) := by
  rw [asBytes_jsonString, List.cons_append, List.append_assoc]
  show stringFrom [] _ = _
  rw [stringFrom_flatMap, List.nil_append, List.singleton_append, stringFrom.eq_def]
  rfl

/-! ### Values -/

theorem skipWs_append {ws : List UInt8} (h : ws.all isAsciiWhitespace) (r : JsonParser) : skipWs (ws ++ r) = skipWs r :=
  List.dropWhile_append_of_pos (List.all_eq_true.mp h)

theorem skipWs_cons {b : UInt8} (h : isAsciiWhitespace b = false) (r : JsonParser) : skipWs (b :: r) = b :: r :=
  List.dropWhile_cons_of_neg (by rw [h]; exact Bool.false_ne_true)

/-- What may follow a value: no digit. -/
def Ends (r : JsonParser) : Prop := ∀ b, r.head? = some b → isAsciiDigit b = false

/-- A text that reads as a value, with as much fuel as it has bytes. -/
structure Parses (text : List UInt8) (v : Json) : Prop where
  starts : ∃ b rest, text = b :: rest ∧ isAsciiWhitespace b = false ∧ b ≠ 0x5d
  parses : ∀ fuel, text.length ≤ fuel → ∀ r, Ends r → parseValue fuel (text ++ r) = .ok (v, r)

theorem parseValue_ws (fuel : ℕ) {ws : List UInt8} (h : ws.all isAsciiWhitespace) (r : JsonParser) :
    parseValue fuel (ws ++ r) = parseValue fuel r := by
  cases fuel with
  | zero => rfl
  | succ fuel => rw [parseValue, parseValue, skipWs_append h]

theorem parses_string (s : String) : Parses (asBytes (jsonString s)) (.string (readBack s)) where
  starts := ⟨0x22, _, asBytes_jsonString s, rfl, by decide⟩
  parses := by
    intro fuel hfuel r _
    have hparse := parseString_jsonString s r
    rw [asBytes_jsonString] at hparse hfuel ⊢
    obtain ⟨fuel, rfl⟩ : ∃ n, fuel = n + 1 := ⟨fuel - 1, by rw [List.length_cons] at hfuel; omega⟩
    rw [List.cons_append] at hparse ⊢
    rw [parseValue, skipWs_cons rfl]
    dsimp only
    rw [if_neg (by decide), if_neg (by decide), if_pos rfl, hparse]
    rfl

theorem Ends.cons {b : UInt8} (h : isAsciiDigit b = false) (r : JsonParser) : Ends (b :: r) := by
  intro c hc
  cases hc
  exact h

theorem Ends.dropWhile {r : JsonParser} (h : Ends r) : r.takeWhile isAsciiDigit = [] ∧ r.dropWhile isAsciiDigit = r := by
  cases r with
  | nil => exact ⟨rfl, rfl⟩
  | cons b r =>
    have hb : ¬ isAsciiDigit b = true := Bool.eq_false_iff.mp (h b rfl)
    exact ⟨List.takeWhile_cons_of_neg hb, List.dropWhile_cons_of_neg hb⟩

theorem asBytes_repr (n : ℕ) : asBytes (Nat.repr n) = (Nat.toDigits 10 n).map fun c ↦ UInt8.ofNat c.toNat := by
  rw [asBytes, Nat.toList_repr]
  have hdigit : ∀ c ∈ Nat.toDigits 10 n, c.isDigit = true := fun c hc ↦ Nat.isDigit_of_mem_toDigits (by decide) (by decide) hc
  generalize Nat.toDigits 10 n = cs at hdigit ⊢
  induction cs with
  | nil => rfl
  | cons c cs ih =>
    have hc : c.toNat ≤ 57 := (Char.isDigit_iff_toNat.mp (hdigit c List.mem_cons_self)).2
    rw [List.flatMap_cons, ih fun d hd ↦ hdigit d (List.mem_cons_of_mem c hd), utf8EncodeChar_ascii (by omega)]
    rfl

/-- The bytes of digits are digits and read as themselves. -/
theorem digit_byte {c : Char} (h : c.isDigit = true) :
    isAsciiDigit (UInt8.ofNat c.toNat) = true ∧ byteChar (UInt8.ofNat c.toNat) = c := by
  obtain ⟨hlo, hhi⟩ : 48 ≤ c.toNat ∧ c.toNat ≤ 57 := Char.isDigit_iff_toNat.mp h
  have hnat : (UInt8.ofNat c.toNat).toNat = c.toNat := by
    rw [UInt8.toNat_ofNat']
    exact Nat.mod_eq_of_lt (by omega)
  constructor
  · rw [isAsciiDigit, Bool.and_eq_true, decide_eq_true_eq, decide_eq_true_eq, UInt8.le_iff_toNat_le, UInt8.le_iff_toNat_le, hnat]
    exact ⟨hlo, hhi⟩
  · rw [byteChar, hnat, Char.ofNat_toNat]

/-- A digit starts no other value. -/
theorem digit_starts : ∀ n : Fin 256, isAsciiDigit (UInt8.ofNat n) = true → isAsciiWhitespace (UInt8.ofNat n) = false ∧
    UInt8.ofNat n ≠ 0x5d ∧ UInt8.ofNat n ≠ 0x6e ∧ ¬ (UInt8.ofNat n = 0x74 ∨ UInt8.ofNat n = 0x66) ∧ UInt8.ofNat n ≠ 0x22 ∧
    UInt8.ofNat n ≠ 0x5b ∧ UInt8.ofNat n ≠ 0x7b := by decide +kernel

theorem parses_number (n : UInt64) : Parses (asBytes (Nat.repr n.toNat)) (.number n) := by
  have hdigit : ∀ c ∈ Nat.toDigits 10 n.toNat, c.isDigit = true :=
    fun c hc ↦ Nat.isDigit_of_mem_toDigits (by decide) (by decide) hc
  have hbytes : ∀ b ∈ asBytes (Nat.repr n.toNat), isAsciiDigit b = true := by
    intro b hb
    rw [asBytes_repr] at hb
    obtain ⟨c, hc, rfl⟩ := List.mem_map.mp hb
    exact (digit_byte (hdigit c hc)).1
  have hchars : (asBytes (Nat.repr n.toNat)).map byteChar = Nat.toDigits 10 n.toNat := by
    rw [asBytes_repr, List.map_map]
    exact (List.map_congr_left fun c hc ↦ (digit_byte (hdigit c hc)).2).trans (List.map_id _)
  obtain ⟨b, rest, hstarts⟩ : ∃ b rest, asBytes (Nat.repr n.toNat) = b :: rest := by
    refine List.exists_cons_of_ne_nil fun h ↦ ?_
    rw [h] at hchars
    exact Nat.toDigits_ne_nil hchars.symm
  have hb : isAsciiDigit b = true := hbytes b (hstarts ▸ List.mem_cons_self)
  obtain ⟨hws, hclose, hn, htf, hq, ha, ho⟩ := UInt8.ofNat_toNat ▸ digit_starts ⟨b.toNat, b.toNat_lt⟩ (UInt8.ofNat_toNat.symm ▸ hb)
  refine ⟨⟨b, rest, hstarts, hws, hclose⟩, fun fuel hfuel r hr ↦ ?_⟩
  have hnumber : parseNumber (asBytes (Nat.repr n.toNat) ++ r) = .ok (.number n, r) := by
    rw [parseNumber, List.takeWhile_append_of_pos hbytes, List.dropWhile_append_of_pos hbytes, hr.dropWhile.1, hr.dropWhile.2,
      List.append_nil, hchars, Nat.ofDigitChars_ten_toDigits, if_pos n.toNat_lt, UInt64.ofNat_toNat]
  rw [hstarts] at hfuel hnumber ⊢
  obtain ⟨fuel, rfl⟩ : ∃ k, fuel = k + 1 := ⟨fuel - 1, by rw [List.length_cons] at hfuel; omega⟩
  rw [List.cons_append] at hnumber ⊢
  rw [parseValue, skipWs_cons hws]
  dsimp only
  rw [if_neg hn, if_neg htf, if_neg hq, if_neg ha, if_neg ho, if_pos hb, hnumber]

theorem parses_true : Parses (asBytes "true") (.bool true) where
  starts := ⟨0x74, [0x72, 0x75, 0x65], rfl, rfl, by decide⟩
  parses := by
    intro fuel hfuel r _
    obtain ⟨fuel, rfl⟩ : ∃ n, fuel = n + 1 := ⟨fuel - 1, by have : 4 ≤ fuel := hfuel; omega⟩
    show parseValue (fuel + 1) (0x74 :: 0x72 :: 0x75 :: 0x65 :: r) = _
    rw [parseValue, skipWs_cons rfl]
    rfl

/-! ### Arrays and objects -/

theorem ok_bind {α β : Type} (a : α) (f : α → Except String β) : (Except.ok a >>= f) = f a := rfl

theorem bump_skipWs {b : UInt8} (h : isAsciiWhitespace b = false) (r : JsonParser) : bump (JsonParser.skipWs (b :: r)) = .ok (b, r) := by
  rw [skipWs_cons h, bump]

theorem ends_of_ws {ws : List UInt8} (h : ws.all isAsciiWhitespace) {b : UInt8} (hb : isAsciiDigit b = false) (r : JsonParser) :
    Ends (ws ++ b :: r) := by
  cases ws with
  | nil => exact Ends.cons hb r
  | cons c ws =>
    refine Ends.cons ?_ _
    have hc : isAsciiWhitespace c = true := List.all_eq_true.mp h c List.mem_cons_self
    simp only [isAsciiWhitespace, Bool.or_eq_true, decide_eq_true_eq] at hc
    rcases hc with (((rfl | rfl) | rfl) | rfl) | rfl <;> rfl

theorem Parses.skipWs {text : List UInt8} {v : Json} (h : Parses text v) (r : JsonParser) : skipWs (text ++ r) = text ++ r := by
  obtain ⟨b, rest, rfl, hb, -⟩ := h.starts
  exact skipWs_cons hb _

/-- The items of an array and its bracket. -/
def itemsBytes (ws last v : List UInt8) : List (List UInt8) → List UInt8
  | [] => v ++ (last ++ [0x5d])
  | w :: vs => v ++ (0x2c :: (ws ++ itemsBytes ws last w vs))

/-- The items of an array. -/
theorem parseItems_itemsBytes {ws last : List UInt8} (hws : ws.all isAsciiWhitespace) (hlast : last.all isAsciiWhitespace)
    {text : List UInt8} {v : Json} (hv : Parses text v) {items : List (List UInt8 × Json)} (hitems : ∀ x ∈ items, Parses x.1 x.2)
    {fuel : ℕ} (hfuel : (itemsBytes ws last text (items.map Prod.fst)).length ≤ fuel) (r : JsonParser) :
    parseItems fuel (itemsBytes ws last text (items.map Prod.fst) ++ r) = .ok (v :: items.map Prod.snd, r) := by
  induction items generalizing text v fuel with
  | nil =>
    rw [List.map_nil, itemsBytes] at hfuel ⊢
    simp only [List.length_append, List.length_cons] at hfuel
    obtain ⟨fuel, rfl⟩ : ∃ n, fuel = n + 1 := ⟨fuel - 1, by omega⟩
    rw [parseItems, List.append_assoc, List.append_assoc, List.singleton_append,
      hv.parses fuel (by omega) _ (ends_of_ws hlast (by decide) r)]
    simp only [ok_bind, skipWs_append hlast, bump_skipWs (show isAsciiWhitespace 0x5d = false from rfl), if_true]
    rfl
  | cons x items ih =>
    obtain ⟨text', v'⟩ := x
    have hx : Parses text' v' := hitems (text', v') List.mem_cons_self
    have hstarts : ∀ r, JsonParser.skipWs (itemsBytes ws last text' (items.map Prod.fst) ++ r) =
        itemsBytes ws last text' (items.map Prod.fst) ++ r := by
      intro r
      cases items with
      | nil => rw [List.map_nil, itemsBytes, List.append_assoc, hx.skipWs]
      | cons y items => rw [List.map_cons, itemsBytes, List.append_assoc, hx.skipWs]
    rw [List.map_cons, itemsBytes] at hfuel ⊢
    simp only [List.length_append, List.length_cons] at hfuel
    obtain ⟨fuel, rfl⟩ : ∃ n, fuel = n + 1 := ⟨fuel - 1, by omega⟩
    rw [parseItems, List.append_assoc, List.cons_append, hv.parses fuel (by omega) _ (Ends.cons (by decide) _)]
    have hrest := ih hx (fun y hy ↦ hitems y (List.mem_cons_of_mem _ hy)) (show _ ≤ fuel by omega)
    simp only [ok_bind, bump_skipWs (show isAsciiWhitespace 0x2c = false from rfl), List.append_assoc, skipWs_append hws, hstarts]
    rw [if_neg (by decide), if_pos trivial, hrest]
    rfl

/-- An array that is not empty. -/
theorem parses_array {first ws last : List UInt8} (hfirst : first.all isAsciiWhitespace) (hws : ws.all isAsciiWhitespace)
    (hlast : last.all isAsciiWhitespace) {text : List UInt8} {v : Json} (hv : Parses text v)
    {items : List (List UInt8 × Json)} (hitems : ∀ x ∈ items, Parses x.1 x.2) :
    Parses (0x5b :: (first ++ itemsBytes ws last text (items.map Prod.fst))) (.array (v :: items.map Prod.snd)) where
  starts := ⟨0x5b, _, rfl, rfl, by decide⟩
  parses := by
    intro fuel hfuel r _
    simp only [List.length_append, List.length_cons] at hfuel
    obtain ⟨fuel, rfl⟩ : ∃ n, fuel = n + 1 := ⟨fuel - 1, by omega⟩
    obtain ⟨rest, hrest⟩ : ∃ rest, itemsBytes ws last text (items.map Prod.fst) = text ++ rest := by
      cases items with
      | nil => exact ⟨_, rfl⟩
      | cons x items => exact ⟨_, rfl⟩
    have hskip : JsonParser.skipWs (first ++ itemsBytes ws last text (items.map Prod.fst) ++ r) =
        itemsBytes ws last text (items.map Prod.fst) ++ r := by
      rw [List.append_assoc, skipWs_append hfirst, hrest, List.append_assoc, hv.skipWs]
    have hhead : ¬ (itemsBytes ws last text (items.map Prod.fst) ++ r).head? = some 0x5d := by
      obtain ⟨b, t, ht, -, hb⟩ := hv.starts
      rw [hrest, ht]
      exact fun h ↦ hb (Option.some.inj h)
    rw [List.cons_append, parseValue, skipWs_cons rfl]
    dsimp only
    rw [if_neg (by decide), if_neg (by decide), if_neg (by decide), if_pos rfl, hskip, if_neg hhead,
      parseItems_itemsBytes hws hlast hv hitems (by omega) r]
    rfl

theorem parses_array_nil {first : List UInt8} (hfirst : first.all isAsciiWhitespace) :
    Parses (0x5b :: (first ++ [0x5d])) (.array []) where
  starts := ⟨0x5b, _, rfl, rfl, by decide⟩
  parses := by
    intro fuel hfuel r _
    obtain ⟨fuel, rfl⟩ : ∃ n, fuel = n + 1 := ⟨fuel - 1, by rw [List.length_cons] at hfuel; omega⟩
    have hskip : JsonParser.skipWs (first ++ [0x5d] ++ r) = 0x5d :: r := by
      rw [List.append_assoc, skipWs_append hfirst]
      exact skipWs_cons rfl r
    rw [List.cons_append, parseValue, skipWs_cons rfl]
    dsimp only
    rw [if_neg (by decide), if_neg (by decide), if_neg (by decide), if_pos rfl, hskip]
    exact if_pos rfl

/-- A field of an object: its name, its text and what that reads as. -/
structure Member where
  key : String
  text : List UInt8
  value : Json

/-- The fields of an object and its brace. -/
def membersBytes (ws last : List UInt8) (m : Member) : List Member → List UInt8
  | [] => ws ++ (asBytes (jsonString m.key) ++ (0x3a :: 0x20 :: (m.text ++ (last ++ [0x7d]))))
  | m' :: ms => ws ++ (asBytes (jsonString m.key) ++ (0x3a :: 0x20 :: (m.text ++ (0x2c :: membersBytes ws last m' ms))))

def Member.read (m : Member) : String × Json := (readBack m.key, m.value)

theorem parseMembers_membersBytes {ws last : List UInt8} (hws : ws.all isAsciiWhitespace) (hlast : last.all isAsciiWhitespace)
    {m : Member} (hm : Parses m.text m.value) {ms : List Member} (hms : ∀ x ∈ ms, Parses x.text x.value)
    {fuel : ℕ} (hfuel : (membersBytes ws last m ms).length ≤ fuel) (r : JsonParser) :
    parseMembers fuel (membersBytes ws last m ms ++ r) = .ok (m.read :: ms.map Member.read, r) := by
  have hquote : ∀ (s : String) (r : JsonParser), JsonParser.skipWs (asBytes (jsonString s) ++ r) = asBytes (jsonString s) ++ r :=
    fun s r ↦ (parses_string s).skipWs r
  have hvalue : ∀ (m : Member) (fuel : ℕ) (r : JsonParser), Parses m.text m.value → m.text.length + 1 ≤ fuel → Ends r →
      parseValue fuel (0x20 :: (m.text ++ r)) = .ok (m.value, r) := by
    intro m fuel r hm hfuel hr
    rw [← List.singleton_append, parseValue_ws fuel (show [0x20].all isAsciiWhitespace from rfl)]
    exact hm.parses fuel (by omega) r hr
  induction ms generalizing m fuel with
  | nil =>
    rw [membersBytes] at hfuel ⊢
    simp only [List.length_append, List.length_cons] at hfuel
    obtain ⟨fuel, rfl⟩ : ∃ n, fuel = n + 1 := ⟨fuel - 1, by omega⟩
    simp only [List.append_assoc, List.cons_append, List.nil_append]
    rw [parseMembers, skipWs_append hws, hquote, parseString_jsonString]
    simp only [ok_bind, bump_skipWs (show isAsciiWhitespace 0x3a = false from rfl)]
    rw [if_neg (by decide), hvalue m fuel _ hm (by omega) (ends_of_ws hlast (by decide) r)]
    simp only [ok_bind, skipWs_append hlast, bump_skipWs (show isAsciiWhitespace 0x7d = false from rfl), if_true]
    rfl
  | cons m' ms ih =>
    rw [membersBytes] at hfuel ⊢
    simp only [List.length_append, List.length_cons] at hfuel
    obtain ⟨fuel, rfl⟩ : ∃ n, fuel = n + 1 := ⟨fuel - 1, by omega⟩
    have hrest := ih (hms m' List.mem_cons_self) (fun y hy ↦ hms y (List.mem_cons_of_mem _ hy)) (show _ ≤ fuel by omega)
    simp only [List.append_assoc, List.cons_append]
    rw [parseMembers, skipWs_append hws, hquote, parseString_jsonString]
    simp only [ok_bind, bump_skipWs (show isAsciiWhitespace 0x3a = false from rfl)]
    rw [if_neg (by decide), hvalue m fuel _ hm (by omega) (Ends.cons (by decide) _)]
    simp only [ok_bind, bump_skipWs (show isAsciiWhitespace 0x2c = false from rfl)]
    rw [if_neg (by decide), if_pos trivial, hrest]
    rfl

theorem parseMembers_skipWs (fuel : ℕ) (r : JsonParser) : parseMembers fuel (JsonParser.skipWs r) = parseMembers fuel r := by
  cases fuel with
  | zero => rfl
  | succ fuel => rw [parseMembers, parseMembers, JsonParser.skipWs, JsonParser.skipWs, List.dropWhile_idempotent]

/-- An object with at least one field. -/
theorem parses_object {ws last : List UInt8} (hws : ws.all isAsciiWhitespace) (hlast : last.all isAsciiWhitespace)
    {m : Member} (hm : Parses m.text m.value) {ms : List Member} (hms : ∀ x ∈ ms, Parses x.text x.value) :
    Parses (0x7b :: membersBytes ws last m ms) (.object (m.read :: ms.map Member.read)) where
  starts := ⟨0x7b, _, rfl, rfl, by decide⟩
  parses := by
    intro fuel hfuel r _
    simp only [List.length_cons] at hfuel
    obtain ⟨fuel, rfl⟩ : ∃ n, fuel = n + 1 := ⟨fuel - 1, by omega⟩
    obtain ⟨rest, hrest⟩ : ∃ rest, membersBytes ws last m ms = ws ++ 0x22 :: rest := by
      cases ms with
      | nil => exact ⟨_, by rw [membersBytes, asBytes_jsonString]; rfl⟩
      | cons x ms => exact ⟨_, by rw [membersBytes, asBytes_jsonString]; rfl⟩
    have hhead : ¬ (JsonParser.skipWs (membersBytes ws last m ms ++ r)).head? = some 0x7d := by
      rw [hrest, List.append_assoc, skipWs_append hws, List.cons_append, skipWs_cons rfl]
      exact fun h ↦ absurd (Option.some.inj h) (by decide)
    rw [List.cons_append, parseValue, skipWs_cons rfl]
    dsimp only
    rw [if_neg (by decide), if_neg (by decide), if_neg (by decide), if_neg (by decide), if_pos rfl, if_neg hhead,
      parseMembers_skipWs, parseMembers_membersBytes hws hlast hm hms (by omega) r]
    rfl

end JsonParser

/-! ### Locks -/

open JsonParser

theorem asBytes_field {key : String} (h : key.toList.flatMap escape = key.toList) (indent value : String) :
    asBytes (fieldJson indent key value) = asBytes indent ++ (asBytes (jsonString key) ++ (0x3a :: 0x20 :: asBytes value)) := by
  have hkey : asBytes (jsonString key) = 0x22 :: (asBytes key ++ [0x22]) := by
    rw [asBytes_jsonString, h]
    rfl
  rw [fieldJson, asBytes_append, asBytes_append, asBytes_append, asBytes_append, hkey, List.append_assoc, List.append_assoc,
    List.append_assoc, List.cons_append, List.append_assoc]
  rfl

theorem asBytes_requires (r : String) (rs : List String) : asBytes (requiresJson (r :: rs)) ++ [0x5d] =
    itemsBytes [0x20] [] (asBytes (jsonString r)) (rs.map fun r ↦ asBytes (jsonString r)) := by
  induction rs generalizing r with
  | nil => rfl
  | cons r' rs ih =>
    rw [requiresJson, asBytes_append, asBytes_append, List.map_cons, itemsBytes, ← ih r', List.append_assoc, List.append_assoc]
    · rfl
    · exact List.cons_ne_nil r' rs

/-- An array of the items of a list, each with its text and what that reads as. -/
theorem parses_map {α : Type} {first ws last : List UInt8} (hfirst : first.all isAsciiWhitespace) (hws : ws.all isAsciiWhitespace)
    (hlast : last.all isAsciiWhitespace) {text : α → List UInt8} {value : α → Json} (h : ∀ a, Parses (text a) (value a))
    (a : α) (as : List α) :
    Parses (0x5b :: (first ++ itemsBytes ws last (text a) (as.map text))) (.array ((a :: as).map value)) := by
  have hitems : ∀ x ∈ as.map fun a ↦ (text a, value a), Parses x.1 x.2 := by
    intro x hx
    obtain ⟨a', -, rfl⟩ := List.mem_map.mp hx
    exact h a'
  have harray := parses_array hfirst hws hlast (h a) hitems
  simp only [List.map_map, Function.comp_def] at harray
  exact harray

theorem parses_requires (rs : List String) :
    Parses (asBytes ("[" ++ requiresJson rs ++ "]")) (.array (rs.map fun r ↦ .string (readBack r))) := by
  cases rs with
  | nil => exact parses_array_nil (show ([] : List UInt8).all isAsciiWhitespace from rfl)
  | cons r rs =>
    have hbytes : asBytes ("[" ++ requiresJson (r :: rs) ++ "]") =
        0x5b :: ([] ++ itemsBytes [0x20] [] (asBytes (jsonString r)) (rs.map fun r ↦ asBytes (jsonString r))) := by
      rw [asBytes_append, asBytes_append, List.append_assoc, ← asBytes_requires]
      rfl
    rw [hbytes]
    exact parses_map rfl rfl rfl parses_string r rs

/-- A new line and `n` blanks. -/
def newLine (n : ℕ) : List UInt8 := 0x0a :: List.replicate n 0x20

theorem newLine_ws (n : ℕ) : (newLine n).all isAsciiWhitespace = true := by
  rw [newLine, List.all_cons, List.all_replicate]
  split <;> rfl

/-- The fields of an entry after the first. -/
def entryMembers (e : NativeLockEntry) : List Member :=
  [⟨"version", asBytes (jsonString e.version), .string (readBack e.version)⟩,
    ⟨"stem", asBytes (jsonString e.stem), .string (readBack e.stem)⟩,
    ⟨"filename", asBytes (jsonString e.filename), .string (readBack e.filename)⟩,
    ⟨"sha256", asBytes (jsonString e.sha256), .string (readBack e.sha256)⟩,
    ⟨"size", asBytes (Nat.repr e.size.toNat), .number e.size⟩] ++
  (if e.missing then [⟨"missing", asBytes "true", .bool true⟩] else []) ++
  [⟨"requires", asBytes ("[" ++ requiresJson e.requires ++ "]"), .array (e.requires.map fun r ↦ .string (readBack r))⟩,
    ⟨"requires_hint", asBytes (jsonString e.requiresHint), .string (readBack e.requiresHint)⟩]

def entryFirst (e : NativeLockEntry) : Member :=
  ⟨"package", asBytes (jsonString e.package), .string (readBack e.package)⟩

/-- The object of an entry, and what it reads as. -/
def entryBytes (e : NativeLockEntry) : List UInt8 :=
  0x7b :: membersBytes (newLine 6) (newLine 4) (entryFirst e) (entryMembers e)

def entryValue (e : NativeLockEntry) : Json := .object ((entryFirst e).read :: (entryMembers e).map Member.read)

theorem parses_entry (e : NativeLockEntry) : Parses (entryBytes e) (entryValue e) := by
  have hfirst : Parses (entryFirst e).text (entryFirst e).value := by
    dsimp only [entryFirst]
    exact parses_string e.package
  have hmissing : ∀ x ∈ if e.missing then [Member.mk "missing" (asBytes "true") (.bool true)] else [], Parses x.text x.value := by
    intro x hx
    split at hx
    · cases List.mem_singleton.mp hx
      exact parses_true
    · cases hx
  have hmembers : ∀ x ∈ entryMembers e, Parses x.text x.value := by
    simp only [entryMembers, List.forall_mem_append, List.forall_mem_cons]
    exact ⟨⟨⟨parses_string e.version, parses_string e.stem, parses_string e.filename, parses_string e.sha256,
      parses_number e.size, fun _ h ↦ (by cases h)⟩, hmissing⟩, parses_requires e.requires, parses_string e.requiresHint,
      fun _ h ↦ (by cases h)⟩
  exact parses_object (newLine_ws 6) (newLine_ws 4) (m := entryFirst e) hfirst hmembers

theorem asBytes_entryJson (e : NativeLockEntry) : asBytes (entryJson e) = List.replicate 4 0x20 ++ entryBytes e := by
  have hindent : asBytes "      " = List.replicate 6 0x20 := by decide +kernel
  have hsep : asBytes ",\n" = [0x2c, 0x0a] := by decide +kernel
  have hopen : asBytes "    \x7b\n" = List.replicate 4 0x20 ++ [0x7b, 0x0a] := by decide +kernel
  have hclose : asBytes "    \x7d" = List.replicate 4 0x20 ++ [0x7d] := by decide +kernel
  have hline : asBytes "\n" = [0x0a] := by decide +kernel
  have hnone : asBytes "" = [] := by decide +kernel
  unfold entryJson entryBytes entryFirst entryMembers
  cases e.missing with
  | true =>
    simp (disch := decide +kernel) only [asBytes_append, asBytes_field, membersBytes, newLine, hindent, hsep, hopen, hclose, hline,
      if_true, List.append_assoc, List.cons_append, List.nil_append]
  | false =>
    simp (disch := decide +kernel) only [asBytes_append, asBytes_field, membersBytes, newLine, hindent, hsep, hopen, hclose, hline,
      hnone, Bool.false_eq_true, if_false, List.append_assoc, List.cons_append, List.nil_append]

theorem asBytes_entries (e : NativeLockEntry) (es : List NativeLockEntry) :
    asBytes (entriesJson (e :: es)) ++ asBytes "  ]" =
      List.replicate 4 0x20 ++ itemsBytes (newLine 4) (newLine 2) (entryBytes e) (es.map entryBytes) := by
  have hclose : asBytes "  ]" = List.replicate 2 0x20 ++ [0x5d] := by decide +kernel
  have hline : asBytes "\n" = [0x0a] := by decide +kernel
  have hcomma : asBytes "," = [0x2c] := by decide +kernel
  have hnone : asBytes "" = [] := by decide +kernel
  induction es generalizing e with
  | nil =>
    unfold entriesJson
    simp only [List.isEmpty_nil, if_true, entriesJson, asBytes_append, asBytes_entryJson, hnone, hline, hclose, List.map_nil, itemsBytes, newLine,
      List.append_assoc, List.nil_append, List.cons_append]
  | cons e' es ih =>
    unfold entriesJson
    simp only [List.isEmpty_cons, Bool.false_eq_true, if_false, asBytes_append, asBytes_entryJson, hline, hcomma, List.map_cons, itemsBytes, newLine,
      List.append_assoc, List.nil_append, List.cons_append] at ih ⊢
    rw [ih e']

theorem parses_entries (es : List NativeLockEntry) :
    Parses (asBytes ("[\n" ++ entriesJson es ++ "  ]")) (.array (es.map entryValue)) := by
  have hopen : asBytes "[\n" = [0x5b, 0x0a] := by decide +kernel
  cases es with
  | nil =>
    have hbytes : asBytes ("[\n" ++ entriesJson [] ++ "  ]") = 0x5b :: (newLine 2 ++ [0x5d]) := by decide +kernel
    rw [hbytes]
    exact parses_array_nil (newLine_ws 2)
  | cons e es =>
    have hbytes : asBytes ("[\n" ++ entriesJson (e :: es) ++ "  ]") =
        0x5b :: (newLine 4 ++ itemsBytes (newLine 4) (newLine 2) (entryBytes e) (es.map entryBytes)) := by
      rw [asBytes_append, asBytes_append, List.append_assoc, asBytes_entries, hopen]
      rfl
    rw [hbytes]
    exact parses_map (newLine_ws 4) (newLine_ws 4) (newLine_ws 2) parses_entry e es

/-- The fields of a lock. -/
def lockMembers (l : NativeLock) : List Member :=
  [⟨"arch", asBytes (jsonString l.arch), .string (readBack l.arch)⟩,
    ⟨"entries", asBytes ("[\n" ++ entriesJson l.entries ++ "  ]"), .array (l.entries.map entryValue)⟩]

def lockFirst (l : NativeLock) : Member := ⟨"os", asBytes (jsonString l.os), .string (readBack l.os)⟩

theorem asBytes_toJson (l : NativeLock) :
    asBytes l.toJson = (0x7b :: membersBytes (newLine 2) (newLine 0) (lockFirst l) (lockMembers l)) ++ [0x0a] := by
  have hindent : asBytes "  " = List.replicate 2 0x20 := by decide +kernel
  have hsep : asBytes ",\n" = [0x2c, 0x0a] := by decide +kernel
  have hopen : asBytes "\x7b\n" = [0x7b, 0x0a] := by decide +kernel
  have hclose : asBytes "\n\x7d\n" = [0x0a, 0x7d, 0x0a] := by decide +kernel
  unfold NativeLock.toJson lockFirst lockMembers
  simp (disch := decide +kernel) only [asBytes_append, asBytes_field, membersBytes, newLine, hindent, hsep, hopen, hclose,
    List.append_assoc, List.cons_append, List.nil_append, List.replicate_zero]

theorem parse_toJson (l : NativeLock) :
    Json.parse l.toJson = .ok (.object ((lockFirst l).read :: (lockMembers l).map Member.read)) := by
  have hfirst : Parses (lockFirst l).text (lockFirst l).value := by
    dsimp only [lockFirst]
    exact parses_string l.os
  have hmembers : ∀ x ∈ lockMembers l, Parses x.text x.value := by
    simp only [lockMembers, List.forall_mem_cons]
    exact ⟨parses_string l.arch, parses_entries l.entries, fun _ h ↦ (by cases h)⟩
  have hlock := parses_object (newLine_ws 2) (newLine_ws 0) (m := lockFirst l) hfirst hmembers
  rw [Json.parse]
  dsimp only
  rw [asBytes_toJson, hlock.parses _ (by rw [List.length_append]; omega) _ (Ends.cons rfl [])]
  rfl

/-! ### The lock that is read -/

def NativeLockEntry.readBack (e : NativeLockEntry) : NativeLockEntry where
  package := Package.readBack e.package
  version := Package.readBack e.version
  stem := Package.readBack e.stem
  filename := Package.readBack e.filename
  sha256 := Package.readBack e.sha256
  size := e.size
  requires := e.requires.map Package.readBack
  requiresHint := Package.readBack e.requiresHint
  missing := e.missing

def NativeLock.readBack (l : NativeLock) : NativeLock where
  os := Package.readBack l.os
  arch := Package.readBack l.arch
  entries := l.entries.map NativeLockEntry.readBack

theorem mapM_asStr (rs : List String) :
    (rs.map fun r ↦ Json.string (Package.readBack r)).mapM Json.asStr = .ok (rs.map Package.readBack) := by
  induction rs with
  | nil => rfl
  | cons r rs ih =>
    rw [List.map_cons, List.mapM_cons, ih]
    rfl

theorem entryOf_entryValue (e : NativeLockEntry) : entryOf (entryValue e) = .ok e.readBack := by
  have hkeys : Package.readBack "package" = "package" ∧ Package.readBack "version" = "version" ∧ Package.readBack "stem" = "stem" ∧
      Package.readBack "filename" = "filename" ∧ Package.readBack "sha256" = "sha256" ∧ Package.readBack "size" = "size" ∧
      Package.readBack "missing" = "missing" ∧ Package.readBack "requires" = "requires" ∧
      Package.readBack "requires_hint" = "requires_hint" := by decide +kernel
  obtain ⟨h₁, h₂, h₃, h₄, h₅, h₆, h₇, h₈, h₉⟩ := hkeys
  have hrequires := mapM_asStr e.requires
  obtain ⟨package, version, stem, filename, sha256, size, requires, requiresHint, missing⟩ := e
  cases missing with
  | true =>
    simp only [entryValue, entryFirst, entryMembers, Member.read, if_true, List.cons_append, List.nil_append, List.map_cons, List.map_nil,
      h₁, h₂, h₃, h₄, h₅, h₆, h₇, h₈, h₉]
    simp [entryOf, Json.asObject, ok_bind, requiresOf, jsonObjStr, jsonObjU64, jsonObjGet, List.lookup_cons, Json.asStr, Json.asArray, hrequires, Except.toOption,
      NativeLockEntry.readBack]
  | false =>
    simp only [entryValue, entryFirst, entryMembers, Member.read, Bool.false_eq_true, if_false, List.append_nil, List.cons_append, List.nil_append, List.map_cons, List.map_nil,
      h₁, h₂, h₃, h₄, h₅, h₆, h₈, h₉]
    simp [entryOf, Json.asObject, ok_bind, requiresOf, jsonObjStr, jsonObjU64, jsonObjGet, List.lookup_cons, List.lookup_nil, Json.asStr, Json.asArray, hrequires, Except.toOption,
      NativeLockEntry.readBack]

theorem mapM_entryOf (es : List NativeLockEntry) :
    (es.map entryValue).mapM entryOf = .ok (es.map NativeLockEntry.readBack) := by
  induction es with
  | nil => rfl
  | cons e es ih =>
    rw [List.map_cons, List.mapM_cons, entryOf_entryValue, ih]
    rfl

/-- **`fromJson` accepts what `toJson` writes.** -/
theorem fromJson_toJson (l : NativeLock) : NativeLock.fromJson l.toJson = .ok l.readBack := by
  have hkeys : Package.readBack "os" = "os" ∧ Package.readBack "arch" = "arch" ∧ Package.readBack "entries" = "entries" := by
    decide +kernel
  obtain ⟨h₁, h₂, h₃⟩ := hkeys
  have hentries := mapM_entryOf l.entries
  rw [NativeLock.fromJson, parse_toJson]
  simp only [lockFirst, lockMembers, Member.read, List.map_cons, List.map_nil, h₁, h₂, h₃]
  simp [Json.asObject, ok_bind, jsonObjStr, jsonObjGet, List.lookup_cons, Json.asStr, Json.asArray, hentries, NativeLock.readBack]

/-! ### The strings that survive -/

theorem readChar_of_lt {c : Char} (h : c.toNat < 0xa0) : readChar c = [c] := by
  have hpos : c.toNat < 0x80 ∨ isControl c = true := by
    simp only [isControl, Bool.or_eq_true, decide_eq_true_eq, Bool.and_eq_true]
    omega
  rw [readChar, if_pos hpos]

theorem readChar_of_not_lt {c : Char} (h : ¬ c.toNat < 0xa0) : 2 ≤ (readChar c).length := by
  have hneg : ¬ (c.toNat < 0x80 ∨ isControl c = true) := by
    simp only [isControl, Bool.or_eq_true, decide_eq_true_eq, Bool.and_eq_true]
    omega
  rw [readChar, if_neg hneg, List.length_map]
  exact (utf8EncodeChar_high (by omega)).2

theorem length_le_flatMap_readChar (cs : List Char) : cs.length ≤ (cs.flatMap readChar).length := by
  induction cs with
  | nil => exact Nat.le_refl 0
  | cons c cs ih =>
    have hc : 1 ≤ (readChar c).length := by
      by_cases h : c.toNat < 0xa0
      · rw [readChar_of_lt h]
        exact Nat.le_refl 1
      · exact Nat.le_trans (by decide) (readChar_of_not_lt h)
    rw [List.flatMap_cons, List.length_append, List.length_cons]
    omega

theorem flatMap_readChar_eq_iff (cs : List Char) : cs.flatMap readChar = cs ↔ ∀ c ∈ cs, c.toNat < 0xa0 := by
  induction cs with
  | nil => exact ⟨fun _ c hc ↦ absurd hc List.not_mem_nil, fun _ ↦ rfl⟩
  | cons c cs ih =>
    rw [List.flatMap_cons, List.forall_mem_cons]
    by_cases h : c.toNat < 0xa0
    · rw [readChar_of_lt h, List.singleton_append, List.cons.injEq, ih]
      exact ⟨fun hcs ↦ ⟨h, hcs.2⟩, fun hcs ↦ ⟨rfl, hcs.2⟩⟩
    · refine ⟨fun heq ↦ ?_, fun hcs ↦ absurd hcs.1 h⟩
      -- the text that is read back is longer
      have hlen := congrArg List.length heq
      have hc := readChar_of_not_lt h
      have hcs := length_le_flatMap_readChar cs
      rw [List.length_append, List.length_cons] at hlen
      omega

theorem readBack_eq_iff (s : String) : readBack s = s ↔ ∀ c ∈ s.toList, c.toNat < 0xa0 := by
  rw [← flatMap_readChar_eq_iff, ← String.toList_inj, readBack, String.toList_ofList]

def NativeLockEntry.strings (e : NativeLockEntry) : List String :=
  [e.package, e.version, e.stem, e.filename, e.sha256, e.requiresHint] ++ e.requires

/-- The strings of a lock. -/
def NativeLock.strings (l : NativeLock) : List String := [l.os, l.arch] ++ l.entries.flatMap NativeLockEntry.strings

theorem map_eq_self_iff {α : Type} {f : α → α} {as : List α} : as.map f = as ↔ ∀ a ∈ as, f a = a := by
  induction as with
  | nil => exact ⟨fun _ a ha ↦ absurd ha List.not_mem_nil, fun _ ↦ rfl⟩
  | cons a as ih => rw [List.map_cons, List.cons.injEq, ih, List.forall_mem_cons]

theorem NativeLockEntry.readBack_eq_iff (e : NativeLockEntry) : e.readBack = e ↔ ∀ s ∈ e.strings, Package.readBack s = s := by
  obtain ⟨package, version, stem, filename, sha256, size, requires, requiresHint, missing⟩ := e
  simp only [NativeLockEntry.readBack, NativeLockEntry.mk.injEq, NativeLockEntry.strings, List.forall_mem_append, List.forall_mem_cons,
    map_eq_self_iff]
  constructor
  · rintro ⟨h₁, h₂, h₃, h₄, h₅, -, h₆, h₇, -⟩
    exact ⟨⟨h₁, h₂, h₃, h₄, h₅, h₇, fun _ h ↦ (by cases h)⟩, h₆⟩
  · rintro ⟨⟨h₁, h₂, h₃, h₄, h₅, h₇, -⟩, h₆⟩
    exact ⟨h₁, h₂, h₃, h₄, h₅, trivial, h₆, h₇, trivial⟩

theorem NativeLock.readBack_eq_iff (l : NativeLock) : l.readBack = l ↔ ∀ s ∈ l.strings, Package.readBack s = s := by
  obtain ⟨os, arch, entries⟩ := l
  simp only [NativeLock.readBack, NativeLock.mk.injEq, NativeLock.strings, List.forall_mem_append, List.forall_mem_cons,
    map_eq_self_iff, NativeLockEntry.readBack_eq_iff, List.forall_mem_flatMap]
  constructor
  · rintro ⟨h₁, h₂, h₃⟩
    exact ⟨⟨h₁, h₂, fun _ h ↦ (by cases h)⟩, h₃⟩
  · rintro ⟨⟨h₁, h₂, -⟩, h₃⟩
    exact ⟨h₁, h₂, h₃⟩

/-- **A lock is read back as it was written exactly when its strings have no character from U+00A0 on.** -/
theorem fromJson_toJson_iff (l : NativeLock) :
    NativeLock.fromJson l.toJson = .ok l ↔ ∀ s ∈ l.strings, ∀ c ∈ s.toList, c.toNat < 0xa0 := by
  rw [fromJson_toJson, Except.ok.injEq, NativeLock.readBack_eq_iff]
  simp only [Package.readBack_eq_iff]

/-- A lock whose only entry is for a package with an accented letter in its name. -/
def accentedLock : NativeLock :=
  ⟨"linux", "x86_64", [⟨"caf\u00e9", "1.0.0", "cafe", "libcafe.so", "", 0, [], "", false⟩]⟩

theorem fromJson_toJson_accented : ¬ (∀ l : NativeLock, NativeLock.fromJson l.toJson = .ok l) := by
  intro h
  have hlock := h accentedLock
  rw [fromJson_toJson] at hlock
  exact absurd hlock (by decide +kernel)

end CoilLang.Package
