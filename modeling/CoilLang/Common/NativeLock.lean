import Mathlib.Algebra.Group.Nat.Defs
import Mathlib.Data.Nat.Notation

/-!
# Native locks

A packaged program carries a list of the shared libraries it loads, as JSON text. The text is written with
the escapes of JSON and read back **byte by byte**: a byte of a string that is no quote and no backslash
becomes the character with that number, whatever character of the text it was part of.

The bytes of a text are the UTF-8 codes of its characters in order. Bytes still to be read stand for the
slice and the index of the parser. Its recursion is bounded by `fuel`: every two calls read a byte, so that
twice the number of bytes is enough.
-/

namespace CoilLang.Package

/-- One shared library a packaged program loads. -/
structure NativeLockEntry where
  package : String
  version : String
  stem : String
  filename : String
  sha256 : String
  size : UInt64
  requires : List String
  requiresHint : String
  missing : Bool
  deriving DecidableEq, Repr

/-- The host and the libraries. -/
structure NativeLock where
  os : String
  arch : String
  entries : List NativeLockEntry
  deriving DecidableEq, Repr

/-! ### Writing -/

/-- The control characters of Unicode. -/
def isControl (c : Char) : Bool := c.toNat < 0x20 || (0x7f ≤ c.toNat && c.toNat < 0xa0)

/-- Hexadecimal digits, at least four. -/
def hex4 (n : ℕ) : List Char := List.leftpad 4 '0' (Nat.toDigits 16 n)

def escape (c : Char) : List Char :=
  if c = '\x22' then ['\x5c', '\x22']
  else if c = '\x5c' then ['\x5c', '\x5c']
  else if c = '\n' then ['\x5c', 'n']
  else if c = '\r' then ['\x5c', 'r']
  else if c = '\t' then ['\x5c', 't']
  else if isControl c then '\x5c' :: 'u' :: hex4 c.toNat
  else [c]

def jsonString (s : String) : String := "\"" ++ String.ofList (s.toList.flatMap escape) ++ "\""

def requiresJson : List String → String
  | [] => ""
  | [r] => jsonString r
  | r :: rs => jsonString r ++ ", " ++ requiresJson rs

/-- A field of an object, without what separates it from the next. -/
def fieldJson (indent key value : String) : String := indent ++ "\"" ++ key ++ "\": " ++ value

def entryJson (e : NativeLockEntry) : String :=
  "    \x7b\n" ++
  fieldJson "      " "package" (jsonString e.package) ++ ",\n" ++
  fieldJson "      " "version" (jsonString e.version) ++ ",\n" ++
  fieldJson "      " "stem" (jsonString e.stem) ++ ",\n" ++
  fieldJson "      " "filename" (jsonString e.filename) ++ ",\n" ++
  fieldJson "      " "sha256" (jsonString e.sha256) ++ ",\n" ++
  fieldJson "      " "size" (Nat.repr e.size.toNat) ++ ",\n" ++
  (if e.missing then fieldJson "      " "missing" "true" ++ ",\n" else "") ++
  fieldJson "      " "requires" ("[" ++ requiresJson e.requires ++ "]") ++ ",\n" ++
  fieldJson "      " "requires_hint" (jsonString e.requiresHint) ++ "\n" ++
  "    \x7d"

def entriesJson : List NativeLockEntry → String
  | [] => ""
  | e :: es => entryJson e ++ (if es.isEmpty then "" else ",") ++ "\n" ++ entriesJson es

def NativeLock.toJson (l : NativeLock) : String :=
  "\x7b\n" ++
  fieldJson "  " "os" (jsonString l.os) ++ ",\n" ++
  fieldJson "  " "arch" (jsonString l.arch) ++ ",\n" ++
  fieldJson "  " "entries" ("[\n" ++ entriesJson l.entries ++ "  ]") ++ "\n\x7d\n"

/-! ### Reading -/

inductive Json
  | null
  | bool (b : Bool)
  | number (n : UInt64)
  | string (s : String)
  | array (items : List Json)
  | object (fields : List (String × Json))

/-- The bytes still to be read. -/
abbrev JsonParser := List UInt8

/-- The character with the number of a byte. -/
def byteChar (b : UInt8) : Char := Char.ofNat b.toNat

def charText (b : UInt8) : String := String.singleton (byteChar b)

def isAsciiWhitespace (b : UInt8) : Bool := b = 0x20 || b = 0x09 || b = 0x0a || b = 0x0c || b = 0x0d

def isAsciiDigit (b : UInt8) : Bool := 0x30 ≤ b && b ≤ 0x39

/-- The value of a hexadecimal digit. -/
def hexDigit? (c : Char) : Option ℕ :=
  if '0' ≤ c ∧ c ≤ '9' then some (c.toNat - '0'.toNat)
  else if 'a' ≤ c ∧ c ≤ 'f' then some (c.toNat - 'a'.toNat + 10)
  else if 'A' ≤ c ∧ c ≤ 'F' then some (c.toNat - 'A'.toNat + 10)
  else none

def hexDigits (acc : ℕ) : List Char → Option ℕ
  | [] => some acc
  | c :: cs => (hexDigit? c).bind fun d ↦ hexDigits (16 * acc + d) cs

/-- `u32::from_str_radix` at 16 for four characters, which may start with a plus. -/
def fromHex : List Char → Option ℕ
  | '+' :: cs => hexDigits 0 cs
  | cs => hexDigits 0 cs

/-- `char::from_u32`. -/
def charOf? (n : ℕ) : Option Char := if n.isValidChar then some (Char.ofNat n) else none

namespace JsonParser

def skipWs (r : JsonParser) : JsonParser := r.dropWhile isAsciiWhitespace

def bump : JsonParser → Except String (UInt8 × JsonParser)
  | [] => .error "unexpected end of JSON"
  | b :: r => .ok (b, r)

/-- The bytes of a literal, one after another. -/
def keyword (message : String) : List UInt8 → JsonParser → Except String JsonParser
  | [], r => .ok r
  | c :: cs, r => do
    let (b, r) ← bump r
    if b ≠ c then .error message else keyword message cs r

def parseNull (r : JsonParser) : Except String (Json × JsonParser) := do
  let r ← keyword "invalid null" [0x6e, 0x75, 0x6c, 0x6c] r
  .ok (.null, r)

def parseBool (r : JsonParser) : Except String (Json × JsonParser) :=
  if r.head? = some 0x74 then do
    let r ← keyword "invalid true" [0x74, 0x72, 0x75, 0x65] r
    .ok (.bool true, r)
  else do
    let r ← keyword "invalid false" [0x66, 0x61, 0x6c, 0x73, 0x65] r
    .ok (.bool false, r)

def parseNumber (r : JsonParser) : Except String (Json × JsonParser) :=
  let digits := (r.takeWhile isAsciiDigit).map byteChar
  let n := Nat.ofDigitChars 10 digits 0
  if n < 2 ^ 64 then .ok (.number (UInt64.ofNat n), r.dropWhile isAsciiDigit)
  else .error ("bad number " ++ String.ofList digits)

/-- The character of a backslash and the byte `b`, but for `\u`. -/
def escaped (b : UInt8) : Option Char :=
  if b = 0x22 then some '\x22'
  else if b = 0x5c then some '\x5c'
  else if b = 0x6e then some '\n'
  else if b = 0x72 then some '\r'
  else if b = 0x74 then some '\t'
  else none

/-- The character of four hexadecimal digits. -/
def unicode (a b c d : UInt8) : Except String Char :=
  match fromHex [byteChar a, byteChar b, byteChar c, byteChar d] with
  | none => .error "bad \\u escape"
  | some n =>
    match charOf? n with
    | none => .error "invalid unicode escape"
    | some c => .ok c

/-- The rest of a string, after `out`. -/
def stringFrom (out : List Char) : JsonParser → Except String (String × JsonParser)
  | [] => .error "unexpected end of JSON"
  | b :: r =>
    if b = 0x22 then .ok (String.ofList out, r)
    else if b = 0x5c then
      match r with
      | [] => .error "unexpected end of JSON"
      | e :: r =>
        if e = 0x75 then
          match r with
          | h₁ :: h₂ :: h₃ :: h₄ :: r =>
            match unicode h₁ h₂ h₃ h₄ with
            | .ok c => stringFrom (out ++ [c]) r
            | .error m => .error m
          | _ => .error "unexpected end of JSON"
        else
          match escaped e with
          | some c => stringFrom (out ++ [c]) r
          | none => .error ("bad escape " ++ charText e)
    else stringFrom (out ++ [byteChar b]) r

def parseString (r : JsonParser) : Except String (String × JsonParser) := do
  let (b, r) ← bump r
  if b ≠ 0x22 then .error "expected string" else stringFrom [] r

mutual

def parseValue (fuel : ℕ) (r : JsonParser) : Except String (Json × JsonParser) :=
  match fuel with
  | 0 => .error "out of fuel"
  | fuel + 1 =>
    match skipWs r with
    | [] => .error "unexpected end of JSON"
    | b :: r =>
      if b = 0x6e then parseNull (b :: r)
      else if b = 0x74 ∨ b = 0x66 then parseBool (b :: r)
      else if b = 0x22 then do
        let (s, r) ← parseString (b :: r)
        .ok (.string s, r)
      else if b = 0x5b then
        if (skipWs r).head? = some 0x5d then .ok (.array [], (skipWs r).tail)
        else do
          let (items, r) ← parseItems fuel (skipWs r)
          .ok (.array items, r)
      else if b = 0x7b then
        if (skipWs r).head? = some 0x7d then .ok (.object [], (skipWs r).tail)
        else do
          let (fields, r) ← parseMembers fuel (skipWs r)
          .ok (.object fields, r)
      else if isAsciiDigit b then parseNumber (b :: r)
      else .error ("unexpected JSON byte " ++ charText b)
termination_by structural fuel

/-- The values of an array up to its bracket. -/
def parseItems (fuel : ℕ) (r : JsonParser) : Except String (List Json × JsonParser) :=
  match fuel with
  | 0 => .error "out of fuel"
  | fuel + 1 => do
    let (v, r) ← parseValue fuel r
    let (b, r) ← bump (skipWs r)
    if b = 0x5d then .ok ([v], r)
    else if b = 0x2c then do
      let (vs, r) ← parseItems fuel (skipWs r)
      .ok (v :: vs, r)
    else .error ("expected , or ] in array, got " ++ charText b)
termination_by structural fuel

/-- The fields of an object up to its brace. -/
def parseMembers (fuel : ℕ) (r : JsonParser) : Except String (List (String × Json) × JsonParser) :=
  match fuel with
  | 0 => .error "out of fuel"
  | fuel + 1 => do
    let (key, r) ← parseString (skipWs r)
    let (b, r) ← bump (skipWs r)
    if b ≠ 0x3a then .error "expected : in object"
    else do
      let (v, r) ← parseValue fuel r
      let (b, r) ← bump (skipWs r)
      if b = 0x7d then .ok ([(key, v)], r)
      else if b = 0x2c then do
        let (fields, r) ← parseMembers fuel r
        .ok ((key, v) :: fields, r)
      else .error ("expected , or \x7d in object, got " ++ charText b)
termination_by structural fuel

end

end JsonParser

/-- The bytes of a text. -/
def asBytes (text : String) : List UInt8 := text.toList.flatMap String.utf8EncodeChar

namespace Json

def parse (input : String) : Except String Json := do
  let bytes := asBytes input
  let (v, r) ← JsonParser.parseValue (2 * bytes.length + 2) bytes
  if JsonParser.skipWs r ≠ [] then .error "trailing junk after JSON" else .ok v

def asObject : Json → Except String (List (String × Json))
  | object o => .ok o
  | _ => .error "expected object"

def asArray : Json → Except String (List Json)
  | array a => .ok a
  | _ => .error "expected array"

def asStr : Json → Except String String
  | string s => .ok s
  | _ => .error "expected string"

end Json

def jsonObjGet (obj : List (String × Json)) (key : String) : Option Json := obj.lookup key

def jsonObjStr (obj : List (String × Json)) (key : String) : Except String String :=
  match jsonObjGet obj key with
  | some v => v.asStr
  | none => .error ("missing " ++ key)

def jsonObjU64 (obj : List (String × Json)) (key : String) : Except String UInt64 :=
  match jsonObjGet obj key with
  | some (.number n) => .ok n
  | some _ => .error ("expected number for " ++ key)
  | none => .error ("missing " ++ key)

def requiresOf (e : List (String × Json)) : Except String (List String) :=
  match jsonObjGet e "requires" with
  | some r => do
    let items ← r.asArray
    items.mapM Json.asStr
  | none => .ok []

def entryOf (item : Json) : Except String NativeLockEntry := do
  let e ← item.asObject
  let requires ← requiresOf e
  let package ← jsonObjStr e "package"
  let version ← jsonObjStr e "version"
  let stem ← jsonObjStr e "stem"
  let filename ← jsonObjStr e "filename"
  let sha256 ← jsonObjStr e "sha256"
  let size ← jsonObjU64 e "size"
  let requiresHint := (jsonObjStr e "requires_hint").toOption.getD ""
  let missing := match jsonObjGet e "missing" with
    | some (.bool true) => true
    | _ => false
  .ok ⟨package, version, stem, filename, sha256, size, requires, requiresHint, missing⟩

def NativeLock.fromJson (text : String) : Except String NativeLock := do
  let v ← Json.parse text
  let obj ← v.asObject
  let os ← jsonObjStr obj "os"
  let arch ← jsonObjStr obj "arch"
  let entries ← match jsonObjGet obj "entries" with
    | some v => v.asArray
    | none => .error "missing entries"
  let entries ← entries.mapM entryOf
  .ok ⟨os, arch, entries⟩

end CoilLang.Package
