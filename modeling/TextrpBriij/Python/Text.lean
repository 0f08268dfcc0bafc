import Mathlib

/-! # The parts of Python's text and JSON values that the server code uses

Hexadecimal decoding, case mapping and the truth value of a JSON value follow the
documented behaviour of the standard library. Case mapping outside ASCII is the
Unicode table, which is a parameter; every result holds for any such table.
-/
namespace TextrpBriij.Python

def hexDigit (c : Char) : Option ℕ :=
  if '0' ≤ c ∧ c ≤ '9' then some (c.toNat - '0'.toNat)
  else if 'a' ≤ c ∧ c ≤ 'f' then some (c.toNat - 'a'.toNat + 10)
  else if 'A' ≤ c ∧ c ≤ 'F' then some (c.toNat - 'A'.toNat + 10)
  else none

def isAsciiSpace (c : Char) : Bool := c ∈ [' ', '\t', '\n', '\r', '\x0b', '\x0c']

def fromHexChars : List Char → Option (List UInt8)
  | [] => some []
  | [c] => if isAsciiSpace c then some [] else none
  | c :: d :: rest =>
    -- white space may separate the bytes, never the two digits of one byte
    if isAsciiSpace c then fromHexChars (d :: rest)
    else do
      let hi ← hexDigit c
      let lo ← hexDigit d
      let tail ← fromHexChars rest
      some (UInt8.ofNat (16*hi+lo) :: tail)

/-- `bytes.fromhex`; `none` stands for the `ValueError`. -/
def bytesFromHex (s : String) : Option (List UInt8) := fromHexChars s.toList

def hexChar (n : ℕ) : Char :=
  if n < 10 then Char.ofNat ('0'.toNat + n) else Char.ofNat ('a'.toNat + (n - 10))

def bytesHex (b : List UInt8) : String :=
  String.ofList (b.flatMap (fun x => [hexChar (x.toNat / 16),hexChar (x.toNat % 16)]))

/-- `str.upper`, with the Unicode table given for the characters outside ASCII. -/
def upper (table : Char → List Char) (s : String) : String :=
  String.ofList (s.toList.flatMap (fun c => if c.toNat < 128 then [c.toUpper] else table c))

def encodeUtf8 (s : String) : List UInt8 := s.toUTF8.data.toList

theorem encodeUtf8_injective : Function.Injective encodeUtf8 := by
  intro s t h
  apply String.toByteArray_inj.mp
  apply ByteArray.ext
  exact Array.toList_inj.mp h

/-- A value produced by the JSON decoder. Finite floats are exact rationals. -/
inductive Json where
  | null
  | bool (b : Bool)
  | int (n : ℤ)
  | float (q : ℚ)
  | str (s : String)
  | arr (items : List Json)
  | obj (fields : List (String × Json))

/-- `d.get(key)` on the entries of a dictionary; a missing key reads as `None`. -/
def Json.field (fields : List (String × Json)) (key : String) : Json :=
  (fields.lookup key).getD .null

def Json.asStr : Json → Option String
  | .str s => some s
  | _ => none

/-- The integer value; `bool` is a subclass of `int`. -/
def Json.asInt : Json → Option ℤ
  | .int n => some n
  | .bool b => some (if b then 1 else 0)
  | _ => none

/-- `value == n` for an integer `n`; Python compares booleans and floats with
integers by value. -/
def Json.eqInt (n : ℤ) : Json → Bool
  | .int m => m == n
  | .bool b => (if b then 1 else 0) == n
  | .float q => q == (n : ℚ)
  | _ => false

def isSpace (c : Char) : Bool :=
  c.toNat ∈ [0x20,0x85,0xA0,0x1680,0x2028,0x2029,0x202F,0x205F,0x3000] ||
  (0x09 ≤ c.toNat && c.toNat ≤ 0x0D) || (0x1C ≤ c.toNat && c.toNat ≤ 0x1F) ||
  (0x2000 ≤ c.toNat && c.toNat ≤ 0x200A)

def stripChars (p : Char → Bool) (cs : List Char) : List Char :=
  ((cs.dropWhile p).reverse.dropWhile p).reverse

def strip (s : String) : String := String.ofList (stripChars isSpace s.toList)

def lastChars (n : ℕ) (s : String) : String :=
  String.ofList (s.toList.drop (s.toList.length - n))

/-- `str.lower` as far as the ASCII characters of the result go: U+0130 and the
Kelvin sign are the only characters outside ASCII whose lower case has any. -/
def lowerChar (c : Char) : List Char :=
  if c.toNat = 0x130 then ['i',Char.ofNat 0x307]
  else if c.toNat = 0x212A then ['k']
  else [c.toLower]

/-- `str.lower`, with the Unicode table given for the characters outside ASCII. -/
def lower (table : Char → List Char) (s : String) : String :=
  String.ofList (s.toList.flatMap (fun c => if c.toNat < 128 then [c.toLower] else table c))

def isSubstring (needle haystack : String) : Bool :=
  haystack.toList.tails.any (fun t => needle.toList.isPrefixOf t)

end TextrpBriij.Python
