import Mathlib.Data.Rat.Defs
import Mathlib.Algebra.Order.Field.Basic
import Mathlib.Data.Rat.Cast.Defs
import LFGateway.Foundation.Bytes

/-!
This module contains the grammar of JSON texts, as bytes, and the values that they stand for.
-/

namespace Foundation
namespace Json

def isBlank (b : UInt8) : Bool := b = 32 ∨ b = 9 ∨ b = 10 ∨ b = 13

def Blank (s : Bytes) : Prop := ∀ b ∈ s, isBlank b = true

section String

def Unescaped (c : Char) : Prop := 32 ≤ c.toNat ∧ c.toNat ≠ 34 ∧ c.toNat ≠ 92

def escapes : List (UInt8 × UInt8) :=
  [(34, 34), (92, 92), (47, 47), (98, 8), (102, 12), (110, 10), (114, 13), (116, 9)]

def hexDigit (b : UInt8) : Option Nat :=
  if 48 ≤ b ∧ b ≤ 57 then some (b.toNat - 48)
  else if 65 ≤ b ∧ b ≤ 70 then some (b.toNat - 55)
  else if 97 ≤ b ∧ b ≤ 102 then some (b.toNat - 87)
  else none

def codeUnit : Bytes → Option Nat
  | [a, b, c, d] => do
    let a ← hexDigit a
    let b ← hexDigit b
    let c ← hexDigit c
    let d ← hexDigit d
    return 16 * (16 * (16 * a + b) + c) + d
  | _ => none

def IsHigh (n : Nat) : Prop := 0xD800 ≤ n ∧ n < 0xDC00

def IsLow (n : Nat) : Prop := 0xDC00 ≤ n ∧ n < 0xE000

/--
The bytes of a code point, as UTF-8 has them. A surrogate without its other half is treated like any
other one.
-/
def encode (n : Nat) : Bytes :=
  if n < 0x80 then [UInt8.ofNat n]
  else if n < 0x800 then [UInt8.ofNat (0xC0 + n / 64), UInt8.ofNat (0x80 + n % 64)]
  else if n < 0x10000 then
    [UInt8.ofNat (0xE0 + n / 4096), UInt8.ofNat (0x80 + n / 64 % 64), UInt8.ofNat (0x80 + n % 64)]
  else
    [UInt8.ofNat (0xF0 + n / 262144), UInt8.ofNat (0x80 + n / 4096 % 64),
      UInt8.ofNat (0x80 + n / 64 % 64), UInt8.ofNat (0x80 + n % 64)]

inductive Escape : Bytes → Bytes → Bytes → Prop where
  | byte {b v : UInt8} (h : (b, v) ∈ escapes) (src : Bytes) : Escape [92, b] [v] src
  | unit {digits src : Bytes} {n : Nat} (h : codeUnit digits = some n)
      (hlone : IsHigh n → ∀ digits' low rest, codeUnit digits' = some low → IsLow low →
        src ≠ 92 :: 117 :: (digits' ++ rest))
      : Escape (92 :: 117 :: digits) (encode n) src
  | pair {digits digits' : Bytes} {high low : Nat} (h : codeUnit digits = some high)
      (h' : codeUnit digits' = some low) (hhigh : IsHigh high) (hlow : IsLow low) (src : Bytes)
      : Escape (92 :: 117 :: (digits ++ 92 :: 117 :: digits'))
          (encode (0x10000 + (high - 0xD800) * 0x400 + (low - 0xDC00))) src

/--
`src` between quotes is a string with the given value.
-/
inductive Denotes : Bytes → Bytes → Prop where
  | nil : Denotes [] []
  | char {src value : Bytes} {c : Char} (hc : Unescaped c) (h : Denotes src value)
    : Denotes (String.utf8EncodeChar c ++ src) (String.utf8EncodeChar c ++ value)
  | escape {item part src value : Bytes} (hitem : Escape item part src) (h : Denotes src value)
    : Denotes (item ++ src) (part ++ value)

end String

section Number

def isDigit (b : UInt8) : Bool := 48 ≤ b ∧ b ≤ 57

structure Exponent where
  letter : UInt8
  sign : Bytes
  digits : Bytes
  letter_ok : letter = 101 ∨ letter = 69
  sign_ok : sign = [] ∨ sign = [43] ∨ sign = [45]
  digits_ne_nil : digits ≠ []
  digits_ok : ∀ b ∈ digits, isDigit b = true

/--
A number as it is written. Without a fraction there is no point.
-/
structure Number where
  negative : Bool
  whole : Bytes
  fraction : Bytes
  exponent : Option Exponent
  whole_ne_nil : whole ≠ []
  whole_ok : ∀ b ∈ whole, isDigit b = true
  no_leading_zero : whole = [48] ∨ whole.head? ≠ some 48
  fraction_ok : ∀ b ∈ fraction, isDigit b = true

def Exponent.text (e : Exponent) : Bytes := e.letter :: (e.sign ++ e.digits)

def Exponent.value (e : Exponent) : Int := if e.sign = [45] then -e.digits.toNat else e.digits.toNat

namespace Number

def fractionText (n : Number) : Bytes := if n.fraction = [] then [] else 46 :: n.fraction

def exponentText (n : Number) : Bytes := (n.exponent.map Exponent.text).getD []

def text (n : Number) : Bytes :=
  (if n.negative then [45] else []) ++ (n.whole ++ (n.fractionText ++ n.exponentText))

def value (n : Number) : ℚ :=
  (if n.negative then -1 else 1) * (n.whole ++ n.fraction).toNat / 10 ^ n.fraction.length *
    10 ^ (n.exponent.map Exponent.value).getD 0

end Number

end Number

inductive Value where
  | null
  | bool (b : Bool)
  | number (q : ℚ)
  | string (s : Bytes)
  | array (elements : List Value)
  | object (members : List (Bytes × Value))

structure Element where
  lead : Bytes
  text : Bytes
  trail : Bytes
  value : Value

def Element.padded (e : Element) : Bytes := e.lead ++ (e.text ++ e.trail)

/--
A member of an object: the text of its name between quotes, and white space before the name, before
and behind the colon, and behind the value.
-/
structure Member where
  lead : Bytes
  source : Bytes
  before : Bytes
  behind : Bytes
  text : Bytes
  trail : Bytes
  name : Bytes
  value : Value

def Member.padded (m : Member) : Bytes :=
  m.lead ++ 34 :: (m.source ++ 34 :: (m.before ++ 58 :: (m.behind ++ (m.text ++ m.trail))))

def commas : List Bytes → Bytes
  | [] => []
  | [s] => s
  | s :: t :: ss => s ++ 44 :: commas (t :: ss)

def content (blank : Bytes) (pieces : List Bytes) : Bytes := if pieces = [] then blank else commas pieces

inductive IsValue : Bytes → Value → Prop where
  | null : IsValue (Bytes.ofAscii "null") .null
  | true : IsValue (Bytes.ofAscii "true") (.bool true)
  | false : IsValue (Bytes.ofAscii "false") (.bool false)
  | number (n : Number) : IsValue n.text (.number n.value)
  | string {src value : Bytes} (h : Denotes src value) : IsValue (34 :: (src ++ [34])) (.string value)
  | array {blank : Bytes} {elements : List Element} (hblank : Blank blank)
      (hlead : ∀ e ∈ elements, Blank e.lead) (htrail : ∀ e ∈ elements, Blank e.trail)
      (h : ∀ e ∈ elements, IsValue e.text e.value)
      : IsValue (91 :: (content blank (elements.map Element.padded) ++ [93]))
          (.array (elements.map Element.value))
  | object {blank : Bytes} {members : List Member} (hblank : Blank blank)
      (hlead : ∀ m ∈ members, Blank m.lead) (hbefore : ∀ m ∈ members, Blank m.before)
      (hbehind : ∀ m ∈ members, Blank m.behind) (htrail : ∀ m ∈ members, Blank m.trail)
      (hname : ∀ m ∈ members, Denotes m.source m.name) (h : ∀ m ∈ members, IsValue m.text m.value)
      : IsValue (123 :: (content blank (members.map Member.padded) ++ [125]))
          (.object (members.map fun m => (m.name, m.value)))

def IsText (s : Bytes) (v : Value) : Prop :=
  ∃ lead text trail, Blank lead ∧ Blank trail ∧ s = lead ++ (text ++ trail) ∧ IsValue text v

end Json
end Foundation
