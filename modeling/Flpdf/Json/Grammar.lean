import Flpdf.Json.Lexer

/-!
# The JSON grammar

The texts of JSON values and the values they denote. Each text stands at an
offset of its document, so that a value also carries the offsets of its text.
-/

namespace Flpdf.Json

open Lexer (utf8 isNonzeroDigit isExponent)

def isBlank (byte : UInt8) : Bool :=
  byte == 0x20 || byte == 0x09 || byte == 0x0a || byte == 0x0d

/-- Optional whitespace. -/
def Blank (text : Bytes) : Prop := ∀ byte ∈ text, isBlank byte = true

/-! ## Numbers -/

def Digits (text : Bytes) : Prop := ∀ byte ∈ text, isAsciiDigit byte = true

inductive IntPart : Bytes → Prop where
  | zero : IntPart [0x30]
  | nonzero {first : UInt8} {rest : Bytes} : isNonzeroDigit first = true → Digits rest →
      IntPart (first :: rest)

inductive FracPart : Bytes → Prop where
  | absent : FracPart []
  | point {digits : Bytes} : digits ≠ [] → Digits digits → FracPart (0x2e :: digits)

inductive ExpPart : Bytes → Prop where
  | absent : ExpPart []
  | exponent {e : UInt8} {sign digits : Bytes} : isExponent e = true →
      sign = [] ∨ sign = [0x2b] ∨ sign = [0x2d] → digits ≠ [] → Digits digits →
      ExpPart (e :: (sign ++ digits))

/-- A number: an optional minus, an integer, and optional fraction and exponent. -/
def IsNumber (text : Bytes) : Prop :=
  ∃ sign int frac exp, (sign = [] ∨ sign = [0x2d]) ∧ IntPart int ∧ FracPart frac ∧ ExpPart exp ∧
    text = sign ++ (int ++ (frac ++ exp))

/-! ## Strings -/

/-- The two-character escapes and the bytes they stand for. -/
def escapes : List (UInt8 × UInt8) :=
  [(0x22, 0x22), (0x5c, 0x5c), (0x2f, 0x2f), (0x62, 0x08), (0x66, 0x0c), (0x6e, 0x0a),
    (0x72, 0x0d), (0x74, 0x09)]

/-- The code unit of four hexadecimal digits. -/
def codeUnit (a b c d : UInt8) : Option ℕ := do
  let a ← hexValue a
  let b ← hexValue b
  let c ← hexValue c
  let d ← hexValue d
  return 16 * (16 * (16 * a.toNat + b.toNat) + c.toNat) + d.toNat

def IsHighSurrogate (unit : ℕ) : Prop := 0xd800 ≤ unit ∧ unit < 0xdc00

def IsLowSurrogate (unit : ℕ) : Prop := 0xdc00 ≤ unit ∧ unit < 0xe000

/-- The text between the quotes of a string and the bytes it stands for. Only
at offset 6 may a low surrogate come without a high one. -/
inductive StringText : ℤ → Bytes → Bytes → Prop where
  | nil (o : ℤ) : StringText o [] []
  | byte {o : ℤ} {b : UInt8} {text s : Bytes} : 0x20 ≤ b → b ≠ 0x22 → b ≠ 0x5c →
      StringText (o + 1) text s → StringText o (b :: text) (b :: s)
  | escape {o : ℤ} {e b : UInt8} {text s : Bytes} : (e, b) ∈ escapes →
      StringText (o + 2) text s → StringText o (0x5c :: e :: text) (b :: s)
  | unit {o : ℤ} {a b c d : UInt8} {u : ℕ} {text s : Bytes} : codeUnit a b c d = some u →
      ¬IsHighSurrogate u → ¬IsLowSurrogate u → StringText (o + 6) text s →
      StringText o (0x5c :: 0x75 :: a :: b :: c :: d :: text) (utf8 u ++ s)
  | pair {o : ℤ} {a b c d a' b' c' d' : UInt8} {high low : ℕ} {text s : Bytes} :
      codeUnit a b c d = some high → IsHighSurrogate high →
      codeUnit a' b' c' d' = some low → IsLowSurrogate low → StringText (o + 12) text s →
      StringText o
        (0x5c :: 0x75 :: a :: b :: c :: d :: 0x5c :: 0x75 :: a' :: b' :: c' :: d' :: text)
        (utf8 (0x10000 + 0x400 * (high - 0xd800) + (low - 0xdc00)) ++ s)
  | loneLow {a b c d : UInt8} {low : ℕ} {text s : Bytes} : codeUnit a b c d = some low →
      IsLowSurrogate low → StringText 12 text s →
      StringText 6 (0x5c :: 0x75 :: a :: b :: c :: d :: text)
        (utf8 (0x10000 + (low - 0xdc00)) ++ s)

/-! ## Values -/

inductive Scalar : ℤ → Bytes → Json → Prop where
  | null (o : ℤ) : Scalar o (ascii "null") (.null o (o + 4))
  | true (o : ℤ) : Scalar o (ascii "true") (.bool true o (o + 4))
  | false (o : ℤ) : Scalar o (ascii "false") (.bool false o (o + 5))
  | number {o : ℤ} {text : Bytes} : IsNumber text →
      Scalar o text (.number text o (o + text.length))
  | string {o : ℤ} {text s : Bytes} : StringText (o + 1) text s →
      Scalar o (0x22 :: (text ++ [0x22])) (makeString s o (o + text.length + 2))

/-- Texts with a comma between any two of them. -/
inductive Separated {α : Type} (item : ℤ → Bytes → α → Prop) : ℤ → Bytes → List α → Prop where
  | last {o : ℤ} {text : Bytes} {a : α} : item o text a → Separated item o text [a]
  | cons {o : ℤ} {text rest : Bytes} {a : α} {as : List α} : item o text a →
      Separated item (o + text.length + 1) rest as →
      Separated item o (text ++ 0x2c :: rest) (a :: as)

/-- A text with optional whitespace around it. -/
def Padded {α : Type} (item : ℤ → Bytes → α → Prop) (o : ℤ) (text : Bytes) (a : α) : Prop :=
  ∃ pre core post, Blank pre ∧ Blank post ∧ item (o + pre.length) core a ∧
    text = pre ++ (core ++ post)

/-- A key and its value. -/
def Member (value : ℤ → Bytes → Json → Prop) (o : ℤ) (text : Bytes) (m : Bytes × Json) : Prop :=
  ∃ pre key mid rest, Blank pre ∧ StringText (o + pre.length + 1) key m.1 ∧ Blank mid ∧
    Padded value (o + pre.length + key.length + mid.length + 3) rest m.2 ∧
    text = pre ++ 0x22 :: (key ++ 0x22 :: (mid ++ 0x3a :: rest))

/-- The dictionary of some members, each under its encoded key. -/
def membersOf (members : List (Bytes × Json)) : List (Bytes × Json) :=
  members.foldl (fun entries m => insertSorted (encodeString m.1) m.2 entries) []

inductive Container (value : ℤ → Bytes → Json → Prop) : ℤ → Bytes → Json → Prop where
  | emptyArray {o : ℤ} {body : Bytes} : Blank body →
      Container value o (0x5b :: (body ++ [0x5d])) (.array [] o (o + body.length + 2))
  | array {o : ℤ} {body : Bytes} {items : List Json} : Separated (Padded value) (o + 1) body items →
      Container value o (0x5b :: (body ++ [0x5d])) (.array items o (o + body.length + 2))
  | emptyDictionary {o : ℤ} {body : Bytes} : Blank body →
      Container value o (0x7b :: (body ++ [0x7d])) (.dictionary [] o (o + body.length + 2))
  | dictionary {o : ℤ} {body : Bytes} {members : List (Bytes × Json)} :
      Separated (Member value) (o + 1) body members → (members.map Prod.fst).Nodup →
      Container value o (0x7b :: (body ++ [0x7d]))
        (.dictionary (membersOf members) o (o + body.length + 2))

/-- A value whose containers nest at most `depth` deep. -/
def Value : ℕ → ℤ → Bytes → Json → Prop
  | 0, o, text, v => Scalar o text v
  | depth + 1, o, text, v => Scalar o text v ∨ Container (Value depth) o text v

/-- A whole JSON text. -/
def Document (input : Bytes) (v : Json) : Prop := Padded (Value 500) 0 input v

end Flpdf.Json
