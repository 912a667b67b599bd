import MyWorkflow.JsonParser

set_option autoImplicit false

/-!
# JSON texts

The grammar of RFC 8259 with the tree each text denotes. White space is what `isspace` says, and a
string may hold any byte from 0x20 on. `fits` restricts the lengths that the parser keeps in an
`int`: the grammar itself, `Unlimited`, has no such limit.
-/
namespace MyWorkflow.Json
open CString Recognizer

inductive Length where
  | string
  | name
  | items
deriving DecidableEq, Repr

/-- `ret + 1` has to be an `int` for a string, but is a `size_t` for a name. -/
def Length.max : Length → ℕ
  | .string => intMax - 1
  | .name | .items => intMax

def InInt (k : Length) (n : ℕ) : Prop := n ≤ k.max

def Unlimited (_ : Length) (_ : ℕ) : Prop := True

def Spaces (w : Bytes) : Prop := ∀ c ∈ w, isspace c = true

structure Hex4 (h : Bytes) (code : ℕ) : Prop where
  length : h.length = 4
  digits : ∀ c ∈ h, digitVal c < 16
  value : digitsVal 16 h = code

def standardEscapes : List (UInt8 × UInt8) :=
  [(34, 34), (92, 92), (47, 47), (98, 8), (102, 12), (110, 10), (114, 13), (116, 9)]

/-- What may follow a backslash and a `u`, with the character it denotes and its length. -/
inductive UnicodeEscape : Bytes → Char → ℕ → Prop where
  | single {h : Bytes} {c : Char} (hex : Hex4 h c.toNat) : UnicodeEscape h c 4
  | surrogates {h l : Bytes} {hi lo : ℕ} {c : Char} (hhi : Hex4 h hi) (hlo : Hex4 l lo)
      (high : 0xd800 ≤ hi ∧ hi ≤ 0xdbff) (low : 0xdc00 ≤ lo ∧ lo ≤ 0xdfff)
      (hc : c.toNat = 0x10000 + (hi - 0xd800) * 0x400 + (lo - 0xdc00)) :
      UnicodeEscape (h ++ BACKSLASH :: 117 :: l) c 9

/-- The text of a string, the UTF-8 it denotes, and its length where a backslash and the byte behind
    it count as one. -/
inductive Characters (plain : UInt8 → Prop) : Bytes → Bytes → ℕ → Prop where
  | nil : Characters plain [] [] 0
  | plain {c : UInt8} {t u : Bytes} {n : ℕ} (hc : plain c) (hq : c ≠ QUOTE) (hb : c ≠ BACKSLASH)
      (tail : Characters plain t u n) : Characters plain (c :: t) (c :: u) (1 + n)
  | escape {e byte : UInt8} {t u : Bytes} {n : ℕ} (he : (e, byte) ∈ standardEscapes)
      (tail : Characters plain t u n) : Characters plain (BACKSLASH :: e :: t) (byte :: u) (1 + n)
  | unicode {h t u : Bytes} {k n : ℕ} {c : Char} (hex : UnicodeEscape h c k)
      (tail : Characters plain t u n) :
      Characters plain (BACKSLASH :: 117 :: (h ++ t)) (String.utf8EncodeChar c ++ u) (1 + k + n)

def StringTail (fits : ℕ → Prop) (t buffer : Bytes) : Prop :=
  ∃ u n, t = u ++ [QUOTE] ∧ Characters (0x20 ≤ ·) u buffer n ∧ fits n

def Digits (t : Bytes) : Prop := t ≠ [] ∧ ∀ c ∈ t, isdigit c = true

def IntegerText (t : Bytes) : Prop :=
  ∃ sign digits, t = sign ++ digits ∧ (sign = [] ∨ sign = [45]) ∧ Digits digits ∧
    (digits.head? = some 48 → digits = [48])

def FractionText (t digits : Bytes) : Prop :=
  t = [] ∧ digits = [] ∨ t = 46 :: digits ∧ Digits digits

/-- An exponent that has reached 2000000 takes no more digits. -/
def clipped (digits : Bytes) : ℕ :=
  digits.foldl (fun n c => if n < 2000000 then n * 10 + (c.toNat - 48) else n) 0

def ExponentText (t : Bytes) (exp : ℤ) : Prop :=
  t = [] ∧ exp = 0 ∨
    ∃ mark sign digits, t = mark :: (sign ++ digits) ∧ (mark = 69 ∨ mark = 101) ∧ Digits digits ∧
      (sign = [45] ∧ exp = -(clipped digits : ℤ) ∨
        (sign = [] ∨ sign = [43]) ∧ exp = clipped digits)

def NumberText (t : Bytes) (n : JsonNumber) : Prop :=
  ∃ y z, t = n.integer ++ y ++ z ∧ IntegerText n.integer ∧ FractionText y n.fraction ∧
    ExponentText z n.exp ∧ t.length ≤ 1000000

inductive Scalar (fits : Length → ℕ → Prop) : Bytes → JsonValue → Prop where
  | string {t buffer : Bytes} (h : StringTail (fits .string) t buffer) :
      Scalar fits (QUOTE :: t) (.string buffer)
  | number {t : Bytes} {n : JsonNumber} (h : NumberText t n) : Scalar fits t (.number n)
  | true : Scalar fits (bytes "true") .true
  | false : Scalar fits (bytes "false") .false
  | null : Scalar fits (bytes "null") .null

inductive Member (fits : Length → ℕ → Prop) (R : Bytes → JsonValue → Prop) :
    Bytes → Bytes × JsonValue → Prop where
  | mk {t name w w' u : Bytes} {v : JsonValue} (hname : StringTail (fits .name) t name) (hw : Spaces w)
      (hw' : Spaces w') (hv : R u v) :
      Member fits R (QUOTE :: (t ++ (w ++ COLON :: (w' ++ u)))) (name, v)

inductive Items {α : Type} (fits : Length → ℕ → Prop) (R : Bytes → α → Prop) (close : UInt8) :
    Bytes → ℕ × List α → Prop where
  | none {w : Bytes} (hw : Spaces w) : Items fits R close (w ++ [close]) (0, [])
  | some {w t : Bytes} {as : List α} (hw : Spaces w) (h : SepBy R isspace COMMA t as)
      (hfits : fits .items as.length) : Items fits R close (w ++ (t ++ [close])) (as.length, as)

inductive Container (fits : Length → ℕ → Prop) (R : Bytes → JsonValue → Prop) :
    Bytes → JsonValue → Prop where
  | object {t : Bytes} {size : ℕ} {members : List (Bytes × JsonValue)}
      (h : Items fits (Member fits R) 125 t (size, members)) :
      Container fits R (123 :: t) (.object size members)
  | array {t : Bytes} {size : ℕ} {elements : List JsonValue}
      (h : Items fits R 93 t (size, elements)) : Container fits R (91 :: t) (.array size elements)

/-- A value with at most `room` containers inside each other. -/
def Value (fits : Length → ℕ → Prop) : ℕ → Bytes → JsonValue → Prop
  | 0, t, v => Scalar fits t v
  | room + 1, t, v => Scalar fits t v ∨ Container fits (Value fits room) t v

def Text (fits : Length → ℕ → Prop) (s : Bytes) (v : JsonValue) : Prop :=
  ∃ w t w', s = w ++ (t ++ w') ∧ Spaces w ∧ Value fits 1024 t v ∧ Spaces w'

end MyWorkflow.Json
