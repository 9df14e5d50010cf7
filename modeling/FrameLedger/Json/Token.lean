import FrameLedger.Json.Basic
import FrameLedger.Text.Hex

/-!
# JSON tokens

A text is cut into tokens first. Numbers follow the grammar strictly, and one that overflows is no
token; strings hold neither raw control characters nor halves of surrogate pairs.
-/

namespace FrameLedger

namespace Json

inductive Token where
  | openArray
  | closeArray
  | openObject
  | closeObject
  | comma
  | colon
  | null
  | bool (b : Bool)
  | number (text : String)
  | string (s : String)
deriving DecidableEq, Inhabited

namespace Token

/-- The code unit of four hexadecimal digits. -/
def unit? (a b c d : Char) : Option Nat := Text.hexNumber? [a, b, c, d]

def isHighUnit (n : Nat) : Bool := 0xD800 ≤ n && n < 0xDC00

def isLowUnit (n : Nat) : Bool := 0xDC00 ≤ n && n < 0xE000

def escape? : Char → Option Char
  | '"' => some '"'
  | '\\' => some '\\'
  | '/' => some '/'
  | 'b' => some '\x08'
  | 'f' => some '\x0c'
  | 'n' => some '\n'
  | 'r' => some '\r'
  | 't' => some '\t'
  | _ => none

/-- The rest of a string behind its opening quote; `acc` holds the characters so far, last first. -/
def readString : List Char → List Char → Option (String × List Char)
  | '"' :: cs, acc => some (String.ofList acc.reverse, cs)
  | '\\' :: 'u' :: a :: b :: c :: d :: cs, acc =>
    match unit? a b c d with
    | none => none
    | some n =>
      if isHighUnit n then
        match cs with
        | '\\' :: 'u' :: a :: b :: c :: d :: cs =>
          match unit? a b c d with
          | some m =>
            if isLowUnit m then
              readString cs (Char.ofNat (0x10000 + (n - 0xD800) * 0x400 + (m - 0xDC00)) :: acc)
            else none
          | none => none
        | _ => none
      else if isLowUnit n then none
      else readString cs (Char.ofNat n :: acc)
  | '\\' :: c :: cs, acc =>
    match escape? c with
    | some x => readString cs (x :: acc)
    | none => none
  | c :: cs, acc => if c.toNat < 0x20 || c = '\\' then none else readString cs (c :: acc)
  | [], _ => none

/-- Digits without a leading zero. -/
def readWhole : List Char → Option (List Char × List Char)
  | '0' :: cs => some (['0'], cs)
  | cs =>
    let (ds, rest) := Digits.split cs
    if ds.isEmpty then none else some (ds, rest)

/-- A point and digits, or nothing. -/
def readFraction : List Char → Option (List Char × List Char)
  | '.' :: cs =>
    let (ds, rest) := Digits.split cs
    if ds.isEmpty then none else some ('.' :: ds, rest)
  | cs => some ([], cs)

/-- The mark of an exponent, an optional sign and digits, or nothing. -/
def readExponent : List Char → Option (List Char × List Char)
  | c :: cs =>
    if c = 'e' || c = 'E' then
      let (sign, cs) :=
        match cs with
        | '+' :: cs => (['+'], cs)
        | '-' :: cs => (['-'], cs)
        | cs => ([], cs)
      let (ds, rest) := Digits.split cs
      if ds.isEmpty then none else some (c :: sign ++ ds, rest)
    else some ([], c :: cs)
  | [] => some ([], [])

def readNumber (cs : List Char) : Option (String × List Char) := do
  let (sign, cs) :=
    match cs with
    | '-' :: cs => (['-'], cs)
    | cs => ([], cs)
  let (whole, cs) ← readWhole cs
  let (fraction, cs) ← readFraction cs
  let (exponent, cs) ← readExponent cs
  let text := String.ofList (sign ++ whole ++ fraction ++ exponent)
  let x ← numberToFloat? text
  if x.isInf then none else some (text, cs)

def isBlank (c : Char) : Bool := c == ' ' || c == '\t' || c == '\n' || c == '\r'

/-- The token at the start of a text. -/
def read : List Char → Option (Token × List Char)
  | '[' :: cs => some (.openArray, cs)
  | ']' :: cs => some (.closeArray, cs)
  | '\x7b' :: cs => some (.openObject, cs)
  | '\x7d' :: cs => some (.closeObject, cs)
  | ',' :: cs => some (.comma, cs)
  | ':' :: cs => some (.colon, cs)
  | '"' :: cs => (readString cs []).map fun (s, rest) => (.string s, rest)
  | 'n' :: 'u' :: 'l' :: 'l' :: cs => some (.null, cs)
  | 't' :: 'r' :: 'u' :: 'e' :: cs => some (.bool true, cs)
  | 'f' :: 'a' :: 'l' :: 's' :: 'e' :: cs => some (.bool false, cs)
  | cs => (readNumber cs).map fun (s, rest) => (.number s, rest)

/-- The tokens of a text behind those already found, which are last first. -/
def readAllWithin : Nat → List Char → List Token → Option (List Token)
  | 0, _, _ => none
  | _ + 1, [], acc => some acc.reverse
  | fuel + 1, c :: cs, acc =>
    if isBlank c then readAllWithin fuel cs acc
    else
      match read (c :: cs) with
      | some (t, rest) => readAllWithin fuel rest (t :: acc)
      | none => none

/-- Each token takes a character at least. -/
def readAll (cs : List Char) : Option (List Token) := readAllWithin (cs.length + 1) cs []

end Token

end Json

end FrameLedger
