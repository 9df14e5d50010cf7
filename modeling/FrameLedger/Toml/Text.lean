import FrameLedger.Text.Hex

/-!
# Texts in TOML

Blanks, comments, and the four kinds of strings: basic strings have escapes and literal ones have
none, and either may go over several lines between three quotes.
-/

namespace FrameLedger

namespace Toml

def isBlank (c : Char) : Bool := c == ' ' || c == '\t'

/-- Characters that may stand in comments and strings as they are. -/
def isPlain (c : Char) : Bool := c == '\t' || (0x20 ≤ c.toNat && c.toNat != 0x7F)

def skipBlanks (cs : List Char) : List Char := cs.dropWhile isBlank

def newline? : List Char → Option (List Char)
  | '\n' :: cs => some cs
  | '\r' :: '\n' :: cs => some cs
  | _ => none

/-- Blanks and line breaks. -/
def skipSpace : List Char → List Char
  | '\r' :: '\n' :: cs => skipSpace cs
  | c :: cs => if isBlank c || c == '\n' then skipSpace cs else c :: cs
  | [] => []

/-- The rest of a line that holds nothing more than a comment. -/
def lineEnd? (cs : List Char) : Option (List Char) :=
  let cs :=
    match skipBlanks cs with
    | '#' :: cs => cs.dropWhile isPlain
    | cs => cs
  match cs with
  | [] => some []
  | cs => newline? cs

/-- Blanks, line breaks and comments between the elements of an array. -/
def skipGaps : Nat → List Char → Option (List Char)
  | 0, _ => none
  | fuel + 1, cs =>
    match skipBlanks cs with
    | '#' :: cs => (newline? (cs.dropWhile isPlain)).bind (skipGaps fuel)
    | cs =>
      match newline? cs with
      | some cs => skipGaps fuel cs
      | none => some cs

/-- The character of a number, which must not be a surrogate. -/
def scalar? (digits : List Char) : Option Char := do
  let n ← Text.hexNumber? digits
  if n.isValidChar then some (Char.ofNat n) else none

/-- What stands behind a backslash. -/
def escape? : List Char → Option (Char × List Char)
  | 'b' :: cs => some ('\x08', cs)
  | 't' :: cs => some ('\t', cs)
  | 'n' :: cs => some ('\n', cs)
  | 'f' :: cs => some ('\x0c', cs)
  | 'r' :: cs => some ('\r', cs)
  | '"' :: cs => some ('"', cs)
  | '\\' :: cs => some ('\\', cs)
  | 'u' :: cs => if cs.length < 4 then none else (scalar? (cs.take 4)).map (·, cs.drop 4)
  | 'U' :: cs => if cs.length < 8 then none else (scalar? (cs.take 8)).map (·, cs.drop 8)
  | _ => none

def finish (acc : List Char) (cs : List Char) : Option (String × List Char) :=
  some (String.ofList acc.reverse, cs)

/-- The rest of a basic string; `acc` holds the characters so far, last first. -/
def basic : Nat → List Char → List Char → Option (String × List Char)
  | 0, _, _ => none
  | fuel + 1, cs, acc =>
    match cs with
    | '"' :: cs => finish acc cs
    | '\\' :: cs =>
      match escape? cs with
      | some (c, cs) => basic fuel cs (c :: acc)
      | none => none
    | c :: cs => if isPlain c then basic fuel cs (c :: acc) else none
    | [] => none

/-- The rest of a basic string over several lines. Up to two quotes may stand before those that end
it, and a backslash at the end of a line skips the space up to the next text. -/
def basicLines : Nat → List Char → List Char → Option (String × List Char)
  | 0, _, _ => none
  | fuel + 1, cs, acc =>
    match cs with
    | '"' :: '"' :: '"' :: '"' :: '"' :: cs => finish ('"' :: '"' :: acc) cs
    | '"' :: '"' :: '"' :: '"' :: cs => finish ('"' :: acc) cs
    | '"' :: '"' :: '"' :: cs => finish acc cs
    | '\\' :: cs =>
      match newline? (skipBlanks cs) with
      | some cs => basicLines fuel (skipSpace cs) acc
      | none =>
        match escape? cs with
        | some (c, cs) => basicLines fuel cs (c :: acc)
        | none => none
    | c :: cs =>
      match newline? (c :: cs) with
      | some cs => basicLines fuel cs ('\n' :: acc)
      | none => if isPlain c then basicLines fuel cs (c :: acc) else none
    | [] => none

/-- The rest of a literal string. -/
def literal (cs : List Char) : Option (String × List Char) :=
  let inside (c : Char) : Bool := isPlain c && c != '\x27'
  match cs.dropWhile inside with
  | '\x27' :: rest => some (String.ofList (cs.takeWhile inside), rest)
  | _ => none

/-- The rest of a literal string over several lines. -/
def literalLines : Nat → List Char → List Char → Option (String × List Char)
  | 0, _, _ => none
  | fuel + 1, cs, acc =>
    match cs with
    | '\x27' :: '\x27' :: '\x27' :: '\x27' :: '\x27' :: cs => finish ('\x27' :: '\x27' :: acc) cs
    | '\x27' :: '\x27' :: '\x27' :: '\x27' :: cs => finish ('\x27' :: acc) cs
    | '\x27' :: '\x27' :: '\x27' :: cs => finish acc cs
    | c :: cs =>
      match newline? (c :: cs) with
      | some cs => literalLines fuel cs ('\n' :: acc)
      | none => if isPlain c then literalLines fuel cs (c :: acc) else none
    | [] => none

/-- A line break right behind the opening quotes does not count. -/
def skipFirstBreak (cs : List Char) : List Char := (newline? cs).getD cs

def isBareKeyChar (c : Char) : Bool := c.isAlphanum || c == '-' || c == '_'

def key? (cs : List Char) : Option (String × List Char) :=
  match cs with
  | '"' :: cs => basic (cs.length + 1) cs []
  | '\x27' :: cs => literal cs
  | cs =>
    let name := cs.takeWhile isBareKeyChar
    if name.isEmpty then none else some (String.ofList name, cs.dropWhile isBareKeyChar)

/-- Keys with dots between them, and the blanks behind. -/
def path? : Nat → List Char → Option (List String × List Char)
  | 0, _ => none
  | fuel + 1, cs => do
    let (k, cs) ← key? cs
    match skipBlanks cs with
    | '.' :: cs =>
      let (ks, cs) ← path? fuel (skipBlanks cs)
      return (k :: ks, cs)
    | cs => return ([k], cs)

end Toml

end FrameLedger
