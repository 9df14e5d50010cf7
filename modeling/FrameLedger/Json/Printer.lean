import FrameLedger.Json.Basic
import FrameLedger.Text.Hex

/-!
# Printing JSON

Each element stands on a line of its own, two blanks further in than what it belongs to.
-/

namespace FrameLedger

namespace Json

/-- Quotes, backslashes and control characters are escaped, nothing else is. -/
def escapeChar (c : Char) : List Char :=
  match c with
  | '"' => ['\\', '"']
  | '\\' => ['\\', '\\']
  | '\n' => ['\\', 'n']
  | '\r' => ['\\', 'r']
  | '\t' => ['\\', 't']
  | '\x08' => ['\\', 'b']
  | '\x0c' => ['\\', 'f']
  | c =>
    if c.toNat < 0x20
      then ['\\', 'u', '0', '0', Text.hexDigit (c.toNat / 16), Text.hexDigit (c.toNat % 16)]
    else [c]

def quote (s : String) : String := "\"" ++ String.ofList (s.toList.flatMap escapeChar) ++ "\""

def newline (level : Nat) : String := "\n".pushn ' ' (2 * level)

mutual

def print : Json → Nat → String
  | .null, _ => "null"
  | .bool b, _ => if b then "true" else "false"
  | .number text, _ => text
  | .string s, _ => quote s
  | .array [], _ => "[]"
  | .array (e :: es), level =>
    "[" ++ newline (level + 1) ++ e.print (level + 1) ++ printRest es level ++ newline level ++ "]"
  | .object [], _ => "\x7b\x7d"
  | .object ((k, e) :: fs), level =>
    "\x7b" ++ newline (level + 1) ++ quote k ++ ": " ++ e.print (level + 1) ++ printFields fs level
      ++ newline level ++ "\x7d"

/-- Elements after the first one. -/
def printRest : List Json → Nat → String
  | [], _ => ""
  | e :: es, level => "," ++ newline (level + 1) ++ e.print (level + 1) ++ printRest es level

/-- Fields after the first one. -/
def printFields : List (String × Json) → Nat → String
  | [], _ => ""
  | (k, e) :: fs, level =>
    "," ++ newline (level + 1) ++ quote k ++ ": " ++ e.print (level + 1) ++ printFields fs level

end

def pretty (j : Json) : String := j.print 0

end Json

end FrameLedger
