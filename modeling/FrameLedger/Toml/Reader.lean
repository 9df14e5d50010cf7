import FrameLedger.Toml.Basic
import FrameLedger.Toml.Text

/-!
# Reading TOML

A document is a sequence of lines, each a pair, a header or nothing but a comment.
-/

namespace FrameLedger

namespace Toml

/-- Enters pairs into an empty table. -/
def ofPairs? (ps : List (List String × Toml)) : Option Toml := do
  let es ← ps.foldlM (fun es (path, v) => Entries.put v path es) []
  return .table (freezeEntries es)

mutual

/-- The value at the start of a text. -/
def value? : Nat → List Char → Option (Toml × List Char)
  | 0, _ => none
  | fuel + 1, cs =>
    match cs with
    | 't' :: 'r' :: 'u' :: 'e' :: cs => some (.bool true, cs)
    | 'f' :: 'a' :: 'l' :: 's' :: 'e' :: cs => some (.bool false, cs)
    | '"' :: '"' :: '"' :: cs =>
      (basicLines (cs.length + 1) (skipFirstBreak cs) []).map fun (s, cs) => (.string s, cs)
    | '"' :: cs => (basic (cs.length + 1) cs []).map fun (s, cs) => (.string s, cs)
    | '\x27' :: '\x27' :: '\x27' :: cs =>
      (literalLines (cs.length + 1) (skipFirstBreak cs) []).map fun (s, cs) => (.string s, cs)
    | '\x27' :: cs => (literal cs).map fun (s, cs) => (.string s, cs)
    | '[' :: cs => elements? fuel [] cs
    | '\x7b' :: cs =>
      match skipBlanks cs with
      | '\x7d' :: cs => some (.table [], cs)
      | cs => pairs? fuel [] cs
    | _ => none

/-- The elements of an array up to its end; `acc` holds those so far, last first. -/
def elements? : Nat → List Toml → List Char → Option (Toml × List Char)
  | 0, _, _ => none
  | fuel + 1, acc, cs => do
    match ← skipGaps (cs.length + 1) cs with
    | ']' :: cs => return (.array acc.reverse, cs)
    | cs =>
      let (v, cs) ← value? fuel cs
      match ← skipGaps (cs.length + 1) cs with
      | ',' :: cs => elements? fuel (v :: acc) cs
      | ']' :: cs => return (.array (v :: acc).reverse, cs)
      | _ => none

/-- The pairs of a table in braces up to its end; `acc` holds those so far, last first. -/
def pairs? : Nat → List (List String × Toml) → List Char → Option (Toml × List Char)
  | 0, _, _ => none
  | fuel + 1, acc, cs => do
    let (path, v, cs) ← pair? fuel (skipBlanks cs)
    match skipBlanks cs with
    | ',' :: cs => pairs? fuel ((path, v) :: acc) cs
    | '\x7d' :: cs => return (← ofPairs? ((path, v) :: acc).reverse, cs)
    | _ => none

/-- A key, an equals sign and a value. -/
def pair? : Nat → List Char → Option (List String × Toml × List Char)
  | 0, _ => none
  | fuel + 1, cs => do
    let (path, cs) ← path? (cs.length + 1) cs
    match cs with
    | '=' :: cs =>
      let (v, cs) ← value? fuel (skipBlanks cs)
      return (path, v, cs)
    | _ => none

end

/-- The line at the start of a text, unless it is blank, and the text behind it. -/
def line? (cs : List Char) : Option (Option Line × List Char) :=
  match skipBlanks cs with
  | '[' :: '[' :: cs => do
    let (path, cs) ← path? (cs.length + 1) (skipBlanks cs)
    match cs with
    | ']' :: ']' :: cs => return (some (.element path), ← lineEnd? cs)
    | _ => none
  | '[' :: cs => do
    let (path, cs) ← path? (cs.length + 1) (skipBlanks cs)
    match cs with
    | ']' :: cs => return (some (.table path), ← lineEnd? cs)
    | _ => none
  | cs =>
    match lineEnd? cs with
    | some cs => some (none, cs)
    | none => do
      let (path, v, cs) ← pair? (2 * cs.length + 1) cs
      return (some (.pair path v), ← lineEnd? cs)

/-- The lines of a text behind those already found, which are last first. -/
def lines? : Nat → List Char → List Line → Option (List Line)
  | _, [], acc => some acc.reverse
  | 0, _, _ => none
  | fuel + 1, cs, acc => do
    let (line, cs) ← line? cs
    lines? fuel cs (line.toList ++ acc)

/-- The table a text stands for. A byte order mark in front does not count. -/
def parse? (s : String) : Option Toml := do
  let cs :=
    match s.toList with
    | '\uFEFF' :: cs => cs
    | cs => cs
  ofLines? (← lines? (cs.length + 1) cs [])

end Toml

end FrameLedger
