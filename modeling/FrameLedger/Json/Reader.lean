import FrameLedger.Json.Token

/-!
# Reading JSON

Values from tokens. A text may nest arrays and objects up to a fixed depth.
-/

namespace FrameLedger

namespace Json

/-- Texts nest arrays and objects at most so deep. -/
def maxDepth : Nat := 127

mutual

/-- The value at the start of the tokens, with `depth` levels left for nesting. -/
def readValue : Nat → Nat → List Token → Option (Json × List Token)
  | 0, _, _ => none
  | fuel + 1, depth, t :: ts =>
    match t, depth with
    | .null, _ => some (.null, ts)
    | .bool b, _ => some (.bool b, ts)
    | .number text, _ => some (.number text, ts)
    | .string s, _ => some (.string s, ts)
    | .openArray, depth + 1 =>
      match ts with
      | .closeArray :: ts => some (.array [], ts)
      | ts => readElements fuel depth [] ts
    | .openObject, depth + 1 =>
      match ts with
      | .closeObject :: ts => some (.object [], ts)
      | ts => readFields fuel depth [] ts
    | _, _ => none
  | _ + 1, _, [] => none

/-- The elements of an array up to its end; `acc` holds those so far, last first. -/
def readElements : Nat → Nat → List Json → List Token → Option (Json × List Token)
  | 0, _, _, _ => none
  | fuel + 1, depth, acc, ts =>
    match readValue fuel depth ts with
    | some (e, .comma :: ts) => readElements fuel depth (e :: acc) ts
    | some (e, .closeArray :: ts) => some (.array (e :: acc).reverse, ts)
    | _ => none

/-- The fields of an object up to its end; `acc` holds those so far, last first. -/
def readFields : Nat → Nat → List (String × Json) → List Token → Option (Json × List Token)
  | 0, _, _, _ => none
  | fuel + 1, depth, acc, .string k :: .colon :: ts =>
    match readValue fuel depth ts with
    | some (e, .comma :: ts) => readFields fuel depth ((k, e) :: acc) ts
    | some (e, .closeObject :: ts) => some (.object ((k, e) :: acc).reverse, ts)
    | _ => none
  | _ + 1, _, _, _ => none

end

/-- The value a text stands for. Two calls at most are made for each token. -/
def parse? (s : String) : Option Json := do
  let ts ← Token.readAll s.toList
  match readValue (2 * ts.length + 1) maxDepth ts with
  | some (j, []) => some j
  | _ => none

end Json

end FrameLedger
