/-!
# Source positions

Every node of a tree carries the file and line it was made from. The empty file with line `0` is the
synthetic position, for code that stands in no file.
-/

namespace FrameLedger

structure Position where
  file : String
  line : Nat
deriving DecidableEq, Inhabited

namespace Position

def synthetic : Position := ⟨"", 0⟩

def isSynthetic (p : Position) : Bool := p.line == 0 && p.file.isEmpty

/-- The file without its leading directories. They end in `/`, or in the separator of the
platform. -/
def baseName (separator : Char) (p : Position) : String :=
  String.ofList (p.file.toList.reverse.takeWhile fun c => c != '/' && c != separator).reverse

def text (p : Position) : String := p.file ++ ":" ++ toString p.line

end Position

end FrameLedger
