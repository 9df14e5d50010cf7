import FrameLedger.SortedMap

/-!
# Build properties

What one permutation of a build is told: selection properties have a value, configuration properties
a list of values.
-/

namespace FrameLedger

def stackModeProperty : String := "compiler.stackMode"

def recordFileNamesProperty : String := "compiler.emulatedStack.recordFileNames"

def recordLineNumbersProperty : String := "compiler.emulatedStack.recordLineNumbers"

structure Properties where
  selection : SortedMap String String
  configuration : SortedMap String (List String)
deriving DecidableEq, Inhabited

end FrameLedger
