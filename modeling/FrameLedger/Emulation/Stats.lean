/-!
# Counts

What a pass over a program inserted, and how many functions it left alone.
-/

namespace FrameLedger

structure Stats where
  instrumented : Nat := 0
  /-- Functions without a body, and immortal ones. -/
  skipped : Nat := 0
  pops : Nat := 0
  syntheticCatches : Nat := 0
  earlyExitFlags : Nat := 0
  resets : Nat := 0
  locations : Nat := 0
  substituted : Nat := 0
deriving DecidableEq, Inhabited

namespace Stats

def insertions (s : Stats) : Nat := s.pops + s.syntheticCatches + s.resets + s.locations

instance : Add Stats where
  add a b := {
    instrumented := a.instrumented + b.instrumented
    skipped := a.skipped + b.skipped
    pops := a.pops + b.pops
    syntheticCatches := a.syntheticCatches + b.syntheticCatches
    earlyExitFlags := a.earlyExitFlags + b.earlyExitFlags
    resets := a.resets + b.resets
    locations := a.locations + b.locations
    substituted := a.substituted + b.substituted }

end Stats

end FrameLedger
