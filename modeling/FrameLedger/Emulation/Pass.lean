import FrameLedger.Emulation.Frames
import FrameLedger.Emulation.Mode
import FrameLedger.Emulation.Reserved

/-!
# The emulation pass

Makes a program keep its own stack: its variables are declared in front of everything, references to
the reserved names are redirected to them, and every function gets a frame, except those without a
body and the immortal ones, which may run before the stack exists.
-/

namespace FrameLedger

inductive LogLevel where
  | info
  | debug
  | warn
deriving DecidableEq, Inhabited

def LogLevel.text : LogLevel → String
  | .info => "INFO"
  | .debug => "DEBUG"
  | .warn => "WARN"

/-- What the pass reports. The name of a function that is reported may be dangling. -/
inductive Notice where
  | modeResolved (mode : StackMode)
  | flagMissing (property : String)
  | wrapMissing
  | skipped (name : Except Dangling String)
  | instrumented (name : Except Dangling String) (stats : Stats)
  | finished (stats : Stats)

namespace Notice

def level : Notice → LogLevel
  | .modeResolved _ | .wrapMissing | .finished _ => .info
  | .skipped _ | .instrumented .. => .debug
  | .flagMissing _ => .warn

def message : Notice → Except Dangling String
  | .modeResolved mode => return "stack mode resolved to " ++ mode.text
  | .flagMissing property =>
    return "configuration property " ++ property ++ " is not defined; assuming false"
  | .wrapMissing => return "no " ++ wrapKey ++ " function indexed; stack emulation skipped"
  | .skipped name => return "skipping immortal function " ++ (← name)
  | .instrumented name s =>
    return "instrumented function " ++ (← name) ++ s!": {s.pops} pops, {s.locations} locations"
  | .finished s =>
    return s!"stack emulation: {s.instrumented} functions instrumented, {s.skipped} skipped, "
      ++ s!"{s.pops} pops, {s.locations} locations"

def line (n : Notice) : Except Dangling String := return n.level.text ++ " " ++ (← n.message)

end Notice

def Properties.notices (p : Properties) : List Notice := p.missingFlags.map .flagMissing

/-- What the pass has done so far. -/
structure Ledger where
  table : ScopeTable
  stats : Stats
  log : List Notice

/-- Gives one function its frame unless it is to be skipped. -/
def Program.frameFunc (p : Program) (v : StackVars) (wrap : SymbolId) (recorder : Option Recorder)
    (f : Func) :
    StateM Ledger Func := do
  let skip (log : List Notice) : StateM Ledger Func := do
    modify fun l => { l with stats := l.stats + { skipped := 1 }, log := l.log ++ log }
    return f
  if f.body.isEmpty then skip []
  else
    match f.name.filter p.immortal.contains with
    | some s => skip [.skipped ((← get).table.ident s)]
    | none =>
      let l ← get
      let (f, stats, t) := f.framed v wrap recorder l.table
      let name := f.name.elim (.ok "<anonymous>") t.ident
      set { table := t, stats := l.stats + stats,
            log := l.log ++ [.instrumented name stats] : Ledger }
      return f

structure Outcome where
  mode : StackMode
  /-- The variables of the stack, if the program got one. -/
  vars : Option StackVars
  stats : Stats
  log : List Notice

namespace Program

/-- Makes a program with an exception wrapper keep its own stack. -/
def emulate (p : Program) (r : Recording) : Outcome × Program :=
  match p.wrap? with
  | none => (⟨.emulated, none, {}, [.wrapMissing]⟩, p)
  | some wrap =>
    let (v, t) := StackVars.allocate (r.hasLines || p.references .location) p.table
    let p := { p with table := t, code := v.declareIn p.code }
    let (p, substituted) := p.substitute v
    let recorder := if r.hasLines then v.location.map ({ location := ·, files := r.hasFiles })
      else none
    let (code, l) :=
      (p.code.mapFuncs (p.frameFunc v wrap recorder)).run ⟨p.table, { substituted }, []⟩
    (⟨.emulated, some v, l.stats, l.log ++ [.finished l.stats]⟩, { p with table := l.table, code })

/-- Emulates the stack if that is the mode of all permutations. -/
def emulateFor (p : Program) (ps : List Properties) : Except ModeError (Outcome × Program) := do
  let mode ← StackMode.resolve ps
  match mode, ps with
  | .emulated, first :: _ =>
    let (o, p) := p.emulate first.recording
    return ({ o with log := .modeResolved mode :: first.notices ++ o.log }, p)
  | _, _ => return (⟨mode, none, {}, [.modeResolved mode]⟩, p)

end Program

end FrameLedger
