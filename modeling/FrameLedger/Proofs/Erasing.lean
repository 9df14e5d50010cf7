import FrameLedger.Proofs.Framing

/-!
# Taking the frames out again

`Func.unframed` takes out of a function what keeps its frame, told by the symbols it uses, and reads
a `return` as what it was before. Nothing else is touched, and nested functions are not looked into.
`Func.tidied` forgets what cannot be told any more: whether a single statement had braces, and a
leading `var` statement that declares nothing.

`Program.withoutStack` does so to all functions that may have a frame. Global code loses the
declarators of the stack and is otherwise left alone.
-/

namespace FrameLedger

instance (v : StackVars) (s : SymbolId) : Decidable (v.Uses s) :=
  inferInstanceAs (Decidable (s = v.stack ∨ s = v.depth ∨ v.location = some s))

/-- Takes declarators out of a leading `var` statement. -/
def undeclare (new : SymbolId → Bool) : List Stmt → List Stmt
  | .vars p ds :: ss => .vars p (ds.filter fun d => !new d.name) :: ss
  | ss => ss

/-- Leaves out a leading `var` statement that declares nothing. -/
def dropEmptyVars : List Stmt → List Stmt
  | .vars _ [] :: ss => ss
  | ss => ss

section

variable (v : StackVars) (new : SymbolId → Bool)

namespace Expr

/-- `$es_location[$es_stackIndex] = …` -/
def isNote : Expr → Bool
  | .binary _ .assign (.index _ (.var _ l) (.var _ i)) _ => v.location == some l && new i
  | _ => false

/-- `$es_stack[$es_stackIndex = ++$es_stackDepth] = …` -/
def isPush : Expr → Bool
  | .binary _ .assign
      (.index _ (.var _ s) (.binary _ .assign (.var _ i) (.prefixed _ .inc (.var _ d)))) _ =>
    s == v.stack && new i && d == v.depth
  | _ => false

/-- `$es_stackDepth = $es_stackIndex - 1` -/
def isPop : Expr → Bool
  | .binary _ .assign (.var _ d) (.binary _ (.eager (.arith .sub)) (.var _ i) (.literal _ l)) =>
    d == v.depth && new i && l == .number 1
  | _ => false

/-- `$es_stackDepth = $es_stackIndex` -/
def isReset : Expr → Bool
  | .binary _ .assign (.var _ d) (.var _ i) => d == v.depth && new i
  | _ => false

/-- `$es_exitingEarly && ($es_stackDepth = $es_stackIndex - 1)` -/
def isGuardedPop : Expr → Bool
  | .binary _ .and (.var _ f) e => new f && e.isPop v new
  | _ => false

/-- `$es_exitingEarly = true` -/
def isExiting : Expr → Bool
  | .binary _ .assign (.var _ f) (.literal _ l) => new f && l == .bool true
  | _ => false

end Expr

mutual

/-- An expression without the notes of locations in it. -/
def Expr.unnoted : Expr → Expr
  | .var p s => .var p s
  | .bare p n => .bare p n
  | .member p q n => .member p q.unnoted n
  | .index p a i => .index p a.unnoted i.unnoted
  | .call p f as => .call p f.unnoted (exprsUnnoted as)
  | .new p f as => .new p f.unnoted (exprsUnnoted as)
  | .prefixed p op x => .prefixed p op x.unnoted
  | .postfixed p op x => .postfixed p op x.unnoted
  | .binary p op l r => if op == .comma && l.isNote v new then r.unnoted
      else .binary p op l.unnoted r.unnoted
  | .cond p c t e => .cond p c.unnoted t.unnoted e.unnoted
  | .literal p l => .literal p l
  | .array p es => .array p (exprsUnnoted es)
  | .object p ps => .object p (propertiesUnnoted ps)
  | .func p f => .func p f

def exprsUnnoted : List Expr → List Expr
  | [] => []
  | e :: es => e.unnoted :: exprsUnnoted es

def propertiesUnnoted : List Property → List Property
  | [] => []
  | ⟨k, e⟩ :: ps => ⟨k, e.unnoted⟩ :: propertiesUnnoted ps

end

def declsUnnoted (ds : List VarDecl) : List VarDecl :=
  ds.map fun d => { d with init := d.init.map (Expr.unnoted v new) }

def forInitUnnoted : Option ForInit → Option ForInit
  | none => none
  | some (.vars ds) => some (.vars (declsUnnoted v new ds))
  | some (.expr e) => some (.expr (e.unnoted v new))

/-- What was returned: a variable of the frame stands for what was put aside in it, and a flag that
is set first does not count. -/
def Expr.returned (aside : Option Expr) : Expr → Option Expr
  | .var p s => if new s then aside else some (.var p s)
  | .binary p .comma l r =>
    if l.isExiting new then some (r.unnoted v new)
      else some (Expr.unnoted v new (.binary p .comma l r))
  | e => some (e.unnoted v new)

namespace Stmt

/-- A push, a pop, guarded or not, or a reset of the depth. -/
def isUpkeep : Stmt → Bool
  | .expr _ e => e.isPush v new || e.isPop v new || e.isReset v new || e.isGuardedPop v new
  | _ => false

/-- What a statement puts aside in a variable of the frame. -/
def aside? : Stmt → Option Expr
  | .expr _ (.binary _ .assign (.var _ s) e) => if new s then some e else none
  | _ => none

end Stmt

mutual

/-- A statement before it became part of a framed body. What was put aside in front of it is
given. -/
def Stmt.unframed : Option Expr → Stmt → Stmt
  | _, .expr p e => .expr p (e.unnoted v new)
  | _, .vars p ds => .vars p (declsUnnoted v new ds)
  | aside, .ret p e => .ret p (e.bind (Expr.returned v new aside))
  | _, .raise p e => .raise p (e.unnoted v new)
  | _, .branch p t yes no => .branch p (t.unnoted v new) (yes.unframed none) (stmtUnframed? no)
  | _, .whileLoop p t b => .whileLoop p (t.unnoted v new) (b.unframed none)
  | _, .doWhile p b t => .doWhile p (b.unframed none) (t.unnoted v new)
  | _, .forLoop p init t incr b =>
    .forLoop p (forInitUnnoted v new init) (t.map (Expr.unnoted v new))
      (incr.map (Expr.unnoted v new)) (b.unframed none)
  | _, .forIn p k declared o b => .forIn p k declared (o.unnoted v new) (b.unframed none)
  | _, .block p ⟨ss, q⟩ => .block p ⟨stmtsUnframed none ss, q⟩
  | _, .tryBlock p ⟨ss, q⟩ cs none =>
    .tryBlock p ⟨stmtsUnframed none ss, q⟩ (catchesUnframed cs) none
  | _, .tryBlock p ⟨ss, q⟩ cs (some ⟨fs, fq⟩) =>
    .tryBlock p ⟨stmtsUnframed none ss, q⟩ (catchesUnframed cs) (some ⟨stmtsUnframed none fs, fq⟩)
  | _, .labeled p l b => .labeled p l (b.unframed none)
  | _, .breakTo p l => .breakTo p l
  | _, .continueTo p l => .continueTo p l
  | _, .switch p d cs => .switch p (d.unnoted v new) (casesUnframed cs)
  | _, .empty p => .empty p

def stmtsUnframed : Option Expr → List Stmt → List Stmt
  | _, [] => []
  | aside, s :: ss =>
    if s.isUpkeep v new then stmtsUnframed aside ss
    else
      match s.aside? new with
      | some e => stmtsUnframed (some (e.unnoted v new)) ss
      | none => s.unframed aside :: stmtsUnframed none ss

def stmtUnframed? : Option Stmt → Option Stmt
  | none => none
  | some s => some (s.unframed none)

/-- A clause whose parameter is new was added. -/
def catchesUnframed : List Catch → List Catch
  | [] => []
  | ⟨s, sc, ⟨ss, q⟩, p⟩ :: cs =>
    if new s then catchesUnframed cs
    else ⟨s, sc, ⟨stmtsUnframed none ss, q⟩, p⟩ :: catchesUnframed cs

def casesUnframed : List SwitchCase → List SwitchCase
  | [] => []
  | ⟨t, ss⟩ :: cs => ⟨t.map (Expr.unnoted v new), stmtsUnframed none ss⟩ :: casesUnframed cs

end

/-- A function without its frame. -/
def Func.unframed (f : Func) : Func :=
  { f with body := { f.body with stmts := undeclare new (stmtsUnframed v new none f.body.stmts) } }

end

/-- The statement inside braces, if it is the only one. -/
def Stmt.unbraced : Stmt → Stmt
  | .block _ ⟨[s], _⟩ => s
  | s => s

mutual

/-- A statement in which single statements have no braces where they may go without. -/
def Stmt.tidied : Stmt → Stmt
  | .branch p t yes no => .branch p t yes.tidied.unbraced (stmtTidied? no)
  | .whileLoop p t b => .whileLoop p t b.tidied.unbraced
  | .doWhile p b t => .doWhile p b.tidied.unbraced t
  | .forLoop p init t incr b => .forLoop p init t incr b.tidied.unbraced
  | .forIn p k declared o b => .forIn p k declared o b.tidied.unbraced
  | .block p ⟨ss, q⟩ => .block p ⟨stmtsTidied ss, q⟩
  | .tryBlock p ⟨ss, q⟩ cs none => .tryBlock p ⟨stmtsTidied ss, q⟩ (catchesTidied cs) none
  | .tryBlock p ⟨ss, q⟩ cs (some ⟨fs, fq⟩) =>
    .tryBlock p ⟨stmtsTidied ss, q⟩ (catchesTidied cs) (some ⟨stmtsTidied fs, fq⟩)
  | .labeled p l b => .labeled p l b.tidied.unbraced
  | .switch p d cs => .switch p d (casesTidied cs)
  | .expr p e => .expr p e
  | .vars p ds => .vars p ds
  | .ret p e => .ret p e
  | .raise p e => .raise p e
  | .breakTo p l => .breakTo p l
  | .continueTo p l => .continueTo p l
  | .empty p => .empty p

def stmtsTidied : List Stmt → List Stmt
  | [] => []
  | s :: ss => s.tidied :: stmtsTidied ss

def stmtTidied? : Option Stmt → Option Stmt
  | none => none
  | some s => some s.tidied.unbraced

def catchesTidied : List Catch → List Catch
  | [] => []
  | ⟨s, sc, ⟨ss, q⟩, p⟩ :: cs => ⟨s, sc, ⟨stmtsTidied ss, q⟩, p⟩ :: catchesTidied cs

def casesTidied : List SwitchCase → List SwitchCase
  | [] => []
  | ⟨t, ss⟩ :: cs => ⟨t, stmtsTidied ss⟩ :: casesTidied cs

end

def Func.tidied (f : Func) : Func :=
  { f with body := { f.body with stmts := dropEmptyVars (stmtsTidied f.body.stmts) } }

namespace Program

variable (p : Program)

/-- Functions that get no frame. -/
def passesOver (f : Func) : Bool := f.body.isEmpty || p.isImmortal f

/-- Neither a symbol of the program nor one that holds the stack. -/
def isAdded (v : StackVars) (s : SymbolId) : Bool :=
  p.table.symbols.size ≤ s.index && !decide (v.Uses s)

/-- A function as it was before it got a frame. -/
def restored (v : StackVars) (f : Func) : Func :=
  if p.passesOver f then f else (f.unframed v (p.isAdded v)).tidied

def tidiedFunc (f : Func) : Func := if p.passesOver f then f else f.tidied

def tidied (b : Block) : Block :=
  let b := b.mapFuncs (m := Id) p.tidiedFunc
  { b with stmts := dropEmptyVars b.stmts }

end Program

/-! ## Erasing where nothing is new -/

section Identity

variable (v : StackVars)

theorem Expr.isNote_nothing (e : Expr) : e.isNote v (fun _ => false) = false := by
  unfold Expr.isNote
  split <;> simp

mutual

theorem Expr.unnoted_nothing : ∀ e : Expr, e.unnoted v (fun _ => false) = e
  | .var .. | .bare .. | .literal .. | .func .. => rfl
  | .member p q n => by rw [Expr.unnoted, q.unnoted_nothing]
  | .index p a i => by rw [Expr.unnoted, a.unnoted_nothing, i.unnoted_nothing]
  | .call p f as => by rw [Expr.unnoted, f.unnoted_nothing, exprsUnnoted_nothing as]
  | .new p f as => by rw [Expr.unnoted, f.unnoted_nothing, exprsUnnoted_nothing as]
  | .prefixed p op x => by rw [Expr.unnoted, x.unnoted_nothing]
  | .postfixed p op x => by rw [Expr.unnoted, x.unnoted_nothing]
  | .binary p op l r => by
    rw [Expr.unnoted, l.isNote_nothing, Bool.and_false, l.unnoted_nothing, r.unnoted_nothing]
    rfl
  | .cond p c t e => by rw [Expr.unnoted, c.unnoted_nothing, t.unnoted_nothing, e.unnoted_nothing]
  | .array p es => by rw [Expr.unnoted, exprsUnnoted_nothing es]
  | .object p ps => by rw [Expr.unnoted, propertiesUnnoted_nothing ps]

theorem exprsUnnoted_nothing : ∀ es : List Expr, exprsUnnoted v (fun _ => false) es = es
  | [] => rfl
  | e :: es => by rw [exprsUnnoted, e.unnoted_nothing, exprsUnnoted_nothing es]

theorem propertiesUnnoted_nothing :
    ∀ ps : List Property, propertiesUnnoted v (fun _ => false) ps = ps
  | [] => rfl
  | ⟨k, e⟩ :: ps => by rw [propertiesUnnoted, e.unnoted_nothing, propertiesUnnoted_nothing ps]

end

theorem exprUnnoted?_nothing (e : Option Expr) : e.map (Expr.unnoted v fun _ => false) = e := by
  cases e with
  | none => rfl
  | some e => rw [Option.map_some, e.unnoted_nothing]

theorem declsUnnoted_nothing (ds : List VarDecl) : declsUnnoted v (fun _ => false) ds = ds := by
  simp only [declsUnnoted, exprUnnoted?_nothing]
  exact (List.map_congr_left fun d _ => by cases d; rfl).trans (List.map_id ds)

theorem forInitUnnoted_nothing (i : Option ForInit) : forInitUnnoted v (fun _ => false) i = i := by
  rcases i with _ | ds | e
  · rfl
  · rw [forInitUnnoted, declsUnnoted_nothing]
  · rw [forInitUnnoted, e.unnoted_nothing]

theorem Expr.returned_nothing (aside : Option Expr) (e : Expr) :
    e.returned v (fun _ => false) aside = some e := by
  unfold Expr.returned
  split
  · rfl
  · next p l r =>
    have hl : l.isExiting (fun _ => false) = false := by
      unfold Expr.isExiting
      split <;> rfl
    rw [hl, Expr.unnoted_nothing v (.binary p .comma l r)]
    rfl
  · rw [Expr.unnoted_nothing]

theorem Stmt.isUpkeep_nothing (s : Stmt) : s.isUpkeep v (fun _ => false) = false := by
  unfold Stmt.isUpkeep
  split
  · next p e =>
    have h₁ : e.isPush v (fun _ => false) = false := by
      unfold Expr.isPush
      split <;> simp
    have h₂ (e : Expr) : e.isPop v (fun _ => false) = false := by
      unfold Expr.isPop
      split <;> simp
    have h₃ : e.isReset v (fun _ => false) = false := by
      unfold Expr.isReset
      split <;> simp
    have h₄ : e.isGuardedPop v (fun _ => false) = false := by
      unfold Expr.isGuardedPop
      split <;> rfl
    rw [h₁, h₂, h₃, h₄]
    rfl
  · rfl

theorem Stmt.aside?_nothing (s : Stmt) : s.aside? (fun _ => false) = none := by
  unfold Stmt.aside?
  split <;> rfl

mutual

theorem Stmt.unframed_nothing :
    ∀ (s : Stmt) (aside : Option Expr), s.unframed v (fun _ => false) aside = s
  | .expr p e, _ => by rw [Stmt.unframed, e.unnoted_nothing]
  | .vars p ds, _ => by rw [Stmt.unframed, declsUnnoted_nothing]
  | .ret p none, _ => rfl
  | .ret p (some e), aside => by rw [Stmt.unframed, Option.bind_some, e.returned_nothing]
  | .raise p e, _ => by rw [Stmt.unframed, e.unnoted_nothing]
  | .branch p t yes no, _ => by
    rw [Stmt.unframed, t.unnoted_nothing, yes.unframed_nothing none, stmtUnframed?_nothing no]
  | .whileLoop p t b, _ => by rw [Stmt.unframed, t.unnoted_nothing, b.unframed_nothing none]
  | .doWhile p b t, _ => by rw [Stmt.unframed, b.unframed_nothing none, t.unnoted_nothing]
  | .forLoop p i t n b, _ => by
    rw [Stmt.unframed, forInitUnnoted_nothing, exprUnnoted?_nothing, exprUnnoted?_nothing,
      b.unframed_nothing none]
  | .forIn p k d o b, _ => by rw [Stmt.unframed, o.unnoted_nothing, b.unframed_nothing none]
  | .block p ⟨ss, q⟩, _ => by rw [Stmt.unframed, stmtsUnframed_nothing ss]
  | .tryBlock p ⟨ss, q⟩ cs none, _ => by
    rw [Stmt.unframed, stmtsUnframed_nothing ss, catchesUnframed_nothing cs]
  | .tryBlock p ⟨ss, q⟩ cs (some ⟨fs, fq⟩), _ => by
    rw [Stmt.unframed, stmtsUnframed_nothing ss, catchesUnframed_nothing cs,
      stmtsUnframed_nothing fs]
  | .labeled p l b, _ => by rw [Stmt.unframed, b.unframed_nothing none]
  | .breakTo .., _ | .continueTo .., _ | .empty .., _ => rfl
  | .switch p d cs, _ => by rw [Stmt.unframed, d.unnoted_nothing, casesUnframed_nothing cs]

theorem stmtsUnframed_nothing : ∀ ss : List Stmt, stmtsUnframed v (fun _ => false) none ss = ss
  | [] => rfl
  | s :: ss => by
    rw [stmtsUnframed, s.isUpkeep_nothing, s.aside?_nothing, s.unframed_nothing none,
      stmtsUnframed_nothing ss]
    rfl

theorem stmtUnframed?_nothing : ∀ s : Option Stmt, stmtUnframed? v (fun _ => false) s = s
  | none => rfl
  | some s => by rw [stmtUnframed?, s.unframed_nothing none]

theorem catchesUnframed_nothing : ∀ cs : List Catch, catchesUnframed v (fun _ => false) cs = cs
  | [] => rfl
  | ⟨s, sc, ⟨ss, q⟩, p⟩ :: cs => by
    rw [catchesUnframed, stmtsUnframed_nothing ss, catchesUnframed_nothing cs]
    rfl

theorem casesUnframed_nothing : ∀ cs : List SwitchCase, casesUnframed v (fun _ => false) cs = cs
  | [] => rfl
  | ⟨t, ss⟩ :: cs => by
    rw [casesUnframed, exprUnnoted?_nothing, stmtsUnframed_nothing ss, casesUnframed_nothing cs]

end

end Identity

/-! ## Up to braces -/

/-- Statements that are the same, up to braces if a frame is kept. -/
def Stmt.Same : Option Own → Stmt → Stmt → Prop
  | none, a, b => a = b
  | some _, a, b => a.tidied = b.tidied

/-- The same where only one statement fits. -/
def Stmt.SameBody : Option Own → Stmt → Stmt → Prop
  | none, a, b => a = b
  | some _, a, b => a.tidied.unbraced = b.tidied.unbraced

def stmtsSame : Option Own → List Stmt → List Stmt → Prop
  | none, as, bs => as = bs
  | some _, as, bs => stmtsTidied as = stmtsTidied bs

def stmtSame? : Option Own → Option Stmt → Option Stmt → Prop
  | none, a, b => a = b
  | some _, a, b => stmtTidied? a = stmtTidied? b

def catchesSame : Option Own → List Catch → List Catch → Prop
  | none, as, bs => as = bs
  | some _, as, bs => catchesTidied as = catchesTidied bs

def casesSame : Option Own → List SwitchCase → List SwitchCase → Prop
  | none, as, bs => as = bs
  | some _, as, bs => casesTidied as = casesTidied bs

section Same

variable {own : Option Own}

theorem Stmt.Same.rfl {s : Stmt} : Stmt.Same own s s := by
  cases own <;> exact Eq.refl _

theorem Stmt.Same.body {a b : Stmt} (h : Stmt.Same own a b) : Stmt.SameBody own a b := by
  cases own with
  | none => exact h
  | some o => exact congrArg Stmt.unbraced h

theorem stmtsSame.nil : stmtsSame own [] [] := by
  cases own <;> rfl

theorem stmtsSame.cons {a b : Stmt} {as bs : List Stmt} (h : Stmt.Same own a b)
    (hs : stmtsSame own as bs) :
    stmtsSame own (a :: as) (b :: bs) := by
  cases own <;> exact congrArg₂ List.cons h hs

theorem stmtSame?.some {a b : Stmt} (h : Stmt.SameBody own a b) :
    stmtSame? own (some a) (some b) := by
  cases own <;> exact congrArg Option.some h

theorem catchesSame.cons {s : SymbolId} {sc : ScopeId} {q p : Position} {as bs : List Stmt}
    {cs ds : List Catch} (h : stmtsSame own as bs) (hs : catchesSame own cs ds) :
    catchesSame own (⟨s, sc, ⟨as, q⟩, p⟩ :: cs) (⟨s, sc, ⟨bs, q⟩, p⟩ :: ds) := by
  cases own <;> exact congrArg₂ (fun (x : List Stmt) y => ⟨s, sc, ⟨x, q⟩, p⟩ :: y) h hs

theorem casesSame.cons {t : Option Expr} {as bs : List Stmt} {cs ds : List SwitchCase}
    (h : stmtsSame own as bs) (hs : casesSame own cs ds) :
    casesSame own (⟨t, as⟩ :: cs) (⟨t, bs⟩ :: ds) := by
  cases own <;> exact congrArg₂ (fun (x : List Stmt) y => ⟨t, x⟩ :: y) h hs

namespace Stmt.Same

variable {p : Position} {a b : Stmt}

theorem branch {t : Expr} {c d : Option Stmt} (h : SameBody own a b) (hno : stmtSame? own c d) :
    Same own (.branch p t a c) (.branch p t b d) := by
  cases own <;> exact congrArg₂ (Stmt.branch p t) h hno

theorem whileLoop {t : Expr} (h : SameBody own a b) :
    Same own (.whileLoop p t a) (.whileLoop p t b) := by
  cases own <;> exact congrArg (Stmt.whileLoop p t) h

theorem doWhile {t : Expr} (h : SameBody own a b) : Same own (.doWhile p a t) (.doWhile p b t) := by
  cases own <;> exact congrArg (Stmt.doWhile p · t) h

theorem forLoop {i : Option ForInit} {t n : Option Expr} (h : SameBody own a b) :
    Same own (.forLoop p i t n a) (.forLoop p i t n b) := by
  cases own <;> exact congrArg (Stmt.forLoop p i t n) h

theorem forIn {k : SymbolId} {d : Bool} {x : Expr} (h : SameBody own a b) :
    Same own (.forIn p k d x a) (.forIn p k d x b) := by
  cases own <;> exact congrArg (Stmt.forIn p k d x) h

theorem labeled {l : String} (h : SameBody own a b) :
    Same own (.labeled p l a) (.labeled p l b) := by
  cases own <;> exact congrArg (Stmt.labeled p l) h

theorem block {q : Position} {as bs : List Stmt} (h : stmtsSame own as bs) :
    Same own (.block p ⟨as, q⟩) (.block p ⟨bs, q⟩) := by
  cases own <;> exact congrArg (fun x => Stmt.block p ⟨x, q⟩) h

theorem switch {d : Expr} {cs ds : List SwitchCase} (h : casesSame own cs ds) :
    Same own (.switch p d cs) (.switch p d ds) := by
  cases own <;> exact congrArg (Stmt.switch p d) h

theorem tryCatch {q : Position} {as bs : List Stmt} {cs ds : List Catch} (h : stmtsSame own as bs)
    (hcs : catchesSame own cs ds) :
    Same own (.tryBlock p ⟨as, q⟩ cs none) (.tryBlock p ⟨bs, q⟩ ds none) := by
  cases own <;> exact congrArg₂ (fun x y => Stmt.tryBlock p ⟨x, q⟩ y none) h hcs

theorem tryFinally {q fq : Position} {as bs fs gs : List Stmt} {cs ds : List Catch}
    (h : stmtsSame own as bs) (hcs : catchesSame own cs ds) (hfs : stmtsSame own fs gs) :
    Same own (.tryBlock p ⟨as, q⟩ cs (some ⟨fs, fq⟩)) (.tryBlock p ⟨bs, q⟩ ds (some ⟨gs, fq⟩)) := by
  cases own with
  | none =>
    obtain ⟨rfl, rfl, rfl⟩ : as = bs ∧ cs = ds ∧ fs = gs := ⟨h, hcs, hfs⟩
    rfl
  | some o =>
    simp only [stmtsSame, catchesSame] at h hcs hfs
    simp only [Same, Stmt.tidied, h, hcs, hfs]

end Stmt.Same

end Same

end FrameLedger
