import FrameLedger.Proofs.Drafting

/-!
# Where names stand

`Block.occurrences` lists what a tree names, each with the function and the scope in which it
stands: variable references, names behind a dot, declarators, all other names that are bound,
functions and catch clauses. The code of a function stands in its scope and the body of a catch
clause in the scope of the clause.

Code that is worked on keeps what it lists and gets more: `Grown`.
-/

namespace FrameLedger

/-- What may occur in a tree. -/
inductive Part where
  | reference (s : SymbolId)
  | member (s : SymbolId)
  | declarator (s : SymbolId)
  /-- A parameter, the key of a loop or the name of a function. -/
  | binder (s : SymbolId)
  | func (f : Func)
  /-- A catch clause with this scope. -/
  | clause (sc : ScopeId)

namespace Part

def symbol? : Part → Option SymbolId
  | .reference s | .member s | .declarator s | .binder s => some s
  | .func _ | .clause _ => none

def declarator? : Part → Option SymbolId
  | .declarator s => some s
  | _ => none

end Part

/-- Where code stands. -/
structure Stand where
  /-- The innermost function around it. -/
  func : Option Func
  scope : ScopeId

structure Occurrence where
  stand : Stand
  part : Part

def MemberName.occurrences : MemberName → Stand → List Occurrence
  | .symbol s, w => [⟨w, .member s⟩]
  | .property _, _ => []

mutual

def Expr.occurrences : Expr → Stand → List Occurrence
  | .var _ s, w => [⟨w, .reference s⟩]
  | .bare .., _ | .literal .., _ => []
  | .member _ q n, w => n.occurrences w ++ q.occurrences w
  | .index _ a i, w => a.occurrences w ++ i.occurrences w
  | .call _ f as, w | .new _ f as, w => f.occurrences w ++ exprsOccurrences as w
  | .prefixed _ _ x, w | .postfixed _ _ x, w => x.occurrences w
  | .binary _ _ l r, w => l.occurrences w ++ r.occurrences w
  | .cond _ c t f, w => c.occurrences w ++ (t.occurrences w ++ f.occurrences w)
  | .array _ es, w => exprsOccurrences es w
  | .object _ ps, w => propertiesOccurrences ps w
  | .func _ f, w => f.occurrences w

def exprsOccurrences : List Expr → Stand → List Occurrence
  | [], _ => []
  | e :: es, w => e.occurrences w ++ exprsOccurrences es w

def exprOccurrences? : Option Expr → Stand → List Occurrence
  | none, _ => []
  | some e, w => e.occurrences w

def propertiesOccurrences : List Property → Stand → List Occurrence
  | [], _ => []
  | ⟨_, e⟩ :: ps, w => e.occurrences w ++ propertiesOccurrences ps w

def Func.occurrences : Func → Stand → List Occurrence
  | f@⟨n, ps, b, sc, _⟩, w => ⟨w, .func f⟩ :: (n.toList.map (⟨w, .binder ·⟩)
      ++ (ps.map (⟨⟨some f, sc⟩, .binder ·⟩) ++ b.occurrences ⟨some f, sc⟩))

def Block.occurrences : Block → Stand → List Occurrence
  | ⟨ss, _⟩, w => stmtsOccurrences ss w

def blockOccurrences? : Option Block → Stand → List Occurrence
  | none, _ => []
  | some b, w => b.occurrences w

def declsOccurrences : List VarDecl → Stand → List Occurrence
  | [], _ => []
  | ⟨s, e, _⟩ :: ds, w => ⟨w, .declarator s⟩ :: (exprOccurrences? e w ++ declsOccurrences ds w)

def forInitOccurrences : Option ForInit → Stand → List Occurrence
  | none, _ => []
  | some (.vars ds), w => declsOccurrences ds w
  | some (.expr e), w => e.occurrences w

def catchesOccurrences : List Catch → Stand → List Occurrence
  | [], _ => []
  | ⟨s, sc, b, _⟩ :: cs, w => ⟨w, .clause sc⟩ :: ⟨{ w with scope := sc }, .binder s⟩ ::
      (b.occurrences { w with scope := sc } ++ catchesOccurrences cs w)

def casesOccurrences : List SwitchCase → Stand → List Occurrence
  | [], _ => []
  | ⟨t, ss⟩ :: cs, w => exprOccurrences? t w ++ (stmtsOccurrences ss w ++ casesOccurrences cs w)

def stmtsOccurrences : List Stmt → Stand → List Occurrence
  | [], _ => []
  | s :: ss, w => s.occurrences w ++ stmtsOccurrences ss w

def stmtOccurrences? : Option Stmt → Stand → List Occurrence
  | none, _ => []
  | some s, w => s.occurrences w

def Stmt.occurrences : Stmt → Stand → List Occurrence
  | .expr _ e, w | .raise _ e, w => e.occurrences w
  | .vars _ ds, w => declsOccurrences ds w
  | .ret _ e, w => exprOccurrences? e w
  | .branch _ c t e, w => c.occurrences w ++ (t.occurrences w ++ stmtOccurrences? e w)
  | .whileLoop _ c b, w => c.occurrences w ++ b.occurrences w
  | .doWhile _ b c, w => b.occurrences w ++ c.occurrences w
  | .forLoop _ i c n b, w =>
    forInitOccurrences i w ++ (exprOccurrences? c w ++ (exprOccurrences? n w ++ b.occurrences w))
  | .forIn _ k _ o b, w => ⟨w, .binder k⟩ :: (o.occurrences w ++ b.occurrences w)
  | .block _ b, w => b.occurrences w
  | .tryBlock _ b cs f, w => b.occurrences w ++ (catchesOccurrences cs w ++ blockOccurrences? f w)
  | .labeled _ _ b, w => b.occurrences w
  | .switch _ d cs, w => d.occurrences w ++ casesOccurrences cs w
  | .breakTo .., _ | .continueTo .., _ | .empty .., _ => []

end

/-- What the code of a program names. -/
def Program.occurrences (p : Program) : List Occurrence :=
  p.code.occurrences ⟨none, ScopeTable.program⟩

/-- The symbols that are declared by a declarator. -/
def declarators (os : List Occurrence) : List SymbolId := os.filterMap (·.part.declarator?)

@[simp] theorem declarators_append (a b : List Occurrence) :
    declarators (a ++ b) = declarators a ++ declarators b :=
  List.filterMap_append

@[simp] theorem stmtsOccurrences_append (a b : List Stmt) (w : Stand) :
    stmtsOccurrences (a ++ b) w = stmtsOccurrences a w ++ stmtsOccurrences b w := by
  induction a with
  | nil => rfl
  | cons s a ih => simp only [List.cons_append, stmtsOccurrences, ih, List.append_assoc]

@[simp] theorem declsOccurrences_append (a b : List VarDecl) (w : Stand) :
    declsOccurrences (a ++ b) w = declsOccurrences a w ++ declsOccurrences b w := by
  induction a with
  | nil => rfl
  | cons d a ih =>
    obtain ⟨s, e, p⟩ := d
    simp only [List.cons_append, declsOccurrences, ih, List.append_assoc]

theorem Func.mem_occurrences {f : Func} {w : Stand} {o : Occurrence} : o ∈ f.occurrences w ↔
    o = ⟨w, .func f⟩ ∨ (∃ s, f.name = some s ∧ o = ⟨w, .binder s⟩) ∨
      (∃ s ∈ f.params, o = ⟨⟨some f, f.scope⟩, .binder s⟩) ∨
        o ∈ f.body.occurrences ⟨some f, f.scope⟩ := by
  obtain ⟨n, ps, b, sc, p⟩ := f
  simp only [Func.occurrences, List.mem_cons, List.mem_append, List.mem_map, Option.mem_toList]
  grind

theorem Func.declarators_occurrences (f : Func) (w : Stand) :
    declarators (f.occurrences w) = declarators (f.body.occurrences ⟨some f, f.scope⟩) := by
  obtain ⟨n, ps, b, sc, p⟩ := f
  have hbinders (w : Stand) (ss : List SymbolId) : declarators (ss.map (⟨w, .binder ·⟩)) = [] := by
    rw [declarators, List.filterMap_map]
    exact List.filterMap_eq_nil_iff.2 fun _ _ => rfl
  rw [Func.occurrences, ← List.singleton_append]
  simp only [declarators_append, hbinders, List.nil_append]
  rfl

/-! ## Code that was added to -/

/-- What is listed is what was listed before, and besides only what `P` admits. -/
def Grown (P : Occurrence → Prop) (a b : List Occurrence) : Prop :=
  ∃ new, b.Perm (a ++ new) ∧ ∀ o ∈ new, P o

namespace Grown

variable {P Q : Occurrence → Prop} {a a' b b' c : List Occurrence}

theorem refl (a : List Occurrence) : Grown P a a := ⟨[], by simp, fun _ h => nomatch h⟩

theorem of_perm (h : b.Perm a) : Grown P a b := ⟨[], by simpa using h, fun _ h => nomatch h⟩

theorem trans (h : Grown P a b) (h' : Grown P b c) : Grown P a c := by
  obtain ⟨new, hb, hnew⟩ := h
  obtain ⟨new', hc, hnew'⟩ := h'
  refine ⟨new ++ new', ?_, List.forall_mem_append.2 ⟨hnew, hnew'⟩⟩
  calc
    c.Perm (b ++ new') := hc
    _ |>.Perm (a ++ new ++ new') := hb.append_right _
    _ = a ++ (new ++ new') := List.append_assoc ..

theorem append (h : Grown P a b) (h' : Grown P a' b') : Grown P (a ++ a') (b ++ b') := by
  obtain ⟨new, hb, hnew⟩ := h
  obtain ⟨new', hb', hnew'⟩ := h'
  refine ⟨new ++ new', ?_, List.forall_mem_append.2 ⟨hnew, hnew'⟩⟩
  calc
    (b ++ b').Perm (a ++ new ++ (a' ++ new')) := hb.append hb'
    _ = a ++ (new ++ (a' ++ new')) := List.append_assoc ..
    _ |>.Perm (a ++ (a' ++ (new ++ new'))) :=
      (List.perm_append_comm_assoc new a' new').append_left a
    _ = a ++ a' ++ (new ++ new') := (List.append_assoc ..).symm

theorem cons (h : Grown P a b) (o : Occurrence) : Grown P (o :: a) (o :: b) := (refl [o]).append h

/-- Something was put in front. -/
theorem before {new : List Occurrence} (hnew : ∀ o ∈ new, P o) (a : List Occurrence) :
    Grown P a (new ++ a) :=
  ⟨new, List.perm_append_comm, hnew⟩

/-- Something was put behind. -/
theorem behind {new : List Occurrence} (hnew : ∀ o ∈ new, P o) (a : List Occurrence) :
    Grown P a (a ++ new) :=
  ⟨new, .refl _, hnew⟩

theorem mono (h : Grown P a b) (hPQ : ∀ o, P o → Q o) : Grown Q a b := by
  obtain ⟨new, hb, hnew⟩ := h
  exact ⟨new, hb, fun o ho => hPQ o (hnew o ho)⟩

end Grown

end FrameLedger
