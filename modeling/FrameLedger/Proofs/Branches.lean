import FrameLedger.Proofs.Unambiguous

/-!
# An `else` is read with the nearest `if`

Where indentation and line breaks do not count, an `else` belongs to the nearest `if` before it that
has none, even where it was written for an outer one. Apart from that only one statement of
branches, loops, labels, blocks and expressions has a given text.
-/

namespace FrameLedger

open Reading Print

/-! ## Expressions stand on one line -/

namespace Print

def isUnbroken (s : String) : Bool := s.toList.all (· != '\n')

theorem isUnbroken_append (s s' : String) :
    isUnbroken (s ++ s') = (isUnbroken s && isUnbroken s') := by
  rw [isUnbroken, String.toList_append, List.all_append]
  rfl

theorem isUnbroken_within {s : String} (h : isUnbroken s = true) (least prec : Nat) :
    isUnbroken (within least prec s) = true := by
  unfold within
  split
  · rw [isUnbroken_append, isUnbroken_append, h]
    rfl
  · exact h

theorem isUnbroken_ident {x : String} (h : isIdent x = true) : isUnbroken x = true := by
  refine List.all_eq_true.2 fun c hc => bne_iff_ne.2 ?_
  rintro rfl
  exact absurd (ident_part h _ hc) (by decide)

theorem isUnbroken_quote (s : String) : isUnbroken (quote s) = true := by
  have hescape : ∀ c ∈ s.toList.flatMap escapeChar, c ≠ '\n' := by
    rintro _ hc rfl
    obtain ⟨c, -, hc⟩ := List.mem_flatMap.1 hc
    unfold escapeChar at hc
    split at hc <;> simp_all [eq_comm]
  rw [isUnbroken, toList_quote]
  simp only [List.all_cons, List.all_append, List.all_nil, Bool.and_true, Bool.and_eq_true,
    List.all_eq_true, bne_iff_ne]
  exact ⟨by decide, hescape, by decide⟩

theorem isUnbroken_propertyKey (k : String) : isUnbroken (propertyKey k) = true := by
  rw [propertyKey_eq]
  cases hk : isIdent k with
  | true => exact isUnbroken_ident hk
  | false => exact isUnbroken_quote k

theorem isUnbroken_commaSep : ∀ {parts : List String}, (∀ s ∈ parts, isUnbroken s = true) →
    isUnbroken (commaSep parts) = true
  | [], _ => rfl
  | [s], h => by
    rw [commaSep, String.intercalate_singleton]
    exact h s List.mem_cons_self
  | s :: s' :: parts, h => by
    obtain ⟨hs, hparts⟩ := List.forall_mem_cons.1 h
    have hrest : isUnbroken (", ".intercalate (s' :: parts)) = true := isUnbroken_commaSep hparts
    rw [commaSep, String.intercalate_cons_cons, isUnbroken_append, isUnbroken_append, hs, hrest]
    rfl

end Print

section

variable {st : PrintStyle} {t : ScopeTable}

mutual

/-- The text of an expression does not depend on how deep it stands, and has no line break. -/
theorem Expr.inline : ∀ e : Expr, e.isPlain st t = true →
    (∀ n, Print.expr st t e n = Print.expr st t e 0) ∧ isUnbroken (Print.expr st t e 0) = true
  | .var p s, h => by
    simp only [Print.expr, implies_true, true_and]
    exact isUnbroken_ident (Bool.and_eq_true_iff.1 h).1
  | .bare p x, h => by
    simp only [Print.expr, implies_true, true_and]
    exact isUnbroken_ident (Bool.and_eq_true_iff.1 h).1
  | .member p q x, h => by
    obtain ⟨hq, hx⟩ := Bool.and_eq_true_iff.1 h
    obtain ⟨hlevel, hbreak⟩ := q.inline hq
    refine ⟨fun n => by rw [Print.expr_member, Print.expr_member, hlevel], ?_⟩
    rw [Print.expr_member, isUnbroken_append, isUnbroken_append, isUnbroken_within hbreak,
      isUnbroken_ident hx]
    rfl
  | .index p a i, h => by
    obtain ⟨ha, hi⟩ := Bool.and_eq_true_iff.1 h
    obtain ⟨hlevel, hbreak⟩ := a.inline ha
    obtain ⟨hlevel', hbreak'⟩ := i.inline hi
    refine ⟨fun n => by rw [Print.expr, Print.expr, hlevel, hlevel'], ?_⟩
    simp only [Print.expr, isUnbroken_append, isUnbroken_within hbreak, hbreak']
    rfl
  | .call p f as, h => by
    obtain ⟨hf, has⟩ := Bool.and_eq_true_iff.1 h
    obtain ⟨hlevel, hbreak⟩ := f.inline hf
    obtain ⟨hlevel', hbreak'⟩ := exprsInline as has
    refine ⟨fun n => by rw [Print.expr, Print.expr, hlevel, hlevel'], ?_⟩
    simp only [Print.expr, parens, isUnbroken_append, isUnbroken_within hbreak,
      isUnbroken_commaSep hbreak']
    rfl
  | .prefixed p op e, h => by
    obtain ⟨hlevel, hbreak⟩ := e.inline (Bool.and_eq_true_iff.1 h).1
    refine ⟨fun n => by rw [Print.expr, Print.expr, hlevel], ?_⟩
    have hapart (b : Bool) : isUnbroken (if b then " " else "") = true := by cases b <;> rfl
    simp only [Print.expr, Print.prefixed, isUnbroken_append, isUnbroken_within hbreak, hapart]
    cases op <;> rfl
  | .postfixed p op e, h => by
    obtain ⟨hlevel, hbreak⟩ := e.inline (Bool.and_eq_true_iff.1 h).1
    refine ⟨fun n => by rw [Print.expr, Print.expr, hlevel], ?_⟩
    rw [Print.expr, isUnbroken_append, isUnbroken_within hbreak]
    cases op <;> rfl
  | .binary p op l r, h => by
    obtain ⟨hl, hr⟩ := Bool.and_eq_true_iff.1 (Bool.and_eq_true_iff.1 h).1
    obtain ⟨hlevel, hbreak⟩ := l.inline hl
    obtain ⟨hlevel', hbreak'⟩ := r.inline hr
    have hsymbol : isUnbroken op.symbol = true := by
      rcases op with _ | (_ | _ | _ | _ | _) | _ | _ | _ |
        (_ | _ | _ | _ | (_ | _ | _ | _) | _ | _ | (_ | _ | _ | _ | _)) <;> rfl
    refine ⟨fun n => by rw [Print.expr, Print.expr, hlevel, hlevel'], ?_⟩
    rw [Print.expr]
    unfold Print.binary
    split <;> simp only [isUnbroken_append, isUnbroken_within hbreak, isUnbroken_within hbreak',
      hsymbol] <;> rfl
  | .cond p c y z, h => by
    obtain ⟨hcy, hz⟩ := Bool.and_eq_true_iff.1 h
    obtain ⟨hc, hy⟩ := Bool.and_eq_true_iff.1 hcy
    obtain ⟨hlevel, hbreak⟩ := c.inline hc
    obtain ⟨hlevel', hbreak'⟩ := y.inline hy
    obtain ⟨hlevel'', hbreak''⟩ := z.inline hz
    refine ⟨fun n => by rw [Print.expr, Print.expr, hlevel, hlevel', hlevel''], ?_⟩
    simp only [Print.expr, isUnbroken_append, isUnbroken_within hbreak, isUnbroken_within hbreak',
      isUnbroken_within hbreak'']
    rfl
  | .literal p (.string s), _ => by
    simp only [Print.expr, implies_true, true_and]
    exact isUnbroken_quote s
  | .literal p (.bool b), _ => by
    simp only [Print.expr, implies_true, true_and]
    cases b <;> rfl
  | .literal p .null, _ => by
    simp only [Print.expr, implies_true, true_and]
    rfl
  | .array p es, h => by
    obtain ⟨hlevel, hbreak⟩ := exprsInline es h
    refine ⟨fun n => by rw [Print.expr, Print.expr, hlevel], ?_⟩
    simp only [Print.expr, isUnbroken_append, isUnbroken_commaSep hbreak]
    rfl
  | .object p ps, h => by
    obtain ⟨hlevel, hbreak⟩ := propertiesInline ps h
    refine ⟨fun n => by rw [Print.expr, Print.expr, hlevel], ?_⟩
    simp only [Print.expr, isUnbroken_append, isUnbroken_commaSep hbreak]
    rfl

theorem exprsInline : ∀ es : List Expr, exprsPlain st t es = true →
    (∀ n, args st t es n = args st t es 0) ∧ ∀ s ∈ args st t es 0, isUnbroken s = true
  | [], _ => by simp [args]
  | e :: es, h => by
    obtain ⟨he, hes⟩ := Bool.and_eq_true_iff.1 h
    obtain ⟨hlevel, hbreak⟩ := e.inline he
    obtain ⟨hlevel', hbreak'⟩ := exprsInline es hes
    refine ⟨fun n => by rw [args, args, hlevel, hlevel'], ?_⟩
    rw [args]
    exact List.forall_mem_cons.2 ⟨isUnbroken_within hbreak .., hbreak'⟩

theorem propertiesInline : ∀ ps : List Property, propertiesPlain st t ps = true →
    (∀ n, properties st t ps n = properties st t ps 0) ∧ ∀ s ∈ properties st t ps 0,
      isUnbroken s = true
  | [], _ => by simp [properties]
  | ⟨k, e⟩ :: ps, h => by
    obtain ⟨he, hps⟩ := Bool.and_eq_true_iff.1 h
    obtain ⟨hlevel, hbreak⟩ := e.inline he
    obtain ⟨hlevel', hbreak'⟩ := propertiesInline ps hps
    refine ⟨fun n => by rw [properties, properties, hlevel, hlevel'], ?_⟩
    rw [properties]
    refine List.forall_mem_cons.2 ⟨?_, hbreak'⟩
    rw [isUnbroken_append, isUnbroken_append, isUnbroken_propertyKey, isUnbroken_within hbreak]
    rfl

end

end

/-! ## Statements on one line -/

section

variable (st : PrintStyle) (t : ScopeTable) (as : List MemberName)

/-- Words that mean something at the start of a statement. -/
def Print.openers : List String := ["if", "else", "while"]

def Expr.isAmong (e : Expr) : Bool := e.isPlain st t && e.names.all as.contains

mutual

/-- A statement of branches, loops, labels, blocks and plain expressions, with names from a list. -/
def Stmt.isAmong : Stmt → Bool
  | .expr _ e => e.isAmong st t as && !openers.contains (word (Print.expr st t e 0).toList).1
  | .branch _ c y none => c.isAmong st t as && y.isAmong
  | .branch _ c y (some z) => c.isAmong st t as && (y.isAmong && z.isAmong)
  | .whileLoop _ c b => c.isAmong st t as && b.isAmong
  | .labeled _ l b => isName l && b.isAmong
  | .block _ ⟨ss, _⟩ => stmtsAmong ss
  | _ => false

def stmtsAmong : List Stmt → Bool
  | [] => true
  | s :: ss => s.isAmong && stmtsAmong ss

end

/-- The start of a branch or a loop. -/
def Print.header (keyword : String) (c : Expr) : List Char :=
  keyword.toList ++ ([' ', '('] ++ ((Print.expr st t c 0).toList ++ [')', ' ']))

mutual

/-- The text of a statement, on one line. -/
def Stmt.line : Stmt → List Char
  | .expr _ e => (exprStmt (Print.expr st t e 0)).toList
  | .branch _ c y none => header st t "if" c ++ y.line
  | .branch _ c y (some z) => header st t "if" c ++ (y.line ++ (" else ".toList ++ z.line))
  | .whileLoop _ c b => header st t "while" c ++ b.line
  | .labeled _ l b => l.toList ++ ([':', ' '] ++ b.line)
  | .block _ ⟨ss, _⟩ => ['\x7b'] ++ ((if ss.isEmpty then [] else [' ']) ++ stmtsLine ss)
  | _ => []

def stmtsLine : List Stmt → List Char
  | [] => ['\x7d']
  | s :: ss => s.line ++ (' ' :: stmtsLine ss)

end

mutual

/-- The statement without places in the source, its expressions in canonical form. -/
def Stmt.canonical : Stmt → Stmt
  | .expr _ e => .expr .synthetic (e.canonical st t)
  | .branch _ c y none => .branch .synthetic (c.canonical st t) y.canonical none
  | .branch _ c y (some z) => .branch .synthetic (c.canonical st t) y.canonical (some z.canonical)
  | .whileLoop _ c b => .whileLoop .synthetic (c.canonical st t) b.canonical
  | .labeled _ l b => .labeled .synthetic l b.canonical
  | .block _ ⟨ss, _⟩ => .block .synthetic ⟨stmtsCanonical ss, .synthetic⟩
  | s => s

def stmtsCanonical : List Stmt → List Stmt
  | [] => []
  | s :: ss => s.canonical :: stmtsCanonical ss

end

end

namespace Print

/-- Where line breaks do not count they are blanks. -/
def unbreak (s : String) : List Char := s.toList.map fun c => if c = '\n' then ' ' else c

theorem unbreak_append (s s' : String) : unbreak (s ++ s') = unbreak s ++ unbreak s' := by
  rw [unbreak, String.toList_append, List.map_append]
  rfl

theorem unbreak_of_isUnbroken {s : String} (h : isUnbroken s = true) : unbreak s = s.toList :=
  (List.map_congr_left fun c hc => if_neg (bne_iff_ne.1 (List.all_eq_true.1 h c hc))).trans
    (List.map_id _)

end Print

section

variable {st : PrintStyle} {t : ScopeTable} {as : List MemberName}

theorem Expr.unbreak_print {e : Expr} (h : e.isAmong st t as = true) (n : Nat) :
    unbreak (Print.expr st t e n) = (Print.expr st t e 0).toList := by
  obtain ⟨hlevel, hbreak⟩ := e.inline (Bool.and_eq_true_iff.1 h).1
  rw [hlevel, unbreak_of_isUnbroken hbreak]

variable (hst : st.indentSize = 0)
include hst

theorem Print.indent_eq (n : Nat) : st.indent n = "" := by
  rw [PrintStyle.indent, hst]
  rfl

theorem Print.unbreak_beforeBody (s : Stmt) (n : Nat) : unbreak (beforeBody st s n) = [' '] := by
  rw [beforeBody, indent_eq hst]
  split <;> rfl

theorem Print.unbreak_afterBody (s : Stmt) (n : Nat) : unbreak (afterBody st s n) = [' '] := by
  rw [afterBody, indent_eq hst]
  split <;> rfl

mutual

theorem Stmt.unbreak_print : ∀ s : Stmt, s.isAmong st t as = true →
    ∀ n, unbreak (Print.stmt st t s n) = s.line st t
  | .expr p e, h, n => by
    obtain ⟨hlevel, hbreak⟩ := e.inline (Bool.and_eq_true_iff.1 (Bool.and_eq_true_iff.1 h).1).1
    have hdecl : e.isDeclaration = false := by
      cases e with
      | func => cases h
      | _ => rfl
    rw [Print.stmt, hdecl, if_neg Bool.false_ne_true, hlevel]
    refine unbreak_of_isUnbroken ?_
    unfold exprStmt
    split <;> simp only [isUnbroken_append, hbreak] <;> rfl
  | .branch p c y none, h, n => by
    obtain ⟨hc, hy⟩ := Bool.and_eq_true_iff.1 h
    simp only [Print.stmt, unbreak_append, c.unbreak_print hc, y.unbreak_print hy,
      unbreak_beforeBody hst, List.append_assoc]
    simp [Stmt.line, header, unbreak]
  | .branch p c y (some z), h, n => by
    obtain ⟨hc, hyz⟩ := Bool.and_eq_true_iff.1 h
    obtain ⟨hy, hz⟩ := Bool.and_eq_true_iff.1 hyz
    have hblank : unbreak (if isBranch z then " " else beforeBody st z n) = [' '] := by
      split
      · rfl
      · exact unbreak_beforeBody hst z n
    simp only [Print.stmt, unbreak_append, c.unbreak_print hc, y.unbreak_print hy,
      z.unbreak_print hz, hblank, unbreak_beforeBody hst, unbreak_afterBody hst, List.append_assoc]
    simp [Stmt.line, header, unbreak]
  | .whileLoop p c b, h, n => by
    obtain ⟨hc, hb⟩ := Bool.and_eq_true_iff.1 h
    simp only [Print.stmt, unbreak_append, c.unbreak_print hc, b.unbreak_print hb,
      unbreak_beforeBody hst, List.append_assoc]
    simp [Stmt.line, header, unbreak]
  | .labeled p l b, h, n => by
    obtain ⟨hl, hb⟩ := Bool.and_eq_true_iff.1 h
    have hl := unbreak_of_isUnbroken (isUnbroken_ident (Bool.and_eq_true_iff.1 hl).1)
    simp only [Print.stmt, unbreak_append, hl, b.unbreak_print hb, List.append_assoc]
    simp [Stmt.line, unbreak]
  | .block p ⟨[], q⟩, _, n => by
    rw [Print.stmt, Print.block, lines, braces, if_pos (by decide)]
    rfl
  | .block p ⟨s :: ss, q⟩, h, n => by
    have hlines := stmts_unbreak_print (s :: ss) h (n + 1)
    have hsome : (lines st t (s :: ss) (n + 1)).isEmpty = false := by
      rw [lines]
      simp [← String.toList_eq_nil_iff, String.isEmpty_eq_false_iff]
    rw [Print.stmt, Print.block, braces, hsome, if_neg Bool.false_ne_true, indent_eq hst, Stmt.line,
      ← hlines]
    simp [unbreak]

theorem stmts_unbreak_print : ∀ ss : List Stmt, stmtsAmong st t as ss = true → ∀ n,
    unbreak (lines st t ss n) ++ ['\x7d'] = stmtsLine st t ss
  | [], _, n => by
    rw [lines]
    rfl
  | s :: ss, h, n => by
    obtain ⟨hs, hss⟩ := Bool.and_eq_true_iff.1 h
    rw [lines, stmtsLine, ← stmts_unbreak_print ss hss n, indent_eq hst]
    simp only [unbreak_append, s.unbreak_print hs, List.append_assoc]
    rfl

end

end

/-! ## What an `else` belongs to -/

namespace Stmt

/-- Whether an `else` behind the statement is read as part of it. -/
def dangles : Stmt → Bool
  | .branch _ _ _ none => true
  | .branch _ _ _ (some z) => z.dangles
  | .whileLoop _ _ b | .labeled _ _ b => b.dangles
  | _ => false

/-- The statement with an `else` behind it, which goes to the nearest branch that has none. -/
def attach : Stmt → Stmt → Stmt
  | .branch p c y none, z => if y.dangles then .branch p c (y.attach z) none
      else .branch p c y (some z)
  | .branch p c y (some w), z => .branch p c y (some (w.attach z))
  | .whileLoop p c b, z => .whileLoop p c (b.attach z)
  | .labeled p l b, z => .labeled p l (b.attach z)
  | s, _ => s

end Stmt

mutual

/-- Whether every `else` belongs to the nearest branch before it. -/
def Stmt.isSettled : Stmt → Bool
  | .branch _ _ y none => y.isSettled
  | .branch _ _ y (some z) => y.isSettled && z.isSettled && !y.dangles
  | .whileLoop _ _ b | .labeled _ _ b => b.isSettled
  | .block _ ⟨ss, _⟩ => stmtsSettled ss
  | _ => true

def stmtsSettled : List Stmt → Bool
  | [] => true
  | s :: ss => s.isSettled && stmtsSettled ss

end

mutual

/-- The statement as its text is read. -/
def Stmt.reread : Stmt → Stmt
  | .branch p c y none => .branch p c y.reread none
  | .branch p c y (some z) => (Stmt.branch p c y.reread none).attach z.reread
  | .whileLoop p c b => .whileLoop p c b.reread
  | .labeled p l b => .labeled p l b.reread
  | .block p ⟨ss, q⟩ => .block p ⟨stmtsReread ss, q⟩
  | s => s

def stmtsReread : List Stmt → List Stmt
  | [] => []
  | s :: ss => s.reread :: stmtsReread ss

end

section

variable {st : PrintStyle} {t : ScopeTable} {as : List MemberName}

theorem Stmt.line_attach {y z : Stmt} (h : y.dangles = true) :
    (y.attach z).line st t = y.line st t ++ (" else ".toList ++ z.line st t) := by
  fun_induction Stmt.attach y z with
  | case1 p c y z hy ih => simp [Stmt.line, ih hy]
  | case2 p c y z hy => simp [Stmt.line]
  | case3 p c y w z ih => simp [Stmt.line, ih h]
  | case4 p c b z ih => simp [Stmt.line, ih h]
  | case5 p l b z ih => simp [Stmt.line, ih h]
  | case6 s => simp_all [Stmt.dangles]

theorem Stmt.isAmong_attach {y z : Stmt} (hy : y.isAmong st t as = true)
    (hz : z.isAmong st t as = true) :
    (y.attach z).isAmong st t as = true := by
  fun_induction Stmt.attach y z <;> simp_all [Stmt.isAmong]

theorem Stmt.isSettled_attach {y z : Stmt} (hy : y.isSettled = true) (hz : z.isSettled = true) :
    (y.attach z).isSettled = true := by
  fun_induction Stmt.attach y z <;> simp_all [Stmt.isSettled]

mutual

theorem Stmt.line_reread : ∀ s : Stmt, s.reread.line st t = s.line st t
  | .branch p c y none => by simp only [Stmt.reread, Stmt.line, y.line_reread]
  | .branch p c y (some z) => by
    rw [Stmt.reread, Stmt.line_attach rfl]
    simp only [Stmt.line, y.line_reread, z.line_reread, List.append_assoc]
  | .whileLoop p c b => by simp only [Stmt.reread, Stmt.line, b.line_reread]
  | .labeled p l b => by simp only [Stmt.reread, Stmt.line, b.line_reread]
  | .block p ⟨ss, q⟩ => by
    have hempty : (stmtsReread ss).isEmpty = ss.isEmpty := by cases ss <;> rfl
    simp only [Stmt.reread, Stmt.line, stmtsLine_reread ss, hempty]
  | .expr .. | .vars .. | .ret .. | .raise .. | .doWhile .. | .forLoop .. | .forIn .. | .tryBlock ..
  | .breakTo ..
  | .continueTo .. | .switch .. | .empty .. => rfl

theorem stmtsLine_reread : ∀ ss : List Stmt, stmtsLine st t (stmtsReread ss) = stmtsLine st t ss
  | [] => rfl
  | s :: ss => by rw [stmtsReread, stmtsLine, stmtsLine, s.line_reread, stmtsLine_reread ss]

end

mutual

theorem Stmt.isAmong_reread : ∀ s : Stmt, s.isAmong st t as = true → s.reread.isAmong st t as = true
  | .branch p c y none, h => by
    obtain ⟨hc, hy⟩ := Bool.and_eq_true_iff.1 h
    exact Bool.and_eq_true_iff.2 ⟨hc, y.isAmong_reread hy⟩
  | .branch p c y (some z), h => by
    obtain ⟨hc, hyz⟩ := Bool.and_eq_true_iff.1 h
    obtain ⟨hy, hz⟩ := Bool.and_eq_true_iff.1 hyz
    exact Stmt.isAmong_attach (Bool.and_eq_true_iff.2 ⟨hc, y.isAmong_reread hy⟩)
      (z.isAmong_reread hz)
  | .whileLoop p c b, h => by
    obtain ⟨hc, hb⟩ := Bool.and_eq_true_iff.1 h
    exact Bool.and_eq_true_iff.2 ⟨hc, b.isAmong_reread hb⟩
  | .labeled p l b, h => by
    obtain ⟨hl, hb⟩ := Bool.and_eq_true_iff.1 h
    exact Bool.and_eq_true_iff.2 ⟨hl, b.isAmong_reread hb⟩
  | .block p ⟨ss, q⟩, h => stmtsAmong_reread ss h
  | .expr p e, h => h

theorem stmtsAmong_reread : ∀ ss : List Stmt, stmtsAmong st t as ss = true →
    stmtsAmong st t as (stmtsReread ss) = true
  | [], _ => rfl
  | s :: ss, h => by
    obtain ⟨hs, hss⟩ := Bool.and_eq_true_iff.1 h
    exact Bool.and_eq_true_iff.2 ⟨s.isAmong_reread hs, stmtsAmong_reread ss hss⟩

end

end

mutual

theorem Stmt.isSettled_reread : ∀ s : Stmt, s.reread.isSettled = true
  | .branch _ _ y none => y.isSettled_reread
  | .branch _ _ y (some z) => Stmt.isSettled_attach y.isSettled_reread z.isSettled_reread
  | .whileLoop _ _ b => b.isSettled_reread
  | .labeled _ _ b => b.isSettled_reread
  | .block _ ⟨ss, _⟩ => stmtsSettled_reread ss
  | .expr .. | .vars .. | .ret .. | .raise .. | .doWhile .. | .forLoop .. | .forIn .. | .tryBlock ..
  | .breakTo ..
  | .continueTo .. | .switch .. | .empty .. => rfl

theorem stmtsSettled_reread : ∀ ss : List Stmt, stmtsSettled (stmtsReread ss) = true
  | [] => rfl
  | s :: ss => Bool.and_eq_true_iff.2 ⟨s.isSettled_reread, stmtsSettled_reread ss⟩

end

mutual

theorem Stmt.reread_of_isSettled : ∀ s : Stmt, s.isSettled = true → s.reread = s
  | .branch p c y none, h => by rw [Stmt.reread, y.reread_of_isSettled h]
  | .branch p c y (some z), h => by
    obtain ⟨hyz, hdangles⟩ := Bool.and_eq_true_iff.1 h
    obtain ⟨hy, hz⟩ := Bool.and_eq_true_iff.1 hyz
    rw [Stmt.reread, y.reread_of_isSettled hy, z.reread_of_isSettled hz, Stmt.attach,
      if_neg (by simpa using hdangles)]
  | .whileLoop p c b, h => by rw [Stmt.reread, b.reread_of_isSettled h]
  | .labeled p l b, h => by rw [Stmt.reread, b.reread_of_isSettled h]
  | .block p ⟨ss, q⟩, h => by rw [Stmt.reread, stmts_reread_of_settled ss h]
  | .expr .., _ | .vars .., _ | .ret .., _ | .raise .., _ | .doWhile .., _ | .forLoop .., _
  | .forIn .., _
  | .tryBlock .., _ | .breakTo .., _ | .continueTo .., _ | .switch .., _ | .empty .., _ => rfl

theorem stmts_reread_of_settled : ∀ ss : List Stmt, stmtsSettled ss = true → stmtsReread ss = ss
  | [], _ => rfl
  | s :: ss, h => by
    obtain ⟨hs, hss⟩ := Bool.and_eq_true_iff.1 h
    rw [stmtsReread, s.reread_of_isSettled hs, stmts_reread_of_settled ss hss]

end

section

variable (st : PrintStyle) (t : ScopeTable)

theorem Stmt.dangles_canonical : ∀ s : Stmt, (s.canonical st t).dangles = s.dangles
  | .branch _ _ _ (some z) => z.dangles_canonical
  | .whileLoop _ _ b => b.dangles_canonical
  | .labeled _ _ b => b.dangles_canonical
  | .branch _ _ _ none | .block _ ⟨_, _⟩ | .expr .. | .vars .. | .ret .. | .raise .. | .doWhile ..
  | .forLoop .. | .forIn ..
  | .tryBlock .. | .breakTo .. | .continueTo .. | .switch .. | .empty .. => rfl

mutual

theorem Stmt.isSettled_canonical : ∀ s : Stmt, (s.canonical st t).isSettled = s.isSettled
  | .branch p c y none => y.isSettled_canonical
  | .branch p c y (some z) => by
    simp only [Stmt.canonical, Stmt.isSettled, y.isSettled_canonical, z.isSettled_canonical,
      y.dangles_canonical st t]
  | .whileLoop p c b => b.isSettled_canonical
  | .labeled p l b => b.isSettled_canonical
  | .block p ⟨ss, q⟩ => stmtsSettled_canonical ss
  | .expr .. | .vars .. | .ret .. | .raise .. | .doWhile .. | .forLoop .. | .forIn .. | .tryBlock ..
  | .breakTo ..
  | .continueTo .. | .switch .. | .empty .. => rfl

theorem stmtsSettled_canonical :
    ∀ ss : List Stmt, stmtsSettled (stmtsCanonical st t ss) = stmtsSettled ss
  | [] => rfl
  | s :: ss => congrArg₂ and s.isSettled_canonical (stmtsSettled_canonical ss)

end

end

/-! ## Reading statements -/

namespace Reading

theorem expect_eq_some {w cs rest : List Char} (h : expect w cs = some rest) : cs = w ++ rest := by
  fun_induction expect w cs with
  | case1 => exact Option.some.inj h
  | case2 c w cs ih => rw [List.cons_append, ← ih h]
  | case3 | case4 => cases h

/-- No word stands here that introduces a statement, with a blank behind it. -/
def Unopened (cs : List Char) : Prop := (word cs).1 ∈ openers → (word cs).2.head? ≠ some ' '

theorem Unopened.expect {cs : List Char} (h : Unopened cs) {x : String} (hx : x ∈ openers)
    (w : List Char) :
    expect (x.toList ++ ' ' :: w) cs = none := by
  cases hrest : Reading.expect (x.toList ++ ' ' :: w) cs with
  | none => rfl
  | some rest =>
    have hident : ∀ x ∈ openers, isIdent x = true := by decide
    have hword :=
      word_append (ident_part (hident x hx)) (Bounded.of_head (c := ' ') rfl (w ++ rest))
    have hcs : cs = x.toList ++ ' ' :: (w ++ rest) := by
      rw [expect_eq_some hrest, List.append_assoc, List.cons_append]
    rw [Unopened, hcs, hword] at h
    exact absurd rfl (h hx)

/-- What is read: a statement, or those up to a closing brace. -/
inductive Form where
  | stmt (cs : List Char)
  | stmts (cs : List Char)

abbrev Form.Found : Form → Type
  | .stmt _ => Stmt × List Char
  | .stmts _ => List Stmt × List Char

section

variable (lookup : String → Expr)

noncomputable def readHeader (keyword : String) (cs : List Char) : Option (Expr × List Char) := do
  let rest ← expect (keyword.toList ++ [' ', '(']) cs
  let x ← readTerms lookup rest
  return (inCommas x.1, ← expect [')', ' '] x.2)

/-- Readers that have others for the parts. -/
noncomputable def Form.next (r : Answers Form.Found) : Answers Form.Found
  | .stmt cs =>
    if cs.head? = some '\x7b' then do
      let x ← r (.stmts (skipBlank cs.tail))
      return (.block .synthetic ⟨x.1, .synthetic⟩, x.2)
    else
      match readHeader lookup "if" cs with
      | some (c, cs) => do
        let y ← r (.stmt cs)
        match expect " else ".toList y.2 with
        | some cs => do
          let z ← r (.stmt cs)
          return (.branch .synthetic c y.1 (some z.1), z.2)
        | none => return (.branch .synthetic c y.1 none, y.2)
      | none =>
        match readHeader lookup "while" cs with
        | some (c, cs) => do
          let x ← r (.stmt cs)
          return (.whileLoop .synthetic c x.1, x.2)
        | none => do
          let x ← readTerms lookup cs
          match x.2 with
          | ';' :: rest => return (.expr .synthetic (inCommas x.1), rest)
          | rest => do
            let y ← r (.stmt (← expect [':', ' '] rest))
            return (.labeled .synthetic (word cs).1 y.1, y.2)
  | .stmts cs =>
    if cs.head? = some '\x7d' then some ([], cs.tail)
    else do
      let x ← r (.stmt cs)
      let y ← r (.stmts (← expect [' '] x.2))
      return (x.1 :: y.1, y.2)

theorem steady_form : Steady (Form.next lookup) := by
  intro f r h t
  cases t with
  | stmt cs =>
    simp only [Form.next]
    split
    · exact .bind (h (.stmts _)) fun x => .const _
    · split
      · refine .bind (h (.stmt _)) fun y => ?_
        split
        · exact .bind (h (.stmt _)) fun z => .const _
        · exact .const _
      · split
        · exact .bind (h (.stmt _)) fun x => .const _
        · refine .bind (.const _) fun x => ?_
          split
          · exact .const _
          · exact .bind (.const _) fun rest => .bind (h (.stmt _)) fun y => .const _
  | stmts cs =>
    simp only [Form.next]
    split
    · exact .const _
    · exact .bind (h (.stmt _)) fun x => .bind (.const _) fun rest => .bind (h (.stmts _)) fun y =>
        .const _

noncomputable abbrev forms : Answers Form.Found := answers (Form.next lookup)

theorem forms_eq (t : Form) : forms lookup t = Form.next lookup (forms lookup) t :=
  (steady_form lookup).answers_eq t

variable {lookup} {c : Expr} {cs rest rest' : List Char} {es : List Expr} {x y z : Stmt}
  {ss : List Stmt}

theorem forms_block (h : forms lookup (.stmts (skipBlank cs)) = some (ss, rest)) :
    forms lookup (.stmt ('\x7b' :: cs)) = some (.block .synthetic ⟨ss, .synthetic⟩, rest) := by
  rw [forms_eq]
  exact congrArg (Option.bind · _) h

theorem forms_branch (hc : readHeader lookup "if" ('i' :: cs) = some (c, rest))
    (hy : forms lookup (.stmt rest) = some (y, rest'))
    (helse : expect " else ".toList rest' = none) :
    forms lookup (.stmt ('i' :: cs)) = some (.branch .synthetic c y none, rest') := by
  rw [forms_eq, Form.next, if_neg (by simp), hc]
  refine (congrArg (Option.bind · _) hy).trans ?_
  rw [Option.bind_some, helse]
  rfl

theorem forms_branch_else (hc : readHeader lookup "if" ('i' :: cs) = some (c, rest))
    (hy : forms lookup (.stmt rest) = some (y, " else ".toList ++ rest'))
    {rest'' : List Char} (hz : forms lookup (.stmt rest') = some (z, rest'')) :
    forms lookup (.stmt ('i' :: cs)) = some (.branch .synthetic c y (some z), rest'') := by
  rw [forms_eq, Form.next, if_neg (by simp), hc]
  refine (congrArg (Option.bind · _) hy).trans ?_
  rw [Option.bind_some, expect_append]
  exact congrArg (Option.bind · _) hz

theorem forms_while (hc : readHeader lookup "while" ('w' :: cs) = some (c, rest))
    (hx : forms lookup (.stmt rest) = some (x, rest')) :
    forms lookup (.stmt ('w' :: cs)) = some (.whileLoop .synthetic c x, rest') := by
  have hif : readHeader lookup "if" ('w' :: cs) = none := rfl
  rw [forms_eq, Form.next, if_neg (by simp), hif, hc]
  exact congrArg (Option.bind · _) hx

theorem Unopened.readHeader (hcs : Unopened cs) {keyword : String} (h : keyword ∈ openers) :
    readHeader lookup keyword cs = none :=
  congrArg (Option.bind · _) (hcs.expect h ['('])

section

variable (hcs : Unopened cs) (hbrace : cs.head? ≠ some '\x7b')
include hcs hbrace

theorem forms_expr (h : readTerms lookup cs = some (es, ';' :: rest)) :
    forms lookup (.stmt cs) = some (.expr .synthetic (inCommas es), rest) := by
  rw [forms_eq, Form.next, if_neg hbrace, hcs.readHeader (by decide), hcs.readHeader (by decide)]
  exact congrArg (Option.bind · _) h

theorem forms_labeled (h : readTerms lookup cs = some (es, ':' :: ' ' :: rest))
    (hx : forms lookup (.stmt rest) = some (x, rest')) :
    forms lookup (.stmt cs) = some (.labeled .synthetic (word cs).1 x, rest') := by
  rw [forms_eq, Form.next, if_neg hbrace, hcs.readHeader (by decide), hcs.readHeader (by decide)]
  exact (congrArg (Option.bind · _) h).trans (congrArg (Option.bind · _) hx)

end

theorem forms_nil : forms lookup (.stmts ('\x7d' :: cs)) = some ([], cs) := forms_eq lookup _

theorem forms_cons (hbrace : cs.head? ≠ some '\x7d')
    (hx : forms lookup (.stmt cs) = some (x, ' ' :: rest))
    (h : forms lookup (.stmts rest) = some (ss, rest')) :
    forms lookup (.stmts cs) = some (x :: ss, rest') := by
  rw [forms_eq, Form.next, if_neg hbrace]
  exact (congrArg (Option.bind · _) hx).trans (congrArg (Option.bind · _) h)

end

end Reading

/-! ## Reading back -/

section

variable {st : PrintStyle} {t : ScopeTable} {lookup : String → Expr} {as : List MemberName}
  {cs : List Char}

theorem unopened_ident {x : String} (h : isIdent x = true) (cs : List Char) :
    Unopened (x.toList ++ ':' :: cs) := by
  rw [Unopened, word_append (ident_part h) (.of_head (c := ':') rfl cs)]
  simp

theorem word_fst_append (w : List Char) {c : Char} (hc : isIdentPart c = false) (cs : List Char) :
    (word (w ++ c :: cs)).1 = (word w).1 := by
  have htake : (w ++ c :: cs).takeWhile isIdentPart = w.takeWhile isIdentPart := by
    induction w with
    | nil => simp [hc]
    | cons c' w ih => simp [List.takeWhile_cons, ih]
  rw [word, htake]
  rfl

theorem unopened_exprStmt {text : String} (h : (word text.toList).1 ∉ openers) :
    Unopened ((exprStmt text).toList ++ cs) := by
  intro hword
  unfold exprStmt at hword
  split at hword
  · have hnone : (word (("(" ++ text ++ ");").toList ++ cs)).1 = "" := by simp [word, isIdentPart]
    rw [hnone] at hword
    exact absurd hword (by decide)
  · rw [String.toList_append, List.append_assoc] at hword
    exact absurd (word_fst_append text.toList (c := ';') rfl cs ▸ hword) h

/-- Behind a block or an expression statement, or in front of another statement, an `else` is none
of it. -/
theorem Stmt.expect_else : ∀ s : Stmt, s.isAmong st t as = true →
    expect "else ".toList (s.line st t ++ cs) = none
  | .expr p e, h => by
    have hword := (Bool.and_eq_true_iff.1 h).2
    exact (unopened_exprStmt (by simpa using hword)).expect (x := "else") (by decide) []
  | .labeled p l b, h => by
    have hl := (Bool.and_eq_true_iff.1 (Bool.and_eq_true_iff.1 h).1).1
    rw [Stmt.line, List.append_assoc]
    exact (unopened_ident hl _).expect (x := "else") (by decide) []
  | .branch p c y none, _ | .branch p c y (some z), _ | .whileLoop p c b, _ | .block p ⟨ss, q⟩, _ =>
    rfl

theorem stmts_expect_else {ss : List Stmt} (h : stmtsAmong st t as ss = true) :
    expect " else ".toList (' ' :: (stmtsLine st t ss ++ cs)) = none := by
  cases ss with
  | nil => rfl
  | cons s ss =>
    rw [stmtsLine, List.append_assoc]
    exact s.expect_else (Bool.and_eq_true_iff.1 h).1

theorem Stmt.head_line : ∀ s : Stmt, s.isAmong st t as = true →
    (s.line st t ++ cs).head? ≠ some '\x7d'
  | .expr p e, h => by
    obtain ⟨c, rest, htext, hc⟩ :=
      e.opens st t 0 (Bool.and_eq_true_iff.1 (Bool.and_eq_true_iff.1 h).1).1
    rw [Stmt.line]
    unfold exprStmt
    split
    · simp
    · rw [String.toList_append, htext]
      rintro heq
      obtain rfl := Option.some.inj heq
      cases hc
  | .labeled p l b, h => by
    have hl := (Bool.and_eq_true_iff.1 (Bool.and_eq_true_iff.1 h).1).1
    rw [Stmt.line, List.append_assoc]
    exact ((opens_ident hl).append _).head_ne rfl
  | .branch p c y none, _ | .branch p c y (some z), _ | .whileLoop p c b, _
  | .block p ⟨ss, q⟩, _ => by
    simp [Stmt.line, header]

section

variable (hfinds : ∀ e : Expr, e.names ⊆ as → Finds st t lookup e.nodes)

include hfinds

theorem Expr.readable_of_isAmong {e : Expr} (h : e.isAmong st t as = true) :
    e.Readable st t lookup 0 := by
  obtain ⟨hplain, hnames⟩ := Bool.and_eq_true_iff.1 h
  exact e.readable hplain
    (hfinds e fun a ha => List.contains_iff_mem.1 (List.all_eq_true.1 hnames a ha))

theorem readHeader_print {c : Expr} (h : c.isAmong st t as = true) (keyword : String) :
    readHeader lookup keyword (header st t keyword c ++ cs) = some (c.canonical st t, cs) := by
  have hread : readTerms lookup ((Print.expr st t c 0).toList ++ ')' :: ' ' :: cs) =
      some (c.terms st t, ')' :: ' ' :: cs) :=
    (Expr.readable_of_isAmong hfinds h).closed rfl (by decide)
  have htext : header st t keyword c ++ cs =
      (keyword.toList ++ [' ', '(']) ++ ((Print.expr st t c 0).toList ++ ')' :: ' ' :: cs) := by
    simp [header]
  rw [readHeader, htext, expect_append]
  exact (congrArg (Option.bind · _) hread).trans rfl

/-- An expression that would start like a block is read between parentheses. -/
theorem readTerms_exprStmt {e : Expr} (h : e.isAmong st t as = true) (cs : List Char) :
    ∃ es, readTerms lookup ((exprStmt (Print.expr st t e 0)).toList ++ cs) = some (es, ';' :: cs) ∧
      inCommas es = e.canonical st t := by
  have he := Expr.readable_of_isAmong hfinds h
  unfold exprStmt
  split
  · have hread : readAt lookup Prec.assign
        ('(' :: ((Print.expr st t e 0).toList ++ ')' :: ';' :: cs)) =
        some (e.canonical st t, ';' :: cs) :=
      (readAt_of_head (readHead_paren (he.closed rfl (by decide)))).trans
        (readTail_of_stops (.closed rfl _) _)
    refine ⟨[e.canonical st t], ?_, rfl⟩
    simp only [String.toList_append, List.append_assoc]
    exact (readTerms_of_at hread).trans (by rw [readMore_close (by decide)]; rfl)
  · refine ⟨e.terms st t, ?_, rfl⟩
    rw [String.toList_append, List.append_assoc]
    exact he.closed rfl (by decide)

end

mutual

/-- A statement is read back from its text, if no `else` follows that is read as part of it. -/
theorem Stmt.read (hfinds : ∀ e : Expr, e.names ⊆ as → Finds st t lookup e.nodes) :
    ∀ s : Stmt, s.isAmong st t as = true → s.isSettled = true →
    ∀ cs, (s.dangles = true → expect " else ".toList cs = none) →
      forms lookup (.stmt (s.line st t ++ cs)) = some (s.canonical st t, cs)
  | .expr p e, h, _, cs, _ => by
    obtain ⟨he, hword⟩ := Bool.and_eq_true_iff.1 h
    obtain ⟨es, hread, hes⟩ := readTerms_exprStmt hfinds he cs
    have hbrace : ((exprStmt (Print.expr st t e 0)).toList ++ cs).head? ≠ some '\x7b' := by
      obtain ⟨c, rest, htext, hc⟩ := e.opens st t 0 (Bool.and_eq_true_iff.1 he).1
      unfold exprStmt
      split
      · simp
      · next hstart =>
        rw [startsWith_singleton htext (d := '\x7b') rfl] at hstart
        simp [htext] at hstart ⊢
        exact hstart.1
    rw [Stmt.line, Stmt.canonical, ← hes]
    exact forms_expr (unopened_exprStmt (by simpa using hword)) hbrace hread
  | .branch p c y none, h, hs, cs, hcs => by
    obtain ⟨hc, hy⟩ := Bool.and_eq_true_iff.1 h
    have hcs := hcs rfl
    rw [Stmt.line, List.append_assoc]
    exact forms_branch (readHeader_print hfinds hc "if") (y.read hfinds hy hs cs fun _ => hcs) hcs
  | .branch p c y (some z), h, hs, cs, hcs => by
    obtain ⟨hc, hyz⟩ := Bool.and_eq_true_iff.1 h
    obtain ⟨hy, hz⟩ := Bool.and_eq_true_iff.1 hyz
    obtain ⟨hsyz, hdangles⟩ := Bool.and_eq_true_iff.1 hs
    obtain ⟨hsy, hsz⟩ := Bool.and_eq_true_iff.1 hsyz
    have hready := y.read hfinds hy hsy (" else ".toList ++ (z.line st t ++ cs)) fun hd => by
      simp [hd] at hdangles
    rw [Stmt.line, List.append_assoc, List.append_assoc, List.append_assoc]
    exact forms_branch_else (readHeader_print hfinds hc "if") hready (z.read hfinds hz hsz cs hcs)
  | .whileLoop p c b, h, hs, cs, hcs => by
    obtain ⟨hc, hb⟩ := Bool.and_eq_true_iff.1 h
    rw [Stmt.line, List.append_assoc]
    exact forms_while (readHeader_print hfinds hc "while") (b.read hfinds hb hs cs hcs)
  | .labeled p l b, h, hs, cs, hcs => by
    obtain ⟨hl, hb⟩ := Bool.and_eq_true_iff.1 h
    have hident := (Bool.and_eq_true_iff.1 hl).1
    have hcolon : Bounded (':' :: ' ' :: (b.line st t ++ cs)) := .of_head rfl _
    have hstop (e : Expr) : readTail lookup Prec.assign e (':' :: ' ' :: (b.line st t ++ cs)) =
        some (e, ':' :: ' ' :: (b.line st t ++ cs)) := by
      rw [readTail, Readers.tail, reader_eq]
      rfl
    have hread := readTerms_of_at ((readAt_of_head (readHead_name hl hcolon)).trans (hstop _))
    rw [readMore_close (by decide)] at hread
    have hbrace : (l.toList ++ ':' :: ' ' :: (b.line st t ++ cs)).head? ≠ some '\x7b' := by
      obtain ⟨c, rest, htext, hc, -⟩ := ident_cons hident
      rw [htext]
      exact fun heq => isIdentStart_ne hc rfl (Option.some.inj heq)
    have hlabel := forms_labeled (unopened_ident hident _) hbrace hread (b.read hfinds hb hs cs hcs)
    rw [word_append (ident_part hident) hcolon] at hlabel
    rwa [Stmt.line, List.append_assoc]
  | .block p ⟨ss, q⟩, h, hs, cs, _ => by
    have hread := stmtsRead hfinds ss h hs cs
    have hskip : skipBlank ((if ss.isEmpty then [] else [' ']) ++ (stmtsLine st t ss ++ cs)) =
        stmtsLine st t ss ++ cs := by
      cases ss <;> rfl
    rw [Stmt.line, List.append_assoc, List.append_assoc]
    exact forms_block (hskip.symm ▸ hread)

theorem stmtsRead (hfinds : ∀ e : Expr, e.names ⊆ as → Finds st t lookup e.nodes) :
    ∀ ss : List Stmt, stmtsAmong st t as ss = true → stmtsSettled ss = true →
    ∀ cs, forms lookup (.stmts (stmtsLine st t ss ++ cs)) = some (stmtsCanonical st t ss, cs)
  | [], _, _, _ => forms_nil
  | s :: ss, h, hs, cs => by
    obtain ⟨hplain, hplains⟩ := Bool.and_eq_true_iff.1 h
    obtain ⟨hsettled, hsettleds⟩ := Bool.and_eq_true_iff.1 hs
    rw [stmtsLine, List.append_assoc]
    exact forms_cons (s.head_line hplain)
      (s.read hfinds hplain hsettled _ fun _ => stmts_expect_else hplains)
      (stmtsRead hfinds ss hplains hsettleds cs)

end

end

/-! ## One statement for a text -/

section

variable {st : PrintStyle} {t : ScopeTable} {as : List MemberName}

theorem Stmt.canonical_reread_of_line (has : ∀ a ∈ as, ∀ b ∈ as, a.text st t = b.text st t → a = b)
    {s s' : Stmt} (hs : s.isAmong st t as = true) (hs' : s'.isAmong st t as = true)
    (h : s.line st t = s'.line st t) :
    s.reread.canonical st t = s'.reread.canonical st t := by
  obtain ⟨lookup, hfinds⟩ := exists_finds st t has
  have hread {s : Stmt} (hs : s.isAmong st t as = true) :
      forms lookup (.stmt (s.line st t)) = some (s.reread.canonical st t, []) := by
    have hread := s.reread.read hfinds (s.isAmong_reread hs) s.isSettled_reread [] fun _ => rfl
    rwa [s.line_reread, List.append_nil] at hread
  have hsame := hread hs
  rw [h, hread hs'] at hsame
  exact (Prod.mk.inj (Option.some.inj hsame)).1.symm

/-- Statements that have the same text where indentation and line breaks do not count are read as
the same one. If every `else` belongs to the nearest branch before it, they are that one, up to
places in the source and the form of expressions. A statement for which that does not hold is not
the one that it is read as, which has the same text. -/
theorem Stmt.branches_printed (hst : st.indentSize = 0)
    (has : ∀ a ∈ as, ∀ b ∈ as, a.text st t = b.text st t → a = b) {s s' : Stmt}
    (hs : s.isAmong st t as = true) (hs' : s'.isAmong st t as = true) (n : Nat) :
    (unbreak (Print.stmt st t s n) = unbreak (Print.stmt st t s' n) →
      s.reread.canonical st t = s'.reread.canonical st t ∧
      (s.isSettled = true → s'.isSettled = true → s.canonical st t = s'.canonical st t)) ∧
    unbreak (Print.stmt st t s.reread n) = unbreak (Print.stmt st t s n) ∧
    (s.reread.canonical st t = s.canonical st t ↔ s.isSettled = true) := by
  refine ⟨fun h => ?_, ?_, fun h => ?_, fun h => by rw [s.reread_of_isSettled h]⟩
  · rw [s.unbreak_print hst hs, s'.unbreak_print hst hs'] at h
    have hsame := Stmt.canonical_reread_of_line has hs hs' h
    refine ⟨hsame, fun hsettled hsettled' => ?_⟩
    rwa [s.reread_of_isSettled hsettled, s'.reread_of_isSettled hsettled'] at hsame
  · rw [s.unbreak_print hst hs, s.reread.unbreak_print hst (s.isAmong_reread hs), s.line_reread]
  · rw [← s.isSettled_canonical st t, ← h, Stmt.isSettled_canonical, s.isSettled_reread]

end

/-- `if (a) l: while (b) if (c) x; else y;`, the `else` written for the first `if`. -/
def outerElse (p : Position) : Stmt :=
  .branch p (.bare p "a")
    (.labeled p "l"
    (.whileLoop p (.bare p "b") (.branch p (.bare p "c") (.expr p (.bare p "x")) none)))
    (some (.expr p (.bare p "y")))

/-- The same, the `else` written for the second `if`. -/
def innerElse (p : Position) : Stmt :=
  .branch p (.bare p "a")
    (.labeled p "l" (.whileLoop p (.bare p "b") (.branch p (.bare p "c") (.expr p (.bare p "x"))
    (some (.expr p (.bare p "y")))))) none

theorem Stmt.branches_printed_nested :
    (outerElse .synthetic).reread.canonical ⟨0, false⟩ .initial =
      (innerElse .synthetic).reread.canonical ⟨0, false⟩ .initial ∧
    (innerElse .synthetic).canonical ⟨0, false⟩ .initial =
      (innerElse ⟨"lib/b.js", 2⟩).canonical ⟨0, false⟩ .initial := by
  have hnames : ∀ a ∈ ["a", "b", "c", "x", "y"].map MemberName.property,
    ∀ b ∈ ["a", "b", "c", "x", "y"].map MemberName.property,
      a.text ⟨0, false⟩ .initial = b.text ⟨0, false⟩ .initial → a = b := by decide +kernel
  constructor
  · exact ((Stmt.branches_printed rfl hnames (by decide +kernel) (by decide +kernel) 0).1
      (by decide +kernel)).1
  · exact ((Stmt.branches_printed rfl hnames (by decide +kernel) (by decide +kernel) 0).1
      (by decide +kernel)).2 rfl rfl

/-- An `else` has the same text whichever of two branches it belongs to. -/
theorem else_misread : Print.stmt ⟨0, false⟩ .initial (outerElse .synthetic) 0 =
      Print.stmt ⟨0, false⟩ .initial (innerElse .synthetic) 0 ∧
    (outerElse .synthetic).canonical ⟨0, false⟩ .initial ≠ (innerElse .synthetic).canonical
      ⟨0, false⟩ .initial := by
  refine ⟨by decide +kernel, fun h => ?_⟩
  cases h

end FrameLedger
