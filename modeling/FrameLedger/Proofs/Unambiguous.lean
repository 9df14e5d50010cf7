import FrameLedger.Proofs.Reading

/-!
# Printed expressions can be read back

Of operators, names, strings and the like only one expression has a given text, up to where it
stands in the source, how its commas are grouped and whether members are named by symbol or by text:
the reader finds it (`Expr.Readable`).
-/

namespace FrameLedger

open Reading Print

/-! ## Which expressions -/

/-- What a name or a member is called. -/
def MemberName.text (st : PrintStyle) (t : ScopeTable) : MemberName → String
  | .symbol s => st.name t s
  | .property x => x

namespace Print

def isIdent (x : String) : Bool :=
  match x.toList with
  | c :: cs => isIdentStart c && cs.all isIdentPart
  | [] => false

/-- Words that mean something at the start of an expression. -/
def reserved : List String := ["typeof", "delete", "void", "true", "false", "null"]

def isName (x : String) : Bool := isIdent x && !reserved.contains x

theorem propertyKey_eq (x : String) : propertyKey x = if isIdent x then x else quote x := by
  unfold propertyKey isIdent
  cases x.toList <;> rfl

theorem toList_quote (s : String) :
    (quote s).toList = '"' :: (s.toList.flatMap escapeChar ++ ['"']) := by
  simp [quote]

end Print

namespace Expr

/-- What can be assigned to. -/
def isReference : Expr → Bool
  | .var .. | .bare .. | .member .. | .index .. => true
  | _ => false

def isComma : Expr → Bool
  | .binary _ .comma _ _ => true
  | _ => false

end Expr

section

variable (st : PrintStyle) (t : ScopeTable)

mutual

/-- An expression of names, strings, truth values, members, elements, calls, array and object
literals and operators. -/
def Expr.isPlain : Expr → Bool
  | .var _ s => isName (st.name t s)
  | .bare _ x => isName x
  | .member _ q n => q.isPlain && isIdent (n.text st t)
  | .index _ a i => a.isPlain && i.isPlain
  | .call _ f as => f.isPlain && exprsPlain as
  | .prefixed _ op e => e.isPlain && (e.isReference || !(op == .inc || op == .dec))
  | .postfixed _ _ e => e.isPlain && e.isReference
  | .binary _ op l r => l.isPlain && r.isPlain && (l.isReference || !op.isAssignment)
  | .cond _ c y z => c.isPlain && y.isPlain && z.isPlain
  | .literal _ l =>
    match l with
    | .string _ | .bool _ | .null => true
    | _ => false
  | .array _ es => exprsPlain es
  | .object _ ps => propertiesPlain ps
  | _ => false

def exprsPlain : List Expr → Bool
  | [] => true
  | e :: es => e.isPlain && exprsPlain es

def propertiesPlain : List Property → Bool
  | [] => true
  | ⟨_, e⟩ :: ps => e.isPlain && propertiesPlain ps

end

mutual

/-- What stands between the commas of an expression: without places in the source, members named by
text. -/
def Expr.terms : Expr → List Expr
  | .var _ s => [.var .synthetic s]
  | .bare _ x => [.bare .synthetic x]
  | .member _ q n => [.member .synthetic (inCommas q.terms) (.property (n.text st t))]
  | .index _ a i => [.index .synthetic (inCommas a.terms) (inCommas i.terms)]
  | .call _ f as => [.call .synthetic (inCommas f.terms) (exprsCanonical as)]
  | .new _ f as => [.new .synthetic (inCommas f.terms) (exprsCanonical as)]
  | .prefixed _ op e => [.prefixed .synthetic op (inCommas e.terms)]
  | .postfixed _ op e => [.postfixed .synthetic op (inCommas e.terms)]
  | .binary _ .comma l r => l.terms ++ r.terms
  | .binary _ op l r => [.binary .synthetic op (inCommas l.terms) (inCommas r.terms)]
  | .cond _ c y z => [.cond .synthetic (inCommas c.terms) (inCommas y.terms) (inCommas z.terms)]
  | .literal _ l => [.literal .synthetic l]
  | .array _ es => [.array .synthetic (exprsCanonical es)]
  | .object _ ps => [.object .synthetic (propertiesCanonical ps)]
  | .func _ f => [.func .synthetic f]

def exprsCanonical : List Expr → List Expr
  | [] => []
  | e :: es => inCommas e.terms :: exprsCanonical es

def propertiesCanonical : List Property → List Property
  | [] => []
  | ⟨k, e⟩ :: ps => ⟨k, inCommas e.terms⟩ :: propertiesCanonical ps

end

/-- The expression without places in the source, commas grouped to the right and members named by
text. -/
def Expr.canonical (e : Expr) : Expr := inCommas (e.terms st t)

theorem Expr.terms_eq {e : Expr} (h : e.isComma = false) : e.terms st t = [e.canonical st t] := by
  unfold Expr.canonical
  cases e with
  | binary p op l r =>
    cases op with
    | comma => cases h
    | _ => rfl
  | _ => rfl

theorem Print.expr_member (p : Position) (q : Expr) (x : MemberName) (n : Nat) :
    Print.expr st t (.member p q x) n =
    within Prec.member q.prec (Print.expr st t q n) ++ "." ++ x.text st t := by
  cases x <;> rw [Print.expr, MemberName.text]

/-! ## How texts begin -/

/-- Characters that an expression can begin with. -/
def opening (c : Char) : Bool := isIdentStart c || ['"', '(', '[', '\x7b', '+', '-', '!'].contains c

def Opens (cs : List Char) : Prop := ∃ c cs', cs = c :: cs' ∧ opening c = true

theorem Opens.append {cs : List Char} (h : Opens cs) (cs' : List Char) : Opens (cs ++ cs') := by
  obtain ⟨c, rest, rfl, hc⟩ := h
  exact ⟨c, rest ++ cs', rfl, hc⟩

theorem Opens.skipBlank {cs : List Char} (h : Opens cs) : skipBlank cs = cs := by
  obtain ⟨c, rest, rfl, hc⟩ := h
  unfold Reading.skipBlank
  split
  · next heq =>
    obtain ⟨rfl, -⟩ := List.cons.inj heq
    cases hc
  · rfl

theorem Opens.head_ne {cs : List Char} (h : Opens cs) {c : Char} (hc : opening c = false) :
    cs.head? ≠ some c := by
  obtain ⟨c', rest, rfl, hc'⟩ := h
  rintro heq
  obtain rfl := Option.some.inj heq
  rw [hc] at hc'
  cases hc'

theorem opens_within {s : String} (h : Opens s.toList) (least prec : Nat) :
    Opens (within least prec s).toList := by
  unfold within
  split
  · rw [String.toList_append, String.toList_append]
    exact Opens.append (Opens.append ⟨'(', [], rfl, rfl⟩ _) _
  · exact h

theorem ident_cons {x : String} (h : isIdent x = true) : ∃ c cs, x.toList = c :: cs ∧
    isIdentStart c = true ∧ ∀ c' ∈ cs, isIdentPart c' = true := by
  unfold isIdent at h
  split at h
  · next c cs heq =>
    obtain ⟨hc, hcs⟩ := Bool.and_eq_true_iff.1 h
    exact ⟨c, cs, heq, hc, List.all_eq_true.1 hcs⟩
  · cases h

theorem opens_ident {x : String} (h : isIdent x = true) : Opens x.toList := by
  obtain ⟨c, cs, heq, hc, -⟩ := ident_cons h
  exact ⟨c, cs, heq, by rw [opening, hc, Bool.true_or]⟩

theorem ident_part {x : String} (h : isIdent x = true) : ∀ c ∈ x.toList, isIdentPart c = true := by
  obtain ⟨c, cs, heq, hc, hcs⟩ := ident_cons h
  rw [heq]
  refine List.forall_mem_cons.2 ⟨?_, hcs⟩
  simp only [isIdentStart, isIdentPart, Char.isAlphanum, Bool.or_eq_true] at hc ⊢
  tauto

/-- A word starts like no operator, bracket or quote. -/
theorem isIdentStart_ne {c c' : Char} (h : isIdentStart c = true) (h' : isIdentStart c' = false) :
    c ≠ c' := by
  rintro rfl
  rw [h] at h'
  cases h'

theorem Expr.opens (n : Nat) : ∀ e : Expr, e.isPlain st t = true →
    Opens (Print.expr st t e n).toList
  | .var p s, h => by
    rw [Print.expr]
    exact opens_ident (Bool.and_eq_true_iff.1 h).1
  | .bare p x, h => by
    rw [Print.expr]
    exact opens_ident (Bool.and_eq_true_iff.1 h).1
  | .member p q x, h => by
    rw [Print.expr_member, String.toList_append, String.toList_append]
    exact .append (.append (opens_within (q.opens n (Bool.and_eq_true_iff.1 h).1) ..) _) _
  | .index p a i, h => by
    simp only [Print.expr, String.toList_append, List.append_assoc]
    exact .append (opens_within (a.opens n (Bool.and_eq_true_iff.1 h).1) ..) _
  | .call p f as, h => by
    rw [Print.expr, String.toList_append]
    exact .append (opens_within (f.opens n (Bool.and_eq_true_iff.1 h).1) ..) _
  | .prefixed p op e, h => by
    simp only [Print.expr, Print.prefixed, String.toList_append, List.append_assoc]
    cases op <;> exact .append ⟨_, _, rfl, by decide⟩ _
  | .postfixed p op e, h => by
    rw [Print.expr, String.toList_append]
    exact .append (opens_within (e.opens n (Bool.and_eq_true_iff.1 h).1) ..) _
  | .binary p op l r, h => by
    have hl :=
      opens_within (l.opens n (Bool.and_eq_true_iff.1 (Bool.and_eq_true_iff.1 h).1).1)
      op.operandPrec.1 l.prec
    rw [Print.expr]
    unfold Print.binary
    split <;> simp only [String.toList_append, List.append_assoc] <;> exact .append hl _
  | .cond p c y z, h => by
    simp only [Print.expr, String.toList_append, List.append_assoc]
    exact .append
      (opens_within (c.opens n (Bool.and_eq_true_iff.1 (Bool.and_eq_true_iff.1 h).1).1) ..) _
  | .literal p (.string s), h => by
    rw [Print.expr, Print.literal, toList_quote]
    exact ⟨_, _, rfl, rfl⟩
  | .literal p (.bool b), h => by
    rw [Print.expr]
    cases b <;> exact ⟨_, _, rfl, by decide⟩
  | .literal p .null, h => by
    rw [Print.expr]
    exact ⟨_, _, rfl, by decide⟩
  | .array p es, h => by
    simp only [Print.expr, String.toList_append, List.append_assoc]
    exact .append ⟨_, _, rfl, rfl⟩ _
  | .object p ps, h => by
    simp only [Print.expr, String.toList_append, List.append_assoc]
    exact .append ⟨_, _, rfl, rfl⟩ _

/-! ## How texts end -/

def closing (c : Char) : Bool := c == ')' || c == ']' || c == '\x7d' || c == ',' || c == ';'

theorem readInfix_op (op : BinaryOp) (cs : List Char) :
    readInfix (' ' :: (op.symbol.toList ++ ' ' :: cs)) = some (some op, cs) := by
  rcases op with _ | (_ | _ | _ | _ | _) | _ | _ | _ |
    (_ | _ | _ | _ | (_ | _ | _ | _) | _ | _ | (_ | _ | _ | _ | _)) <;> rfl

theorem readInfix_cond (cs : List Char) : readInfix (' ' :: '?' :: ' ' :: cs) = some (none, cs) :=
  rfl

theorem readInfix_blank {cs : List Char} {x : Option BinaryOp × List Char}
    (h : readInfix cs = some x) :
    ∃ cs', cs = ' ' :: cs' := by
  rcases cs with _ | ⟨c, cs⟩
  · cases h
  · by_cases hc : ' ' = c
    · exact ⟨cs, by rw [hc]⟩
    · rw [readInfix, expect, if_neg hc] at h
      cases h

/-- Where an expression ends that binds at least this strongly: nothing follows that would be taken
into it. -/
structure Stops (least : Nat) (cs : List Char) : Prop where
  close : ∀ c ∈ cs.head?, closing c = true ∨ c = ' '
  loose : ∀ op rest, readInfix cs = some (op, rest) → infixPrec op < least

namespace Stops

variable {least : Nat} {cs : List Char}

theorem bounded (h : Stops least cs) : Bounded cs := fun c hc => by
  have hclose := h.close c hc
  simp only [closing, Bool.or_eq_true, beq_iff_eq] at hclose
  rcases hclose with ((((rfl | rfl) | rfl) | rfl) | rfl) | rfl <;> rfl

theorem mono (h : Stops least cs) {least' : Nat} (hle : least ≤ least') : Stops least' cs :=
  ⟨h.close, fun op rest hop => Nat.lt_of_lt_of_le (h.loose op rest hop) hle⟩

theorem nil : Stops least [] where
  close _ hc := by cases hc
  loose _ _ h := by cases h

theorem closed {c : Char} (hc : closing c = true) (cs : List Char) : Stops least (c :: cs) where
  close c' hc' := Option.some.inj hc' ▸ .inl hc
  loose op rest h := by
    obtain ⟨cs', heq⟩ := readInfix_blank h
    obtain ⟨rfl, -⟩ := List.cons.inj heq
    cases hc

theorem op {op : BinaryOp} (h : op.prec < least) :
    Stops least (' ' :: (op.symbol.toList ++ ' ' :: cs)) where
  close c hc := .inr (Option.some.inj hc).symm
  loose op' rest h' := by
    rw [readInfix_op] at h'
    obtain ⟨rfl, -⟩ := Prod.mk.inj (Option.some.inj h')
    exact h

theorem cond (h : Prec.conditional < least) : Stops least (' ' :: '?' :: ' ' :: cs) where
  close c hc := .inr (Option.some.inj hc).symm
  loose op' rest h' := by
    rw [readInfix_cond] at h'
    obtain ⟨rfl, -⟩ := Prod.mk.inj (Option.some.inj h')
    exact h

theorem colon : Stops least (' ' :: ':' :: ' ' :: cs) where
  close c hc := .inr (Option.some.inj hc).symm
  loose op' rest h' := by cases h'

end Stops

section

variable {lookup : String → Expr} {least : Nat} {cs : List Char}

theorem readTail_of_stops (h : Stops least cs) (e : Expr) :
    readTail lookup least e cs = some (e, cs) := by
  rw [readTail, Readers.tail, reader_eq]
  unfold Readers.next
  dsimp only
  split
  all_goals try exact absurd (h.close _ rfl) (by decide)
  rcases hop : readInfix cs with _ | ⟨op, rest⟩
  · rfl
  · exact if_pos (h.loose op rest hop)

theorem readTail_operator {op : Option BinaryOp} {rest : List Char}
    (hop : readInfix cs = some (op, rest)) (h : least ≤ infixPrec op) (e : Expr) :
    readTail lookup least e cs = readOperands lookup least e op rest := by
  rw [readTail, Readers.tail, reader_eq]
  unfold Readers.next
  dsimp only
  split
  all_goals try cases hop
  rw [hop]
  exact if_neg (Nat.not_lt_of_le h)

end

/-- What may follow an expression that is not in parentheses. -/
def Expr.Ends (e : Expr) (cs : List Char) : Prop :=
  match e with
  | .prefixed .. => Stops Prec.unary cs
  | .binary _ op _ _ => Stops op.operandPrec.2 cs
  | .cond .. => Stops Prec.assign cs
  | _ => Bounded cs

theorem BinaryOp.prec_le_operandPrec (op : BinaryOp) : op.prec ≤ op.operandPrec.2 := by
  cases op <;> simp [BinaryOp.prec, BinaryOp.operandPrec]

theorem BinaryOp.operandPrec_ne (op : BinaryOp) : op.operandPrec.2 ≠ Prec.conditional := by
  rcases op with _ | _ | _ | _ | _ | (_ | _ | _ | _ | _ | _ | _ | (_ | _ | _ | _ | _)) <;>
    exact Nat.ne_of_beq_eq_false rfl

theorem BinaryOp.prec_lt (op : BinaryOp) : op.prec < Prec.unary := by
  rcases op with _ | _ | _ | _ | _ | (_ | _ | _ | _ | _ | _ | _ | (_ | _ | _ | _ | _)) <;>
    exact Nat.lt_of_sub_eq_succ rfl

theorem Stops.ends {least : Nat} {cs : List Char} {e : Expr} (h : Stops least cs)
    (hle : least ≤ e.prec) (hne : least ≠ Prec.conditional) :
    e.Ends cs := by
  cases e with
  | prefixed p op e => exact h.mono hle
  | binary p op l r => exact h.mono (Nat.le_trans hle op.prec_le_operandPrec)
  | cond p c y z => exact h.mono (Nat.le_of_lt_succ (Nat.lt_of_le_of_ne hle hne))
  | _ => exact h.bounded

/-- In front of an operator of strength `p`, where at least `k` is asked for. -/
theorem Expr.ends_left {cs : List Char} {e : Expr} {p k : Nat}
    (h : ∀ least, p < least → Stops least cs) (hp : p < Prec.unary) (hpk : p ≤ k)
    (hk : Prec.conditional < k) (hle : k ≤ e.prec) :
    e.Ends cs := by
  cases e with
  | prefixed q op e => exact h _ hp
  | binary q op l r =>
    refine h _ (Nat.lt_of_le_of_lt hpk (Nat.lt_of_le_of_lt hle ?_))
    cases op with
    | assign | assignWith
    | comma =>
      exact absurd (Nat.lt_of_lt_of_le hk hle) (Nat.not_lt_of_le (Nat.le_of_ble_eq_true rfl))
    | _ => exact Nat.lt_succ_self _
  | cond q c y z => exact absurd hk (Nat.not_lt_of_le hle)
  | _ => exact (h _ (Nat.lt_succ_self p)).bounded

theorem Reading.Bounded.ends {cs : List Char} {e : Expr} (h : Bounded cs)
    (hle : Prec.update ≤ e.prec) : e.Ends cs := by
  cases e with
  | prefixed p op e => exact absurd hle (Nat.not_succ_le_self Prec.unary)
  | binary p op l r => exact absurd (Nat.lt_of_le_of_lt hle op.prec_lt) (by decide)
  | cond p c y z => exact absurd hle (show ¬ Prec.update ≤ Prec.conditional by decide)
  | _ => exact h

/-! ## Reading parts -/

section

variable {lookup : String → Expr} {least : Nat} {cs : List Char}

theorem startsWith_singleton {s : String} {c : Char} {cs : List Char} (hs : s.toList = c :: cs)
    {x : String} {d : Char} (hx : x.toList = [d]) :
    s.startsWith x = (c == d) := by
  rw [Bool.eq_iff_iff, String.startsWith_string_iff, hs, hx, beq_iff_eq, List.cons_prefix_cons]
  exact ⟨fun h => h.1.symm, fun h => ⟨h.symm, List.nil_prefix⟩⟩

section

variable {c d : Char} {rest : List Char} {twice once : PrefixOp}

theorem skipBlank_apart (apart : Bool) (h : Opens rest) :
    skipBlank ((if apart then " " else "").toList ++ rest) = rest := by
  cases apart
  · exact h.skipBlank
  · rfl

theorem readSign_twice (apart : Bool) (h : Opens rest) :
    readSign d twice once (d :: ((if apart then " " else "").toList ++ rest)) = (twice, rest) := by
  rw [readSign, List.head?_cons, if_pos rfl, List.tail_cons, skipBlank_apart apart h]

/-- A sign does not come twice where the operand is set apart from it. -/
theorem readSign_once (h : Opens (c :: rest)) (hd : d ≠ ' ') :
    readSign d twice once ((if c == d then " " else "").toList ++ c :: rest) =
      (once, c :: rest) := by
  rw [readSign, if_neg, skipBlank_apart _ h]
  cases hc : c == d with
  | true => exact fun heq => hd (Option.some.inj heq).symm
  | false => exact fun heq => ne_of_beq_false hc (Option.some.inj heq)

end

/-- Words that are operators are found among those that are not. -/
theorem readPrefix_ident {x : String} (h : isIdent x = true) (hcs : Bounded cs) :
    readPrefix (x.toList ++ cs) =
      ([PrefixOp.typeof, .delete, .void].find? (·.symbol = x)).map (·, skipBlank cs) := by
  have hword := word_append (ident_part h) hcs
  obtain ⟨c, rest, heq, hc, -⟩ := ident_cons h
  rw [heq] at hword ⊢
  unfold readPrefix
  split
  all_goals try exact absurd (List.cons.inj ‹_›).1 (isIdentStart_ne hc rfl)
  rw [hword]

theorem readPrefix_word (op : PrefixOp) (h : op ∈ [PrefixOp.typeof, .delete, .void])
    (cs : List Char) :
    readPrefix (op.symbol.toList ++ ' ' :: cs) = some (op, cs) := by
  have hident : ∀ op ∈ [PrefixOp.typeof, .delete, .void], isIdent op.symbol = true := by decide
  have hfind : ∀ op ∈ [PrefixOp.typeof, .delete, .void],
    [PrefixOp.typeof, .delete, .void].find? (·.symbol = op.symbol) = some op := by decide
  have hblank : Bounded (' ' :: cs) := .of_head rfl cs
  rw [readPrefix_ident (hident op h) hblank, hfind op h]
  rfl

theorem readPrefix_prefixed (op : PrefixOp) {s : String} (hs : Opens s.toList) (cs : List Char) :
    readPrefix ((Print.prefixed op s).toList ++ cs) = some (op, s.toList ++ cs) := by
  have hrest := hs.append cs
  obtain ⟨c, rest, heq, -⟩ := hs
  have hminus := startsWith_singleton heq (x := "-") (d := '-') rfl
  have hplus := startsWith_singleton heq (x := "+") (d := '+') rfl
  have hblank : " ".toList = [' '] := rfl
  rw [heq] at hrest
  cases op <;> simp only [Print.prefixed, hminus, hplus, String.toList_append, List.append_assoc,
    heq, if_true, hblank, List.singleton_append]
  case inc => exact congrArg some (readSign_twice (c == '+') hrest)
  case dec => exact congrArg some (readSign_twice (c == '-') hrest)
  case plus => exact congrArg some (readSign_once hrest (by decide))
  case neg => exact congrArg some (readSign_once hrest (by decide))
  case not => rfl
  all_goals exact readPrefix_word _ (by decide) _

theorem readHead_ident {x : String} (h : isIdent x = true) (hx : x ∉ ["typeof", "delete", "void"])
    (hcs : Bounded cs) :
    readHead lookup (x.toList ++ cs) = some (wordExpr lookup x, cs) := by
  have hword := word_append (ident_part h) hcs
  have hfind : [PrefixOp.typeof, .delete, .void].find? (·.symbol = x) = none :=
    List.find?_eq_none.2 fun op hop heq =>
      hx (of_decide_eq_true heq ▸ List.mem_map_of_mem (f := PrefixOp.symbol) hop)
  have hop := readPrefix_ident h hcs
  rw [hfind] at hop
  obtain ⟨c, rest, heq, hc, -⟩ := ident_cons h
  rw [heq] at hword hop ⊢
  rw [readHead, Readers.head, reader_eq]
  unfold Readers.next
  dsimp only
  split
  all_goals try exact absurd (List.cons.inj ‹_›).1 (isIdentStart_ne hc rfl)
  rw [hop, hword]
  rfl

end

/-! ## Reading back -/

theorem BinaryOp.assign_le_prec {op : BinaryOp} (h : op ≠ .comma) : Prec.assign ≤ op.prec := by
  rcases op with _ | _ | _ | _ | _ | (_ | _ | _ | _ | _ | _ | _ | (_ | _ | _ | _ | _))
  case comma => exact absurd rfl h
  all_goals simp [BinaryOp.prec, EagerOp.prec, Prec.assign]

theorem Expr.assign_le_prec {e : Expr} (h : e.isComma = false) : Prec.assign ≤ e.prec := by
  cases e with
  | binary p op l r =>
    refine BinaryOp.assign_le_prec ?_
    rintro rfl
    cases h
  | literal p l =>
    cases l with
    | number x =>
      show Prec.assign ≤ if x < 0 then Prec.unary else Prec.primary
      split <;> decide
    | _ => exact Nat.le_of_ble_eq_true rfl
  | _ => exact Nat.le_of_ble_eq_true rfl

theorem Expr.not_comma {e : Expr} (h : Prec.assign ≤ e.prec) : e.isComma = false := by
  unfold Expr.isComma
  split
  · exact absurd h (show ¬ Prec.assign ≤ Prec.comma by decide)
  · rfl

/-- An expression is read back from its text. Behind it the reader goes on with what follows, or it
goes on with what follows the comma there. -/
structure Expr.Readable (lookup : String → Expr) (n : Nat) (e : Expr) : Prop where
  spine : e.isComma = false → ∀ least cs, least ≤ e.prec → e.Ends cs →
    readAt lookup least ((Print.expr st t e n).toList ++ cs) =
      readTail lookup least (e.canonical st t) cs
  terms : ∀ cs, Stops Prec.assign cs → readTerms lookup ((Print.expr st t e n).toList ++ cs) =
    (readMore lookup cs).map fun x => (e.terms st t ++ x.1, x.2)

namespace Expr.Readable

variable {st t} {lookup : String → Expr} {n least : Nat} {e : Expr} {cs : List Char}

theorem of_spine (hcomma : e.isComma = false) (h : ∀ least cs, least ≤ e.prec → e.Ends cs →
    readAt lookup least ((Print.expr st t e n).toList ++ cs) =
      readTail lookup least (e.canonical st t) cs) :
    e.Readable st t lookup n where
  spine _ := h
  terms cs hcs := by
    have hprec := assign_le_prec hcomma
    have hread := (h _ _ hprec (hcs.ends hprec (by decide))).trans (readTail_of_stops hcs _)
    rw [readTerms_of_at hread, terms_eq st t hcomma]
    rfl

/-- In front of an operator, in parentheses if it binds too loosely. -/
theorem operand (h : e.Readable st t lookup n) {k : Nat} (hk : Prec.assign ≤ k) (hle : least ≤ k)
    (hends : k ≤ e.prec → e.Ends cs) :
    readAt lookup least ((within k e.prec (Print.expr st t e n)).toList ++ cs) =
      readTail lookup least (e.canonical st t) cs := by
  unfold within
  split
  · have hread := h.terms (')' :: cs) (.closed rfl cs)
    rw [readMore_close (by decide), Option.map_some, List.append_nil] at hread
    rw [String.toList_append, String.toList_append, List.append_assoc, List.append_assoc]
    exact readAt_of_head (readHead_paren hread)
  · next hprec =>
    replace hprec := Nat.le_of_not_lt hprec
    exact h.spine (not_comma (Nat.le_trans hk hprec)) _ _ (Nat.le_trans hle hprec) (hends hprec)

/-- In front of a dot or a bracket. -/
theorem base (h : e.Readable st t lookup n) (hle : least ≤ Prec.member) {c : Char}
    (hc : isIdentPart c = false) (cs : List Char) :
    readAt lookup least ((within Prec.member e.prec (Print.expr st t e n)).toList ++ c :: cs) =
      readTail lookup least (e.canonical st t) (c :: cs) :=
  h.operand (by decide) hle fun hprec =>
    (Bounded.of_head hc cs).ends (Nat.le_trans (by decide) hprec)

/-- In a place that something closing follows, or an operator that binds more loosely. -/
theorem value (h : e.Readable st t lookup n) (hleast : Prec.assign ≤ least)
    (hne : least ≠ Prec.conditional) (hcs : Stops least cs) :
    readAt lookup least ((within least e.prec (Print.expr st t e n)).toList ++ cs) =
      some (e.canonical st t, cs) :=
  (h.operand hleast (Nat.le_refl _) fun hle => hcs.ends hle hne).trans (readTail_of_stops hcs _)

/-- Between brackets. -/
theorem closed (h : e.Readable st t lookup n) {c : Char} (hc : closing c = true) (hne : c ≠ ',') :
    readTerms lookup ((Print.expr st t e n).toList ++ c :: cs) = some (e.terms st t, c :: cs) := by
  rw [h.terms _ (.closed hc cs), readMore_close hne, Option.map_some, List.append_nil]

end Expr.Readable

section

variable {st t} {lookup : String → Expr} {n : Nat} {cs : List Char}

theorem readTerms_args {c : Char} (hc : closing c = true) (hne : c ≠ ',') :
    ∀ {e : Expr} {es : List Expr}, (∀ e' ∈ e :: es, e'.Readable st t lookup n) →
      readTerms lookup ((commaSep (args st t (e :: es) n)).toList ++ c :: cs) =
        some (exprsCanonical st t (e :: es), c :: cs)
  | e, [], h => by
    have hread := (h e List.mem_cons_self).value (Nat.le_refl _) (by decide) (.closed hc cs)
    rw [args, args, commaSep, String.intercalate_singleton, readTerms_of_at hread,
      readMore_close hne]
    rfl
  | e, e' :: es, h => by
    obtain ⟨he, hes⟩ := List.forall_mem_cons.1 h
    have hsep : commaSep (args st t (e :: e' :: es) n) =
        within Prec.assign e.prec (Print.expr st t e n) ++ ", " ++
      commaSep (args st t (e' :: es) n) := String.intercalate_cons_cons
    have hread := he.value (Nat.le_refl _) (by decide)
      (.closed (c := ',') rfl (' ' :: ((commaSep (args st t (e' :: es) n)).toList ++ c :: cs)))
    rw [hsep, String.toList_append, String.toList_append, List.append_assoc, List.append_assoc]
    refine (readTerms_of_at hread).trans ?_
    rw [readMore_comma, readTerms_args hc hne hes]
    rfl

theorem opens_args {e : Expr} {es : List Expr} (h : exprsPlain st t (e :: es) = true) :
    Opens (commaSep (args st t (e :: es) n)).toList := by
  have he := opens_within (e.opens st t n (Bool.and_eq_true_iff.1 h).1) Prec.assign e.prec
  cases es with
  | nil => rwa [args, args, commaSep, String.intercalate_singleton]
  | cons e' es =>
    rw [args, args, commaSep, String.intercalate_cons_cons, String.toList_append,
      String.toList_append]
    exact .append (.append he _) _

theorem readList_args {es : List Expr} (hplain : exprsPlain st t es = true)
    (h : ∀ e ∈ es, e.Readable st t lookup n) {c : Char} (hc : closing c = true) (hne : c ≠ ',') :
    readList lookup c ((commaSep (args st t es n)).toList ++ c :: cs) =
      some (exprsCanonical st t es, cs) := by
  cases es with
  | nil => exact readList_nil
  | cons e es =>
    refine readList_terms (((opens_args hplain).append _).head_ne ?_) (readTerms_args hc hne h)
    simp only [closing, Bool.or_eq_true, beq_iff_eq] at hc
    rcases hc with (((rfl | rfl) | rfl) | rfl) | rfl <;> rfl

theorem key_propertyKey (k : String) (cs : List Char) :
    key ((propertyKey k).toList ++ ':' :: cs) = some (k, ':' :: cs) := by
  rw [propertyKey_eq]
  cases hk : isIdent k with
  | true =>
    have hword := word_append (ident_part hk) (Bounded.of_head (c := ':') rfl cs)
    obtain ⟨c, rest, heq, hc, -⟩ := ident_cons hk
    rw [if_pos rfl]
    rw [heq] at hword ⊢
    unfold key
    split
    · next heq' => exact absurd (List.cons.inj heq').1 (isIdentStart_ne hc rfl)
    · rw [hword]
  | false =>
    rw [if_neg Bool.false_ne_true, toList_quote, List.cons_append, List.append_assoc]
    exact key_quoted k (':' :: cs)

theorem opens_propertyKey (k : String) : Opens (propertyKey k).toList := by
  rw [propertyKey_eq]
  cases hk : isIdent k with
  | true => exact opens_ident hk
  | false =>
    rw [if_neg Bool.false_ne_true, toList_quote]
    exact ⟨_, _, rfl, rfl⟩

theorem readProperties_print :
    ∀ {p : Property} {ps : List Property}, (∀ p' ∈ p :: ps, p'.value.Readable st t lookup n) →
    readProperties lookup ((commaSep (properties st t (p :: ps) n)).toList ++ '\x7d' :: cs) =
      some (propertiesCanonical st t (p :: ps), cs)
  | ⟨k, e⟩, [], h => by
    have hread :=
      (h _ List.mem_cons_self).value (Nat.le_refl _) (by decide) (.closed (c := '\x7d') rfl cs)
    rw [properties, properties, commaSep, String.intercalate_singleton, String.toList_append,
      String.toList_append, List.append_assoc, List.append_assoc]
    exact readProperties_last (key_propertyKey k _) hread
  | ⟨k, e⟩, p :: ps, h => by
    obtain ⟨he, hps⟩ := List.forall_mem_cons.1 h
    have hsep : commaSep (properties st t (⟨k, e⟩ :: p :: ps) n) =
      propertyKey k ++ ": " ++ within Prec.assign e.prec (Print.expr st t e n) ++ ", " ++
        commaSep (properties st t (p :: ps) n) := by
      rw [properties]
      obtain ⟨k', e'⟩ := p
      rw [properties]
      exact String.intercalate_cons_cons
    have hread := he.value (Nat.le_refl _) (by decide)
      (.closed (c := ',') rfl
        (' ' :: ((commaSep (properties st t (p :: ps) n)).toList ++ '\x7d' :: cs)))
    simp only [hsep, String.toList_append, List.append_assoc]
    exact readProperties_cons (key_propertyKey k _) hread (readProperties_print hps)

theorem opens_properties (p : Property) (ps : List Property) :
    Opens (commaSep (properties st t (p :: ps) n)).toList := by
  obtain ⟨k, e⟩ := p
  rcases ps with _ | ⟨⟨k', e'⟩, ps⟩
  · rw [properties, properties, commaSep, String.intercalate_singleton, String.append_assoc,
      String.toList_append]
    exact .append (opens_propertyKey k) _
  · simp only [properties, commaSep, String.intercalate_cons_cons, String.append_assoc,
      String.toList_append]
    exact .append (opens_propertyKey k) _

theorem readObject_print {ps : List Property} (h : ∀ p ∈ ps, p.value.Readable st t lookup n) :
    readObject lookup ((commaSep (properties st t ps n)).toList ++ '\x7d' :: cs) =
      some (propertiesCanonical st t ps, cs) := by
  cases ps with
  | nil => exact readObject_nil
  | cons p ps =>
    exact (readObject_properties (((opens_properties p ps).append _).head_ne rfl)).trans
      (readProperties_print h)

end

/-- The name that a node is. -/
def Node.name? : Node → Option MemberName
  | .expr (.var _ s) => some (.symbol s)
  | .expr (.bare _ x) => some (.property x)
  | _ => none

/-- A name as an expression. -/
def MemberName.toExpr : MemberName → Expr
  | .symbol s => .var .synthetic s
  | .property x => .bare .synthetic x

/-- Names are found by what they are called. -/
def Finds (lookup : String → Expr) (ns : List Node) : Prop :=
  ∀ m ∈ ns, ∀ a, m.name? = some a → lookup (a.text st t) = a.toExpr

section

variable {st t} {lookup : String → Expr} {n : Nat}

theorem readHead_name {x : String} (h : isName x = true) {cs : List Char} (hcs : Bounded cs) :
    readHead lookup (x.toList ++ cs) = some (lookup x, cs) := by
  obtain ⟨hident, hreserved⟩ := Bool.and_eq_true_iff.1 h
  replace hreserved : x ∉ reserved := by simpa using hreserved
  rw [readHead_ident hident
    (fun hx => hreserved (List.mem_append_left ["true", "false", "null"] hx)) hcs, wordExpr, if_neg,
    if_neg, if_neg]
  all_goals
    rintro rfl
    exact hreserved (by decide)

theorem Print.binary_eq {op : BinaryOp} (h : op ≠ .comma) (l r : String) :
    Print.binary op l r = l ++ " " ++ op.symbol ++ " " ++ r := by
  cases op with
  | comma => exact absurd rfl h
  | _ => rfl

theorem Expr.canonical_binary {op : BinaryOp} (h : op ≠ .comma) (p : Position) (l r : Expr) :
    (Expr.binary p op l r).canonical st t =
      .binary .synthetic op (l.canonical st t) (r.canonical st t) := by
  cases op with
  | comma => exact absurd rfl h
  | _ => rfl

theorem Expr.comma_le_prec (e : Expr) : Prec.comma ≤ e.prec := by
  cases hc : e.isComma with
  | false => exact Nat.le_trans (by decide) (assign_le_prec hc)
  | true =>
    unfold Expr.isComma at hc
    split at hc
    · exact Nat.le_refl _
    · cases hc

theorem Expr.update_le_prec {e : Expr} (h : e.isReference = true) : Prec.update ≤ e.prec := by
  unfold Expr.isReference at h
  split at h
  all_goals first | exact Nat.le_of_ble_eq_true rfl | cases h

theorem Expr.readable_comma {l r : Expr} (hl : l.Readable st t lookup n)
    (hr : r.Readable st t lookup n) (p : Position) :
    (Expr.binary p .comma l r).Readable st t lookup n where
  spine h := by cases h
  terms cs hcs := by
    have hall (e : Expr) (s : String) : within Prec.comma e.prec s = s :=
      if_neg (Nat.not_lt_of_le e.comma_le_prec)
    have htext : Print.expr st t (.binary p .comma l r) n =
        Print.expr st t l n ++ ", " ++ Print.expr st t r n := by
      rw [Print.expr, Print.binary, BinaryOp.operandPrec, hall, hall]
    simp only [htext, String.toList_append, String.reduceToList, List.append_assoc,
      List.cons_append, List.nil_append]
    refine (hl.terms _ (.closed rfl _)).trans ?_
    rw [readMore_comma, hr.terms cs hcs, Option.map_map, Expr.terms]
    simp only [List.append_assoc]
    rfl

/-- What follows the left operand ends it, unless that is in parentheses. -/
theorem Expr.ends_operand {op : BinaryOp} {l : Expr} (hop : op ≠ .comma)
    (htarget : l.isReference = true ∨ op.isAssignment = false) (hle : op.operandPrec.1 ≤ l.prec)
    (cs : List Char) :
    l.Ends (' ' :: (op.symbol.toList ++ ' ' :: cs)) := by
  rcases htarget with hl | hop'
  · exact (Bounded.of_head rfl _).ends (Expr.update_le_prec hl)
  · have hk : op.operandPrec.1 = op.prec ∧ Prec.conditional < op.prec := by
      rcases op with _ | _ | _ | _ | _ | (_ | _ | _ | _ | _ | _ | _ | (_ | _ | _ | _ | _))
      case comma => exact absurd rfl hop
      case assign | assignWith => cases hop'
      all_goals exact ⟨rfl, Nat.lt_of_sub_eq_succ rfl⟩
    rw [hk.1] at hle
    exact Expr.ends_left (fun _ => .op) op.prec_lt (Nat.le_refl _) hk.2 hle

theorem BinaryOp.prec_le_left {op : BinaryOp} (hop : op ≠ .comma) : op.prec ≤ op.operandPrec.1 := by
  cases op with
  | comma => exact absurd rfl hop
  | assign | assignWith => exact Nat.le_of_ble_eq_true rfl
  | _ => exact Nat.le_refl _

theorem Expr.readable_binary {op : BinaryOp} {l r : Expr} (hl : l.Readable st t lookup n)
    (hr : r.Readable st t lookup n) (hop : op ≠ .comma)
    (htarget : l.isReference = true ∨ op.isAssignment = false) (p : Position) :
    (Expr.binary p op l r).Readable st t lookup n := by
  have hprec := op.assign_le_prec hop
  refine .of_spine (Expr.not_comma hprec) fun least cs hle hends => ?_
  have hvalue :=
    hr.value (Nat.le_trans hprec op.prec_le_operandPrec) op.operandPrec_ne
    (show Stops _ cs from hends)
  have hleft := op.prec_le_left hop
  rw [Print.expr, Print.binary_eq hop, Expr.canonical_binary hop]
  simp only [String.toList_append, String.reduceToList, List.append_assoc, List.cons_append,
    List.nil_append]
  refine (hl.operand (Nat.le_trans hprec hleft) (Nat.le_trans hle hleft) fun hk => Expr.ends_operand
    hop htarget hk _).trans ?_
  exact (readTail_operator (readInfix_op op _) hle _).trans (readOperands_op hvalue)

mutual

theorem Expr.readable : ∀ e : Expr, e.isPlain st t = true → Finds st t lookup e.nodes →
    e.Readable st t lookup n
  | .var p s, h, hfinds => .of_spine rfl fun least cs _ hends => by
    rw [Print.expr]
    refine (readAt_of_head (readHead_name h hends)).trans ?_
    rw [show lookup (st.name t s) = _ from hfinds _ List.mem_cons_self (.symbol s) rfl]
    rfl
  | .bare p x, h, hfinds => .of_spine rfl fun least cs _ hends => by
    rw [Print.expr]
    refine (readAt_of_head (readHead_name h hends)).trans ?_
    rw [show lookup x = _ from hfinds _ List.mem_cons_self (.property x) rfl]
    rfl
  | .member p q x, h, hfinds => .of_spine rfl fun least cs hle hends => by
    obtain ⟨hq, hx⟩ := Bool.and_eq_true_iff.1 h
    have hq := q.readable hq (List.forall_mem_cons.1 hfinds).2
    simp only [Print.expr_member, String.toList_append, String.reduceToList, List.append_assoc,
      List.cons_append, List.nil_append]
    refine (hq.base hle rfl _).trans (readTail_dot.trans ?_)
    rw [word_append (ident_part hx) hends]
    rfl
  | .index p a i, h, hfinds => .of_spine rfl fun least cs hle hends => by
    obtain ⟨ha, hi⟩ := Bool.and_eq_true_iff.1 h
    obtain ⟨hfa, hfi⟩ := List.forall_mem_append.1 (List.forall_mem_cons.1 hfinds).2
    simp only [Print.expr, String.toList_append, String.reduceToList, List.append_assoc,
      List.cons_append, List.nil_append]
    refine ((a.readable ha hfa).base hle rfl _).trans ?_
    exact readTail_bracket ((i.readable hi hfi).closed rfl (by decide))
  | .call p f as, h, hfinds => .of_spine rfl fun least cs hle hends => by
    obtain ⟨hf, has⟩ := Bool.and_eq_true_iff.1 h
    obtain ⟨hff, hfas⟩ := List.forall_mem_append.1 (List.forall_mem_cons.1 hfinds).2
    simp only [Print.expr, parens, String.toList_append, String.reduceToList, List.append_assoc,
      List.cons_append, List.nil_append]
    refine ((f.readable hf hff).base hle rfl _).trans ?_
    exact readTail_paren (readList_args has (exprsReadable as has hfas) rfl (by decide))
  | .prefixed p op e, h, hfinds => .of_spine rfl fun least cs hle hends => by
    have he := (Bool.and_eq_true_iff.1 h).1
    have hread := (e.readable he (List.forall_mem_cons.1 hfinds).2).value (by decide) (by decide)
      (show Stops Prec.unary cs from hends)
    have hopens := opens_within (e.opens st t n he) Prec.unary e.prec
    rw [Print.expr]
    exact readAt_of_head (readHead_prefixed (readPrefix_prefixed op hopens cs) hread)
  | .postfixed p op e, h, hfinds => .of_spine rfl fun least cs hle hends => by
    have he := e.readable (Bool.and_eq_true_iff.1 h).1 (List.forall_mem_cons.1 hfinds).2
    have hsymbol : Bounded (op.symbol.toList ++ cs) := by cases op <;> exact .of_head rfl _
    rw [Print.expr, String.toList_append, List.append_assoc]
    exact (he.operand (k := Prec.update) (by decide) hle hsymbol.ends).trans (readTail_postfixed op)
  | .binary p op l r, h, hfinds => by
    obtain ⟨hlr, htarget⟩ := Bool.and_eq_true_iff.1 h
    obtain ⟨hl, hr⟩ := Bool.and_eq_true_iff.1 hlr
    obtain ⟨hfl, hfr⟩ := List.forall_mem_append.1 (List.forall_mem_cons.1 hfinds).2
    by_cases hop : op = .comma
    · subst hop
      exact Expr.readable_comma (l.readable hl hfl) (r.readable hr hfr) p
    · exact Expr.readable_binary (l.readable hl hfl) (r.readable hr hfr) hop
        (by simpa using htarget) p
  | .cond p c y z, h, hfinds => .of_spine rfl fun least cs hle hends => by
    obtain ⟨hcy, hz⟩ := Bool.and_eq_true_iff.1 h
    obtain ⟨hc, hy⟩ := Bool.and_eq_true_iff.1 hcy
    obtain ⟨hfc, hfyz⟩ := List.forall_mem_append.1 (List.forall_mem_cons.1 hfinds).2
    obtain ⟨hfy, hfz⟩ := List.forall_mem_append.1 hfyz
    simp only [Print.expr, String.toList_append, String.reduceToList, List.append_assoc,
      List.cons_append, List.nil_append]
    refine ((c.readable hc hfc).operand (k := Prec.conditional + 1) (by decide)
      (Nat.le_succ_of_le hle) fun hprec =>
      Expr.ends_left (fun _ => .cond) (by decide) (Nat.le_succ _) (Nat.lt_succ_self _) hprec).trans
        ?_
    refine (readTail_operator (readInfix_cond _) hle _).trans ?_
    exact readOperands_cond ((y.readable hy hfy).value (Nat.le_refl _) (by decide) .colon)
      ((z.readable hz hfz).value (Nat.le_refl _) (by decide) hends)
  | .literal p (.string s), h, hfinds => .of_spine rfl fun least cs hle hends => by
    rw [Print.expr, Print.literal, toList_quote, List.cons_append, List.append_assoc]
    exact readAt_of_head (readHead_quoted s)
  | .literal p (.bool b), h, hfinds => .of_spine rfl fun least cs hle hends => by
    rw [Print.expr]
    cases b
    · exact readAt_of_head ((readHead_ident (x := "false") (by decide) (by decide) hends).trans rfl)
    · exact readAt_of_head (readHead_ident (x := "true") (by decide) (by decide) hends)
  | .literal p .null, h, hfinds => .of_spine rfl fun least cs hle hends => by
    rw [Print.expr]
    exact readAt_of_head (readHead_ident (x := "null") (by decide) (by decide) hends)
  | .array p es, h, hfinds => .of_spine rfl fun least cs hle hends => by
    simp only [Print.expr, String.toList_append, String.reduceToList, List.append_assoc,
      List.cons_append, List.nil_append]
    exact readAt_of_head
      (readHead_bracket (readList_args h (exprsReadable es h (List.forall_mem_cons.1 hfinds).2) rfl
      (by decide)))
  | .object p ps, h, hfinds => .of_spine rfl fun least cs hle hends => by
    simp only [Print.expr, String.toList_append, String.reduceToList, List.append_assoc,
      List.cons_append, List.nil_append]
    exact readAt_of_head
      (readHead_brace
      (readObject_print (propertiesReadable ps h (List.forall_mem_cons.1 hfinds).2)))

theorem exprsReadable : ∀ es : List Expr, exprsPlain st t es = true →
    Finds st t lookup (exprsNodes es) → ∀ e ∈ es, e.Readable st t lookup n
  | [], _, _ => fun _ he => by cases he
  | e :: es, h, hfinds => by
    obtain ⟨he, hes⟩ := Bool.and_eq_true_iff.1 h
    obtain ⟨hfe, hfes⟩ := List.forall_mem_append.1 hfinds
    exact List.forall_mem_cons.2 ⟨e.readable he hfe, exprsReadable es hes hfes⟩

theorem propertiesReadable : ∀ ps : List Property, propertiesPlain st t ps = true →
    Finds st t lookup (propertiesNodes ps) → ∀ p ∈ ps, p.value.Readable st t lookup n
  | [], _, _ => fun _ hp => by cases hp
  | ⟨k, e⟩ :: ps, h, hfinds => by
    obtain ⟨he, hps⟩ := Bool.and_eq_true_iff.1 h
    obtain ⟨hfe, hfps⟩ := List.forall_mem_append.1 hfinds
    exact List.forall_mem_cons.2 ⟨e.readable he hfe, propertiesReadable ps hps hfps⟩

end

end

/-! ## One expression for a text -/

/-- The names in an expression, those of symbols and others. -/
def Expr.names (e : Expr) : List MemberName := e.nodes.filterMap Node.name?

/-- Distinct names can be found by what they are called. -/
theorem exists_finds {as : List MemberName}
    (h : ∀ a ∈ as, ∀ b ∈ as, a.text st t = b.text st t → a = b) :
    ∃ lookup, ∀ e : Expr, e.names ⊆ as → Finds st t lookup e.nodes := by
  refine ⟨fun x => ((as.find? (·.text st t = x)).map (·.toExpr)).getD (.null .synthetic),
    fun e he m hm a ha => ?_⟩
  have hmem : a ∈ as := he (List.mem_filterMap.2 ⟨m, hm, ha⟩)
  obtain ⟨b, hb⟩ : ∃ b, as.find? (·.text st t = a.text st t) = some b :=
    Option.isSome_iff_exists.1 (List.find?_isSome.2 ⟨a, hmem, decide_eq_true rfl⟩)
  have htext : b.text st t = a.text st t := by simpa using List.find?_some hb
  have hsame : b = a := h b (List.mem_of_find?_eq_some hb) a hmem htext
  dsimp only
  rw [hb, hsame]
  rfl

theorem Expr.print_eq_ok {e : Expr} {text : String} (h : e.print st t = .ok text) :
    Print.expr st t e 0 = text := by
  unfold Expr.print at h
  cases hcheck : t.check e.nodes with
  | error d =>
    rw [hcheck] at h
    cases h
  | ok u =>
    rw [hcheck] at h
    exact Except.ok.inj h

/-- Two expressions that are printed alike are the same, up to places in the source, the grouping of
commas and whether members are named by symbol or by text. -/
theorem Expr.canonical_eq_of_print {e e' : Expr} (he : e.isPlain st t = true)
    (he' : e'.isPlain st t = true)
    (hnames : ∀ a ∈ e.names ++ e'.names, ∀ b ∈ e.names ++ e'.names, a.text st t = b.text st t →
      a = b)
    {text : String} (h : e.print st t = .ok text) (h' : e'.print st t = .ok text) :
    e.canonical st t = e'.canonical st t := by
  obtain ⟨lookup, hfinds⟩ := exists_finds st t hnames
  have hread {e : Expr} (he : e.isPlain st t = true) (hsub : Finds st t lookup e.nodes)
      (h : e.print st t = .ok text) :
      readTerms lookup text.toList = some (e.terms st t, []) := by
    have hterms := (e.readable (n := 0) he hsub).terms [] .nil
    rwa [Expr.print_eq_ok st t h, readMore_nil, Option.map_some, List.append_nil,
      List.append_nil] at hterms
  have hterms := (hread he (hfinds e (List.subset_append_left ..)) h).symm.trans
    (hread he' (hfinds e' (List.subset_append_right ..)) h')
  exact congrArg inCommas (Prod.mk.inj (Option.some.inj hterms)).1

/-- `- -x, $stack.$stackDepth[y = typeof z], a ? b : "q"`, grouped to the left, with a member named
by symbol. -/
def chained : Expr :=
  let p : Position := ⟨"lib/a.js", 1⟩
  .comma p (.comma p (.prefixed p .neg (.prefixed p .neg (.bare p "x")))
    (.index p (.member p (.var p ⟨0⟩) (.symbol ⟨1⟩))
      (.assign p (.bare p "y") (.prefixed p .typeof (.bare p "z")))))
    (.cond p (.bare p "a") (.bare p "b") (.string p "q"))

/-- The same grouped to the right, with a member named by text. -/
def rechained : Expr :=
  let p : Position := ⟨"lib/b.js", 2⟩
  .comma p (.prefixed p .neg (.prefixed p .neg (.bare p "x"))) (.comma p
    (.index p (.member p (.var p ⟨0⟩) (.property "$stackDepth"))
      (.assign p (.bare p "y") (.prefixed p .typeof (.bare p "z"))))
    (.cond p (.bare p "a") (.bare p "b") (.string p "q")))

end

theorem chained_printed : chained.isPlain {} .initial = true ∧
    rechained.isPlain {} .initial = true ∧
    (∀ a ∈ chained.names ++ rechained.names, ∀ b ∈ chained.names ++ rechained.names,
      a.text {} .initial = b.text {} .initial → a = b) ∧
    chained.print {} .initial = .ok "- -x, $stack.$stackDepth[y = typeof z], a ? b : \"q\"" ∧
    rechained.print {} .initial = .ok "- -x, $stack.$stackDepth[y = typeof z], a ? b : \"q\"" := by
  decide +kernel

theorem Expr.canonical_eq_of_print_chained : chained.isPlain {} .initial = true ∧
    rechained.isPlain {} .initial = true ∧
    chained.canonical {} .initial = rechained.canonical {} .initial := by
  obtain ⟨he, he', hnames, h, h'⟩ := chained_printed
  exact ⟨he, he', Expr.canonical_eq_of_print {} .initial he he' hnames h h'⟩

end FrameLedger
