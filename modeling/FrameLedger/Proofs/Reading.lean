import FrameLedger.Print.Tree
import Mathlib

/-!
# Reading expressions

A reader for printed expressions. It takes an operand first and then, as long as they bind as
strongly as its place asks for, the operators that stand behind it. Names are looked up; what a
member is called is taken as it stands.
-/

namespace FrameLedger

/-! ## Words -/

namespace Reading

def expect : List Char → List Char → Option (List Char)
  | [], cs => some cs
  | c :: w, c' :: cs => if c = c' then expect w cs else none
  | _ :: _, [] => none

@[simp] theorem expect_append (w cs : List Char) : expect w (w ++ cs) = some cs := by
  induction w with
  | nil => rfl
  | cons c w ih => rw [List.cons_append, expect, if_pos rfl, ih]

def word (cs : List Char) : String × List Char :=
  (String.ofList (cs.takeWhile Print.isIdentPart), cs.dropWhile Print.isIdentPart)

/-- What stands behind a word that it does not go on with. -/
def Bounded (cs : List Char) : Prop := ∀ c ∈ cs.head?, Print.isIdentPart c = false

theorem Bounded.of_head {c : Char} (h : Print.isIdentPart c = false) (cs : List Char) :
    Bounded (c :: cs) :=
  fun _ hc => Option.some.inj hc ▸ h

theorem word_append {w : String} {cs : List Char} (hw : ∀ c ∈ w.toList, Print.isIdentPart c = true)
    (hcs : Bounded cs) :
    word (w.toList ++ cs) = (w, cs) := by
  rw [word, List.takeWhile_append_of_pos hw, List.dropWhile_append_of_pos hw]
  cases cs with
  | nil => simp
  | cons c cs =>
    have hc : Print.isIdentPart c = false := hcs c rfl
    simp [hc]

def unescape : Char → Char
  | 'n' => '\n'
  | 't' => '\t'
  | 'r' => '\r'
  | c => c

/-- The rest of a string, behind the opening quote. -/
def quoted : List Char → Option (List Char × List Char)
  | '\\' :: c :: cs => (quoted cs).map fun x => (unescape c :: x.1, x.2)
  | '"' :: cs => some ([], cs)
  | c :: cs => (quoted cs).map fun x => (c :: x.1, x.2)
  | [] => none

theorem quoted_escape (s cs : List Char) :
    quoted (s.flatMap Print.escapeChar ++ '"' :: cs) = some (s, cs) := by
  induction s with
  | nil => rfl
  | cons c s ih =>
    rw [List.flatMap_cons, List.append_assoc]
    generalize s.flatMap Print.escapeChar ++ '"' :: cs = rest at ih
    unfold Print.escapeChar
    split
    all_goals simp_all [quoted, unescape]

def skipBlank : List Char → List Char
  | ' ' :: cs => cs
  | cs => cs

/-- Behind a sign, which may come twice. -/
def readSign (c : Char) (twice once : PrefixOp) (cs : List Char) : PrefixOp × List Char :=
  if cs.head? = some c then (twice, skipBlank cs.tail) else (once, skipBlank cs)

/-- An operator before its operand. -/
def readPrefix : List Char → Option (PrefixOp × List Char)
  | '+' :: cs => some (readSign '+' .inc .plus cs)
  | '-' :: cs => some (readSign '-' .dec .neg cs)
  | '!' :: cs => some (.not, cs)
  | cs => ([.typeof, .delete, .void].find? (·.symbol = (word cs).1)).map (·, skipBlank (word cs).2)

/-- An operator between operands; none for `?`. -/
def readInfix (cs : List Char) : Option (Option BinaryOp × List Char) :=
  (expect [' '] cs).bind fun cs =>
    (expect [' '] (cs.dropWhile (· != ' '))).bind fun rest =>
      let w := cs.takeWhile (· != ' ')
      (if w = ['?'] then some none else (BinaryOp.all.find? (·.symbol.toList = w)).map some).map
        (·, rest)

def infixPrec : Option BinaryOp → Nat
  | none => Prec.conditional
  | some op => op.prec

/-- Expressions with commas between. -/
def inCommas : List Expr → Expr
  | [] => .null .synthetic
  | [e] => e
  | e :: es => .comma .synthetic e (inCommas es)

def key (cs : List Char) : Option (String × List Char) :=
  match cs with
  | '"' :: cs => (quoted cs).map fun x => (String.ofList x.1, x.2)
  | cs => some (word cs)

theorem key_quoted (s : String) (cs : List Char) :
    key ('"' :: (s.toList.flatMap Print.escapeChar ++ '"' :: cs)) = some (s, cs) := by
  simp [key, quoted_escape]

def wordExpr (lookup : String → Expr) (w : String) : Expr :=
  if w = "true" then .bool .synthetic true
  else if w = "false" then .bool .synthetic false
  else if w = "null" then .null .synthetic
  else lookup w

/-! ## Answers that settle -/

/-- Answers that stay once they are there, and what they come to. -/
def Settles {α : Type} (f : Nat → Option α) (a : Option α) : Prop :=
  (∀ n, ∀ x ∈ f n, x ∈ f (n + 1)) ∧ ∀ x, x ∈ a ↔ ∃ n, x ∈ f n

open Classical in
noncomputable def limit {α : Type} (f : Nat → Option α) : Option α :=
  if h : ∃ a, Settles f a then h.choose else none

namespace Settles

variable {α β : Type} {f : Nat → Option α} {a b : Option α}

theorem mono (hf : ∀ n, ∀ x ∈ f n, x ∈ f (n + 1)) {m n : Nat} (hle : m ≤ n) {x : α} (hx : x ∈ f m) :
    x ∈ f n := by
  induction hle with
  | refl => exact hx
  | step _ ih => exact hf _ _ ih

theorem limit (hf : ∀ n, ∀ x ∈ f n, x ∈ f (n + 1)) : Settles f (limit f) := by
  have hex : ∃ a, Settles f a := by
    by_cases h : ∃ n x, x ∈ f n
    · obtain ⟨n, x, hx⟩ := h
      refine ⟨f n, hf, fun y => ⟨fun hy => ⟨n, hy⟩, fun ⟨k, hy⟩ => ?_⟩⟩
      -- two answers are found at one point, so there is only one
      obtain rfl := Option.mem_unique (mono hf (le_max_left n k) hx) (mono hf (le_max_right n k) hy)
      exact hx
    · exact ⟨none, hf, fun y => ⟨fun hy => (by cases hy), fun ⟨k, hy⟩ => absurd ⟨k, y, hy⟩ h⟩⟩
  rw [Reading.limit, dif_pos hex]
  exact hex.choose_spec

theorem const (a : Option α) : Settles (fun _ => a) a :=
  ⟨fun _ _ hx => hx, fun _ => ⟨fun hx => ⟨0, hx⟩, fun ⟨_, hx⟩ => hx⟩⟩

theorem bind {g : Nat → α → Option β} {h : α → Option β} (hf : Settles f a)
    (hg : ∀ x, Settles (g · x) (h x)) :
    Settles (fun n => f n >>= g n) (a >>= h) := by
  constructor
  · intro n y hy
    obtain ⟨x, hx, hy⟩ := Option.mem_bind_iff.1 hy
    exact Option.mem_bind_iff.2 ⟨x, hf.1 n x hx, (hg x).1 n y hy⟩
  · refine fun y => ⟨fun hy => ?_, fun ⟨n, hy⟩ => ?_⟩
    · obtain ⟨x, hx, hy⟩ := Option.mem_bind_iff.1 hy
      obtain ⟨m, hm⟩ := (hf.2 x).1 hx
      obtain ⟨n, hn⟩ := ((hg x).2 y).1 hy
      exact ⟨max m n,
        Option.mem_bind_iff.2
        ⟨x, mono hf.1 (le_max_left m n) hm, mono (hg x).1 (le_max_right m n) hn⟩⟩
    · obtain ⟨x, hx, hy⟩ := Option.mem_bind_iff.1 hy
      exact Option.mem_bind_iff.2 ⟨x, (hf.2 x).2 ⟨n, hx⟩, ((hg x).2 y).2 ⟨n, hy⟩⟩

/-- What answers come to is what they come to from the second on. -/
theorem eq_of_shift (ha : Settles f a) (hb : Settles (fun n => f (n + 1)) b) : a = b :=
  Option.ext fun x => (ha.2 x).trans <| Iff.trans
    ⟨fun ⟨n, hx⟩ => ⟨n, ha.1 n x hx⟩, fun ⟨n, hx⟩ => ⟨n + 1, hx⟩⟩ (hb.2 x).symm

end Settles

section

variable {T : Type} {R : T → Type}

/-- Answers to questions, of a kind that depends on the question. -/
abbrev Answers (R : T → Type) := ∀ t, Option (R t)

/-- From answers that settle, answers are made that settle. -/
def Steady (F : Answers R → Answers R) : Prop :=
  ∀ (f : Nat → Answers R) (r : Answers R), (∀ t, Settles (f · t) (r t)) →
    ∀ t, Settles (fun n => F (f n) t) (F r t)

/-- Answers that are found in so many rounds. -/
def inRounds (F : Answers R → Answers R) : Nat → Answers R
  | 0 => fun _ => none
  | n + 1 => F (inRounds F n)

noncomputable def answers (F : Answers R → Answers R) : Answers R :=
  fun t => limit fun n => inRounds F n t

theorem Steady.mono {F : Answers R → Answers R} (hF : Steady F) (n : Nat) :
    ∀ t, ∀ x ∈ inRounds F n t, x ∈ inRounds F (n + 1) t := by
  induction n with
  | zero => exact fun _ x hx => by cases hx
  | succ n ih =>
    intro t
    have hsettles : ∀ t, Settles (fun k => (if k = 0 then inRounds F n else inRounds F (n + 1)) t)
        (inRounds F (n + 1) t) := by
      refine fun t => ⟨fun k x hx => ?_, fun x => ⟨fun hx => ⟨1, hx⟩, fun ⟨k, hx⟩ => ?_⟩⟩
      all_goals
        cases k with
        | zero => exact ih t x hx
        | succ k => exact hx
    exact (hF _ _ hsettles t).1 0

theorem Steady.answers_eq {F : Answers R → Answers R} (hF : Steady F) (t : T) :
    answers F t = F (answers F) t :=
  have hsettles (t : T) : Settles (inRounds F · t) (answers F t) := .limit fun n => hF.mono n t
  (hsettles t).eq_of_shift (hF _ _ hsettles t)

end

/-! ## Readers -/

/-- What is read: the start of an expression, what stands behind it if it binds strongly enough,
expressions with commas between and what stands between braces. -/
inductive Part where
  | head (cs : List Char)
  | tail (least : Nat) (e : Expr) (cs : List Char)
  | terms (cs : List Char)
  | properties (cs : List Char)

/-- What is found, and what is left. -/
abbrev Part.Found : Part → Type
  | .head _ | .tail .. => Expr × List Char
  | .terms _ => List Expr × List Char
  | .properties _ => List Property × List Char

abbrev Readers := Answers Part.Found

section

variable (lookup : String → Expr)

namespace Readers

variable (r : Readers)

abbrev head (cs : List Char) : Option (Expr × List Char) := r (.head cs)

abbrev tail (least : Nat) (e : Expr) (cs : List Char) : Option (Expr × List Char) :=
  r (.tail least e cs)

abbrev terms (cs : List Char) : Option (List Expr × List Char) := r (.terms cs)

abbrev properties (cs : List Char) : Option (List Property × List Char) := r (.properties cs)

/-- An expression that binds at least as strongly as is asked for. -/
def level (least : Nat) (cs : List Char) : Option (Expr × List Char) := do
  let x ← r.head cs
  r.tail least x.1 x.2

/-- What stands behind an operator and what follows it. -/
def operands (least : Nat) (e : Expr) (op : Option BinaryOp) (cs : List Char) :
    Option (Expr × List Char) :=
  match op with
  | some op => do
    let x ← r.level op.operandPrec.2 cs
    r.tail least (.binary .synthetic op e x.1) x.2
  | none => do
    let x ← r.level Prec.assign cs
    let rest ← expect [' ', ':', ' '] x.2
    let y ← r.level Prec.assign rest
    r.tail least (.cond .synthetic e x.1 y.1) y.2

def more (cs : List Char) : Option (List Expr × List Char) :=
  match cs with
  | ',' :: ' ' :: cs => r.terms cs
  | cs => some ([], cs)

def list (close : Char) (cs : List Char) : Option (List Expr × List Char) :=
  if cs.head? = some close then some ([], cs.tail)
  else do
    let x ← r.terms cs
    return (x.1, ← expect [close] x.2)

def object (cs : List Char) : Option (List Property × List Char) :=
  if cs.head? = some '\x7d' then some ([], cs.tail) else r.properties cs

/-- Readers that have others for the parts. -/
def next : Readers
  | .head cs =>
    match cs with
    | '"' :: cs => do
      let x ← quoted cs
      return (.string .synthetic (String.ofList x.1), x.2)
    | '(' :: cs => do
      let x ← r.terms cs
      return (inCommas x.1, ← expect [')'] x.2)
    | '[' :: cs => do
      let x ← r.list ']' cs
      return (.array .synthetic x.1, x.2)
    | '\x7b' :: cs => do
      let x ← r.object cs
      return (.object .synthetic x.1, x.2)
    | cs =>
      match readPrefix cs with
      | some (op, cs) => do
        let x ← r.level Prec.unary cs
        return (.prefixed .synthetic op x.1, x.2)
      | none => some (wordExpr lookup (word cs).1, (word cs).2)
  | .tail least e cs =>
    match cs with
    | '.' :: cs => r.tail least (.member .synthetic e (.property (word cs).1)) (word cs).2
    | '[' :: cs => do
      let x ← r.terms cs
      let rest ← expect [']'] x.2
      r.tail least (.index .synthetic e (inCommas x.1)) rest
    | '(' :: cs => do
      let x ← r.list ')' cs
      r.tail least (.call .synthetic e x.1) x.2
    | '+' :: '+' :: cs => r.tail least (.postfixed .synthetic .inc e) cs
    | '-' :: '-' :: cs => r.tail least (.postfixed .synthetic .dec e) cs
    | cs =>
      match readInfix cs with
      | none => some (e, cs)
      | some (op, rest) => if infixPrec op < least then some (e, cs) else r.operands least e op rest
  | .terms cs => do
    let x ← r.level Prec.assign cs
    let y ← r.more x.2
    return (x.1 :: y.1, y.2)
  | .properties cs => do
    let k ← key cs
    let rest ← expect [':', ' '] k.2
    let x ← r.level Prec.assign rest
    match x.2 with
    | ',' :: ' ' :: cs => do
      let y ← r.properties cs
      return (⟨k.1, x.1⟩ :: y.1, y.2)
    | cs => return ([⟨k.1, x.1⟩], ← expect ['\x7d'] cs)

section

variable {r} {f : Nat → Readers} (h : ∀ t, Settles (f · t) (r t))
include h

theorem settles_level (least : Nat) (cs : List Char) :
    Settles (fun n => (f n).level least cs) (r.level least cs) :=
  .bind (h (.head cs)) fun x => h (.tail least x.1 x.2)

theorem settles_operands (least : Nat) (e : Expr) (op : Option BinaryOp) (cs : List Char) :
    Settles (fun n => (f n).operands least e op cs) (r.operands least e op cs) := by
  cases op with
  | some op => exact .bind (settles_level h ..) fun x => h (.tail ..)
  | none =>
    exact .bind (settles_level h ..) fun x => .bind (.const _) fun rest =>
      .bind (settles_level h ..) fun y => h (.tail ..)

theorem settles_more (cs : List Char) : Settles (fun n => (f n).more cs) (r.more cs) := by
  unfold more
  split
  · exact h (.terms _)
  · exact .const _

theorem settles_list (close : Char) (cs : List Char) :
    Settles (fun n => (f n).list close cs) (r.list close cs) := by
  unfold list
  split
  · exact .const _
  · exact .bind (h (.terms cs)) fun x => .const _

theorem settles_object (cs : List Char) : Settles (fun n => (f n).object cs) (r.object cs) := by
  unfold object
  split
  · exact .const _
  · exact h (.properties cs)

end

theorem steady_next : Steady (next lookup) := by
  intro f r h t
  cases t with
  | head cs =>
    simp only [next]
    split
    · exact .const _
    · exact .bind (h (.terms _)) fun x => .const _
    · exact .bind (settles_list h ..) fun x => .const _
    · exact .bind (settles_object h _) fun x => .const _
    · split
      · exact .bind (settles_level h ..) fun x => .const _
      · exact .const _
  | tail least e cs =>
    simp only [next]
    split
    · exact h (.tail ..)
    · exact .bind (h (.terms _)) fun x => .bind (.const _) fun rest => h (.tail ..)
    · exact .bind (settles_list h ..) fun x => h (.tail ..)
    · exact h (.tail ..)
    · exact h (.tail ..)
    · split
      · exact .const _
      · split
        · exact .const _
        · exact settles_operands h ..
  | terms cs => exact .bind (settles_level h ..) fun x => .bind (settles_more h _) fun y => .const _
  | properties cs =>
    refine .bind (.const _) fun k => .bind (.const _) fun rest =>
      .bind (settles_level h ..) fun x => ?_
    split
    · exact .bind (h (.properties _)) fun y => .const _
    · exact .const _

end Readers

noncomputable abbrev reader : Readers := answers (Readers.next lookup)

noncomputable abbrev readAt (least : Nat) (cs : List Char) : Option (Expr × List Char) :=
  (reader lookup).level least cs

noncomputable abbrev readHead (cs : List Char) : Option (Expr × List Char) :=
  (reader lookup).head cs

noncomputable abbrev readTail (least : Nat) (e : Expr) (cs : List Char) :
    Option (Expr × List Char) :=
  (reader lookup).tail least e cs

noncomputable abbrev readOperands (least : Nat) (e : Expr) (op : Option BinaryOp) (cs : List Char) :
    Option (Expr × List Char) := (reader lookup).operands least e op cs

noncomputable abbrev readTerms (cs : List Char) : Option (List Expr × List Char) :=
  (reader lookup).terms cs

noncomputable abbrev readMore (cs : List Char) : Option (List Expr × List Char) :=
  (reader lookup).more cs

noncomputable abbrev readList (close : Char) (cs : List Char) : Option (List Expr × List Char) :=
  (reader lookup).list close cs

noncomputable abbrev readObject (cs : List Char) : Option (List Property × List Char) :=
  (reader lookup).object cs

noncomputable abbrev readProperties (cs : List Char) : Option (List Property × List Char) :=
  (reader lookup).properties cs

theorem reader_eq (t : Part) : reader lookup t = (reader lookup).next lookup t :=
  (Readers.steady_next lookup).answers_eq t

/-! ## What is read -/

variable {lookup} {least : Nat} {cs rest : List Char} {e x : Expr} {es : List Expr}

theorem readAt_of_head (h : readHead lookup cs = some (e, rest)) :
    readAt lookup least cs = readTail lookup least e rest :=
  congrArg (Option.bind · _) h

theorem readHead_quoted (s : String) :
    readHead lookup ('"' :: (s.toList.flatMap Print.escapeChar ++ '"' :: cs)) =
      some (.string .synthetic s, cs) := by
  rw [readHead, Readers.head, reader_eq]
  refine (congrArg (Option.bind · _) (quoted_escape s.toList cs)).trans ?_
  exact congrArg (fun s => some (Expr.string .synthetic s, cs)) String.ofList_toList

theorem readHead_paren (h : readTerms lookup cs = some (es, ')' :: rest)) :
    readHead lookup ('(' :: cs) = some (inCommas es, rest) := by
  rw [readHead, Readers.head, reader_eq]
  exact (congrArg (Option.bind · _) h).trans rfl

theorem readHead_bracket (h : readList lookup ']' cs = some (es, rest)) :
    readHead lookup ('[' :: cs) = some (.array .synthetic es, rest) := by
  rw [readHead, Readers.head, reader_eq]
  exact congrArg (Option.bind · _) h

theorem readHead_brace {ps : List Property} (h : readObject lookup cs = some (ps, rest)) :
    readHead lookup ('\x7b' :: cs) = some (.object .synthetic ps, rest) := by
  rw [readHead, Readers.head, reader_eq]
  exact congrArg (Option.bind · _) h

theorem readHead_prefixed {op : PrefixOp} (hop : readPrefix cs = some (op, rest))
    {rest' : List Char} (h : readAt lookup Prec.unary rest = some (x, rest')) :
    readHead lookup cs = some (.prefixed .synthetic op x, rest') := by
  rw [readHead, Readers.head, reader_eq]
  unfold Readers.next
  dsimp only
  split
  case h_5 =>
    rw [hop]
    exact congrArg (Option.bind · _) h
  all_goals exact absurd hop (by simp [readPrefix, word, Print.isIdentPart, PrefixOp.symbol])

theorem readTail_dot : readTail lookup least e ('.' :: cs) =
    readTail lookup least (.member .synthetic e (.property (word cs).1)) (word cs).2 :=
  reader_eq lookup _

theorem readTail_bracket (h : readTerms lookup cs = some (es, ']' :: rest)) :
    readTail lookup least e ('[' :: cs) = readTail lookup least (.index .synthetic e (inCommas es))
      rest := by
  rw [readTail, Readers.tail, reader_eq]
  exact (congrArg (Option.bind · _) h).trans rfl

theorem readTail_paren (h : readList lookup ')' cs = some (es, rest)) :
    readTail lookup least e ('(' :: cs) = readTail lookup least (.call .synthetic e es) rest := by
  rw [readTail, Readers.tail, reader_eq]
  exact congrArg (Option.bind · _) h

theorem readTail_postfixed (op : PostfixOp) : readTail lookup least e (op.symbol.toList ++ cs) =
    readTail lookup least (.postfixed .synthetic op e) cs := by
  rw [readTail, Readers.tail, reader_eq]
  cases op <;> rfl

theorem readOperands_op {op : BinaryOp} (h : readAt lookup op.operandPrec.2 cs = some (x, rest)) :
    readOperands lookup least e (some op) cs =
      readTail lookup least (.binary .synthetic op e x) rest :=
  congrArg (Option.bind · _) h

theorem readOperands_cond (h : readAt lookup Prec.assign cs = some (x, ' ' :: ':' :: ' ' :: rest))
    {y : Expr} {rest' : List Char} (h' : readAt lookup Prec.assign rest = some (y, rest')) :
    readOperands lookup least e none cs = readTail lookup least (.cond .synthetic e x y) rest' :=
  (congrArg (Option.bind · _) h).trans (congrArg (Option.bind · _) h')

theorem readTerms_of_at (h : readAt lookup Prec.assign cs = some (x, rest)) :
    readTerms lookup cs = (readMore lookup rest).map fun y => (x :: y.1, y.2) := by
  rw [readTerms, Readers.terms, reader_eq, Option.map_eq_bind]
  exact congrArg (Option.bind · _) h

theorem readMore_comma : readMore lookup (',' :: ' ' :: cs) = readTerms lookup cs := rfl

theorem readMore_nil : readMore lookup [] = some ([], []) := rfl

theorem readMore_close {c : Char} (h : c ≠ ',') :
    readMore lookup (c :: cs) = some ([], c :: cs) := by
  unfold readMore Readers.more
  split
  · next heq => exact absurd (List.cons.inj heq).1 h
  · rfl

theorem readList_nil {close : Char} : readList lookup close (close :: cs) = some ([], cs) :=
  if_pos rfl

theorem readList_terms {close : Char} (hcs : cs.head? ≠ some close)
    (h : readTerms lookup cs = some (es, close :: rest)) :
    readList lookup close cs = some (es, rest) := by
  unfold readList Readers.list
  rw [if_neg hcs]
  refine (congrArg (Option.bind · _) h).trans ?_
  rw [Option.bind_some, expect, if_pos rfl]
  rfl

theorem readObject_nil : readObject lookup ('\x7d' :: cs) = some ([], cs) := rfl

theorem readObject_properties (h : cs.head? ≠ some '\x7d') :
    readObject lookup cs = readProperties lookup cs := if_neg h

theorem readProperties_last {k : String} (hk : key cs = some (k, ':' :: ' ' :: rest))
    {rest' : List Char} (h : readAt lookup Prec.assign rest = some (x, '\x7d' :: rest')) :
    readProperties lookup cs = some ([⟨k, x⟩], rest') := by
  rw [readProperties, Readers.properties, reader_eq]
  exact (congrArg (Option.bind · _) hk).trans ((congrArg (Option.bind · _) h).trans rfl)

theorem readProperties_cons {k : String} (hk : key cs = some (k, ':' :: ' ' :: rest))
    {rest' rest'' : List Char} (h : readAt lookup Prec.assign rest = some (x, ',' :: ' ' :: rest'))
    {ps : List Property} (hps : readProperties lookup rest' = some (ps, rest'')) :
    readProperties lookup cs = some (⟨k, x⟩ :: ps, rest'') := by
  rw [readProperties, Readers.properties, reader_eq]
  exact (congrArg (Option.bind · _) hk).trans
    ((congrArg (Option.bind · _) h).trans (congrArg (Option.bind · _) hps))

end

end Reading

end FrameLedger
