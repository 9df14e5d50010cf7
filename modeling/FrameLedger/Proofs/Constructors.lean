import FrameLedger.Proofs.Unambiguous

/-!
# Printed constructions

Behind `new` the first argument list belongs to the construction. A constructor that is a call is
put in parentheses, one that has a call further down its spine is not, and then the text reads as
another expression. `Expr.reread` is how it reads: two expressions have the same text exactly if
they read the same, and one reads as itself if no such constructor is in it (`Expr.new_printed`).
-/

namespace FrameLedger

open Reading Print

/-! ## Which expressions -/

section

variable (st : PrintStyle) (t : ScopeTable)

mutual

/-- An expression of names, members, elements, calls and constructions. -/
def Expr.isChain : Expr → Bool
  | .var _ s => isIdent (st.name t s)
  | .bare _ x => isIdent x
  | .member _ q x => q.isChain && isIdent (x.text st t)
  | .index _ a i => a.isChain && i.isChain
  | .call _ f as | .new _ f as => f.isChain && exprsChain as
  | _ => false

def exprsChain : List Expr → Bool
  | [] => true
  | e :: es => e.isChain && exprsChain es

end

end

namespace Expr

/-- Whether the text has a call that is in no parentheses or brackets. -/
def hasOpenCall : Expr → Bool
  | .member _ q _ => q.hasOpenCall
  | .index _ a _ => a.hasOpenCall
  | .call .. => true
  | _ => false

/-- With `new` in front of it, the first call of the text becomes a construction. -/
def newInFront : Expr → Expr
  | .member p q x => .member p q.newInFront x
  | .index p a i => .index p a.newInFront i
  | .call p f as => if f.hasOpenCall then .call p f.newInFront as else .new p f as
  | e => e

end Expr

mutual

/-- Every constructor is a call or has no open call. -/
def Expr.isSettled : Expr → Bool
  | .member _ q _ => q.isSettled
  | .index _ a i => a.isSettled && i.isSettled
  | .call _ f as => f.isSettled && exprsSettled as
  | .new _ f as => f.isSettled && exprsSettled as && (isCall f || !f.hasOpenCall)
  | _ => true

def exprsSettled : List Expr → Bool
  | [] => true
  | e :: es => e.isSettled && exprsSettled es

end

mutual

/-- The expression that the text reads as. -/
def Expr.reread : Expr → Expr
  | .member p q x => .member p q.reread x
  | .index p a i => .index p a.reread i.reread
  | .call p f as => .call p f.reread (exprsReread as)
  | .new p f as =>
    if isCall f || !f.reread.hasOpenCall then .new p f.reread (exprsReread as)
    else .call p f.reread.newInFront (exprsReread as)
  | e => e

def exprsReread : List Expr → List Expr
  | [] => []
  | e :: es => e.reread :: exprsReread es

end

/-! ## Reading again changes no text -/

namespace Expr

theorem prec_of_hasOpenCall {e : Expr} (h : e.hasOpenCall = true) : e.prec = Prec.member ∧
    e.newInFront.prec = Prec.member := by
  cases e with
  | call p f as =>
    refine ⟨rfl, ?_⟩
    unfold newInFront
    split <;> rfl
  | member | index => exact ⟨rfl, rfl⟩
  | _ => cases h

theorem prec_reread (e : Expr) : e.reread.prec = e.prec := by
  cases e with
  | new p f as =>
    unfold reread
    split <;> rfl
  | _ => rfl

theorem isCall_reread {f : Expr} (h : (isCall f || !f.reread.hasOpenCall) = true) :
    isCall f.reread = isCall f := by
  cases f with
  | new p f as =>
    unfold reread at h ⊢
    split
    · rfl
    · next hopen =>
      rw [if_neg hopen] at h
      cases h
  | _ => rfl

variable {st : PrintStyle} {t : ScopeTable}

theorem within_newInFront {e : Expr} (h : e.hasOpenCall = true) {s s' : String}
    (hs : s' = "new " ++ s) :
    within Prec.member e.newInFront.prec s' = "new " ++ within Prec.member e.prec s := by
  rw [(prec_of_hasOpenCall h).1, (prec_of_hasOpenCall h).2, hs]
  rfl

theorem print_newInFront (n : Nat) : ∀ e : Expr, e.hasOpenCall = true →
    Print.expr st t e.newInFront n = "new " ++ Print.expr st t e n
  | .member p q x, h => by
    have hq : q.hasOpenCall = true := h
    rw [newInFront, Print.expr_member, Print.expr_member,
      within_newInFront hq (print_newInFront n q hq)]
    simp only [String.append_assoc]
  | .index p a i, h => by
    have ha : a.hasOpenCall = true := h
    rw [newInFront, Print.expr, Print.expr, within_newInFront ha (print_newInFront n a ha)]
    simp only [String.append_assoc]
  | .call p f as, h => by
    unfold newInFront
    split
    · next hf =>
      rw [Print.expr, Print.expr, within_newInFront hf (print_newInFront n f hf),
        String.append_assoc]
    · next hf =>
      have hcall : isCall f = false := by
        cases f with
        | call => exact absurd rfl hf
        | _ => rfl
      rw [Print.expr, Print.expr, hcall, String.append_assoc]
      rfl

mutual

theorem print_reread (n : Nat) : ∀ e : Expr, Print.expr st t e.reread n = Print.expr st t e n
  | .member p q x => by
    rw [reread, Print.expr_member, Print.expr_member, prec_reread, print_reread n q]
  | .index p a i => by
    rw [reread, Print.expr, Print.expr, prec_reread, print_reread n a, print_reread n i]
  | .call p f as => by
    rw [reread, Print.expr, Print.expr, prec_reread, print_reread n f, args_reread n as]
  | .new p f as => by
    unfold reread
    split
    · next hshut =>
      rw [Print.expr, Print.expr, isCall_reread hshut, prec_reread, print_reread n f,
        args_reread n as]
    · next hopen =>
      obtain ⟨hcall, hopen⟩ : isCall f = false ∧ f.reread.hasOpenCall = true := by simpa using hopen
      rw [Print.expr, Print.expr, within_newInFront hopen (print_newInFront n _ hopen), prec_reread,
        print_reread n f, args_reread n as, hcall]
      rfl
  | .var .. | .bare .. | .prefixed .. | .postfixed .. | .binary .. | .cond .. | .literal ..
  | .array .. | .object ..
  | .func .. => rfl

theorem args_reread (n : Nat) : ∀ es : List Expr, args st t (exprsReread es) n = args st t es n
  | [] => rfl
  | e :: es => by rw [exprsReread, args, args, prec_reread, print_reread n e, args_reread n es]

end

/-! ## What is read again reads as itself -/

theorem isSettled_newInFront : ∀ {e : Expr}, e.hasOpenCall = true → e.isSettled = true →
    e.newInFront.isSettled = true
  | .member p q x, h, hs => isSettled_newInFront (e := q) h hs
  | .index p a i, h, hs => by
    obtain ⟨ha, hi⟩ := Bool.and_eq_true_iff.1 hs
    exact Bool.and_eq_true_iff.2 ⟨isSettled_newInFront (e := a) h ha, hi⟩
  | .call p f as, h, hs => by
    unfold newInFront
    split
    · next hf =>
      obtain ⟨hsf, has⟩ := Bool.and_eq_true_iff.1 hs
      exact Bool.and_eq_true_iff.2 ⟨isSettled_newInFront hf hsf, has⟩
    · next hf => exact Bool.and_eq_true_iff.2 ⟨hs, by simp [hf]⟩

mutual

theorem isSettled_reread : ∀ e : Expr, e.reread.isSettled = true
  | .member p q x => q.isSettled_reread
  | .index p a i => Bool.and_eq_true_iff.2 ⟨a.isSettled_reread, i.isSettled_reread⟩
  | .call p f as => Bool.and_eq_true_iff.2 ⟨f.isSettled_reread, exprsSettled_reread as⟩
  | .new p f as => by
    unfold reread
    split
    · next hshut =>
      rw [isSettled, f.isSettled_reread, exprsSettled_reread as, isCall_reread hshut]
      exact hshut
    · next hopen =>
      have hopen : f.reread.hasOpenCall = true := (show isCall f = false ∧ _ by simpa using hopen).2
      exact Bool.and_eq_true_iff.2
        ⟨isSettled_newInFront hopen f.isSettled_reread, exprsSettled_reread as⟩
  | .var .. | .bare .. | .prefixed .. | .postfixed .. | .binary .. | .cond .. | .literal ..
  | .array .. | .object ..
  | .func .. => rfl

theorem exprsSettled_reread : ∀ es : List Expr, exprsSettled (exprsReread es) = true
  | [] => rfl
  | e :: es => Bool.and_eq_true_iff.2 ⟨e.isSettled_reread, exprsSettled_reread es⟩

end

mutual

theorem reread_of_isSettled : ∀ e : Expr, e.isSettled = true → e.reread = e
  | .member p q x, h => by rw [reread, reread_of_isSettled q h]
  | .index p a i, h => by
    obtain ⟨ha, hi⟩ := Bool.and_eq_true_iff.1 h
    rw [reread, reread_of_isSettled a ha, reread_of_isSettled i hi]
  | .call p f as, h => by
    obtain ⟨hf, has⟩ := Bool.and_eq_true_iff.1 h
    rw [reread, reread_of_isSettled f hf, exprsReread_of_settled as has]
  | .new p f as, h => by
    obtain ⟨h, hopen⟩ := Bool.and_eq_true_iff.1 h
    obtain ⟨hf, has⟩ := Bool.and_eq_true_iff.1 h
    rw [reread, reread_of_isSettled f hf, exprsReread_of_settled as has, if_pos hopen]
  | .var .., _ | .bare .., _ | .prefixed .., _ | .postfixed .., _ | .binary .., _ | .cond .., _
  | .literal .., _
  | .array .., _ | .object .., _ | .func .., _ => rfl

theorem exprsReread_of_settled : ∀ es : List Expr, exprsSettled es = true → exprsReread es = es
  | [], _ => rfl
  | e :: es, h => by
    obtain ⟨he, hes⟩ := Bool.and_eq_true_iff.1 h
    rw [exprsReread, reread_of_isSettled e he, exprsReread_of_settled es hes]

end

/-! ## What stays in a chain -/

section

variable {p : Position} {f : Expr} {as : List Expr}

theorem names_index {a i : Expr} : (Expr.index p a i).names = a.names ++ i.names :=
  List.filterMap_append

theorem names_call : (Expr.call p f as).names = f.names ++ (exprsNodes as).filterMap Node.name? :=
  List.filterMap_append

theorem names_new : (Expr.new p f as).names = f.names ++ (exprsNodes as).filterMap Node.name? :=
  List.filterMap_append

end

/-- The same names are in the same order. -/
theorem names_newInFront : ∀ e : Expr, e.newInFront.names = e.names
  | .member p q x => names_newInFront q
  | .index p a i => by rw [newInFront, names_index, names_index, names_newInFront a]
  | .call p f as => by
    unfold newInFront
    split
    · rw [names_call, names_call, names_newInFront f]
    · rw [names_call, names_new]
  | .var .. | .bare .. | .new .. | .prefixed .. | .postfixed .. | .binary .. | .cond ..
  | .literal .. | .array ..
  | .object .. | .func .. => rfl

mutual

theorem names_reread : ∀ e : Expr, e.reread.names = e.names
  | .member p q x => q.names_reread
  | .index p a i => by rw [reread, names_index, names_index, a.names_reread, i.names_reread]
  | .call p f as => by rw [reread, names_call, names_call, f.names_reread, exprsNames_reread as]
  | .new p f as => by
    unfold reread
    split
    · rw [names_new, names_new, f.names_reread, exprsNames_reread as]
    · rw [names_call, names_new, names_newInFront, f.names_reread, exprsNames_reread as]
  | .var .. | .bare .. | .prefixed .. | .postfixed .. | .binary .. | .cond .. | .literal ..
  | .array .. | .object ..
  | .func .. => rfl

theorem exprsNames_reread : ∀ es : List Expr,
    (exprsNodes (exprsReread es)).filterMap Node.name? = (exprsNodes es).filterMap Node.name?
  | [] => rfl
  | e :: es => by
    rw [exprsReread, exprsNodes, exprsNodes, List.filterMap_append, List.filterMap_append,
      exprsNames_reread es]
    exact congrArg (· ++ _) e.names_reread

end

theorem isChain_newInFront : ∀ e : Expr, e.newInFront.isChain st t = e.isChain st t
  | .member p q x => congrArg (· && _) (isChain_newInFront q)
  | .index p a i => congrArg (· && _) (isChain_newInFront a)
  | .call p f as => by
    unfold newInFront
    split
    · exact congrArg (· && _) (isChain_newInFront f)
    · rfl
  | .var .. | .bare .. | .new .. | .prefixed .. | .postfixed .. | .binary .. | .cond ..
  | .literal .. | .array ..
  | .object .. | .func .. => rfl

mutual

theorem isChain_reread : ∀ e : Expr, e.reread.isChain st t = e.isChain st t
  | .member p q x => congrArg (· && _) q.isChain_reread
  | .index p a i => congrArg₂ and a.isChain_reread i.isChain_reread
  | .call p f as => congrArg₂ and f.isChain_reread (exprsChain_reread as)
  | .new p f as => by
    unfold reread
    split
    · exact congrArg₂ and f.isChain_reread (exprsChain_reread as)
    · exact congrArg₂ and ((isChain_newInFront _).trans f.isChain_reread) (exprsChain_reread as)
  | .var .. | .bare .. | .prefixed .. | .postfixed .. | .binary .. | .cond .. | .literal ..
  | .array .. | .object ..
  | .func .. => rfl

theorem exprsChain_reread : ∀ es : List Expr, exprsChain st t (exprsReread es) = exprsChain st t es
  | [] => rfl
  | e :: es => congrArg₂ and e.isChain_reread (exprsChain_reread es)

end

theorem member_le_prec {e : Expr} (h : e.isChain st t = true) : Prec.member ≤ e.prec := by
  cases e with
  | var | bare | member | index | call | new => exact Nat.le_of_ble_eq_true rfl
  | _ => cases h

theorem within_chain {e : Expr} (h : e.isChain st t = true) {k : Nat} (hk : k ≤ Prec.member)
    (s : String) :
    within k e.prec s = s :=
  if_neg (Nat.not_lt_of_le (Nat.le_trans hk (member_le_prec h)))

theorem prec_canonical {e : Expr} (h : e.isChain st t = true) :
    (e.canonical st t).prec = e.prec ∧ isCall (e.canonical st t) = isCall e := by
  cases e with
  | var | bare | member | index | call | new => exact ⟨rfl, rfl⟩
  | _ => cases h

mutual

/-- The text does not depend on what is left out. -/
theorem print_canonical (n : Nat) : ∀ e : Expr, e.isChain st t = true →
    Print.expr st t (e.canonical st t) n = Print.expr st t e n
  | .var p s, _ | .bare p x, _ => rfl
  | .member p q x, h => by
    have hq := (Bool.and_eq_true_iff.1 h).1
    have hcanonical : (Expr.member p q x).canonical st t =
        .member .synthetic (q.canonical st t) (.property (x.text st t)) := rfl
    rw [hcanonical, Print.expr_member, Print.expr_member, (prec_canonical hq).1,
      print_canonical n q hq]
    rfl
  | .index p a i, h => by
    obtain ⟨ha, hi⟩ := Bool.and_eq_true_iff.1 h
    have hcanonical : (Expr.index p a i).canonical st t =
        .index .synthetic (a.canonical st t) (i.canonical st t) := rfl
    rw [hcanonical, Print.expr, Print.expr, (prec_canonical ha).1, print_canonical n a ha,
      print_canonical n i hi]
  | .call p f as, h => by
    obtain ⟨hf, has⟩ := Bool.and_eq_true_iff.1 h
    have hcanonical : (Expr.call p f as).canonical st t =
        .call .synthetic (f.canonical st t) (exprsCanonical st t as) := rfl
    rw [hcanonical, Print.expr, Print.expr, (prec_canonical hf).1, print_canonical n f hf,
      args_canonical n as has]
  | .new p f as, h => by
    obtain ⟨hf, has⟩ := Bool.and_eq_true_iff.1 h
    have hcanonical : (Expr.new p f as).canonical st t =
        .new .synthetic (f.canonical st t) (exprsCanonical st t as) := rfl
    rw [hcanonical, Print.expr, Print.expr, (prec_canonical hf).1, (prec_canonical hf).2,
      print_canonical n f hf, args_canonical n as has]

theorem args_canonical (n : Nat) : ∀ es : List Expr, exprsChain st t es = true →
    args st t (exprsCanonical st t es) n = args st t es n
  | [], _ => rfl
  | e :: es, h => by
    obtain ⟨he, hes⟩ := Bool.and_eq_true_iff.1 h
    have hcanonical : exprsCanonical st t (e :: es) = e.canonical st t :: exprsCanonical st t es :=
      rfl
    rw [hcanonical, args, args, (prec_canonical he).1, print_canonical n e he,
      args_canonical n es hes]

end

end Expr

/-! ## Reading -/

namespace Reading

/-- What is read of a chain: its start, what stands behind it, with calls or without, and
expressions with commas between. -/
inductive Link where
  | head (cs : List Char)
  | tail (calls : Bool) (e : Expr) (cs : List Char)
  | terms (cs : List Char)

abbrev Link.Found : Link → Type
  | .head _ | .tail .. => Expr × List Char
  | .terms _ => List Expr × List Char

namespace Link

variable (lookup : String → Expr) (r : Answers Link.Found)

def chain (cs : List Char) : Option (Expr × List Char) := do
  let x ← r (.head cs)
  r (.tail true x.1 x.2)

def list (cs : List Char) : Option (List Expr × List Char) :=
  if cs.head? = some ')' then some ([], cs.tail)
  else do
    let x ← r (.terms cs)
    return (x.1, ← expect [')'] x.2)

/-- What is constructed, up to the arguments. -/
def ctor (cs : List Char) : Option (Expr × List Char) :=
  match cs with
  | '(' :: cs => do
    let x ← chain r cs
    let rest ← expect [')'] x.2
    r (.tail false x.1 rest)
  | cs => do
    let x ← r (.head cs)
    r (.tail false x.1 x.2)

def next : Answers Link.Found
  | .head cs =>
    match expect ['n', 'e', 'w', ' '] cs with
    | some cs => do
      let x ← ctor r cs
      let rest ← expect ['('] x.2
      let y ← list r rest
      return (.new .synthetic x.1 y.1, y.2)
    | none => some (lookup (word cs).1, (word cs).2)
  | .tail calls e cs =>
    match cs with
    | '.' :: cs => r (.tail calls (.member .synthetic e (.property (word cs).1)) (word cs).2)
    | '[' :: cs => do
      let x ← chain r cs
      let rest ← expect [']'] x.2
      r (.tail calls (.index .synthetic e x.1) rest)
    | '(' :: cs => if calls then do
        let x ← list r cs
        r (.tail calls (.call .synthetic e x.1) x.2)
      else some (e, '(' :: cs)
    | cs => some (e, cs)
  | .terms cs => do
    let x ← chain r cs
    match x.2 with
    | ',' :: ' ' :: cs => do
      let y ← r (.terms cs)
      return (x.1 :: y.1, y.2)
    | cs => some ([x.1], cs)

section

variable {r} {f : Nat → Answers Link.Found} (h : ∀ t, Settles (f · t) (r t))
include h

theorem settles_chain (cs : List Char) : Settles (fun n => chain (f n) cs) (chain r cs) :=
  .bind (h (.head cs)) fun x => h (.tail true x.1 x.2)

theorem settles_list (cs : List Char) : Settles (fun n => list (f n) cs) (list r cs) := by
  unfold list
  split
  · exact .const _
  · exact .bind (h (.terms cs)) fun x => .const _

theorem settles_ctor (cs : List Char) : Settles (fun n => ctor (f n) cs) (ctor r cs) := by
  unfold ctor
  split
  · exact .bind (settles_chain h _) fun x => .bind (.const _) fun rest => h (.tail ..)
  · exact .bind (h (.head _)) fun x => h (.tail ..)

end

theorem steady_next : Steady (next lookup) := by
  intro f r h t
  cases t with
  | head cs =>
    simp only [next]
    split
    · exact .bind (settles_ctor h _) fun x => .bind (.const _) fun rest =>
        .bind (settles_list h _) fun y => .const _
    · exact .const _
  | tail calls e cs =>
    simp only [next]
    split
    · exact h (.tail ..)
    · exact .bind (settles_chain h _) fun x => .bind (.const _) fun rest => h (.tail ..)
    · split
      · exact .bind (settles_list h _) fun x => h (.tail ..)
      · exact .const _
    · exact .const _
  | terms cs =>
    refine .bind (settles_chain h _) fun x => ?_
    split
    · exact .bind (h (.terms _)) fun y => .const _
    · exact .const _

end Link

noncomputable abbrev links (lookup : String → Expr) : Answers Link.Found :=
  answers (Link.next lookup)

theorem links_eq (lookup : String → Expr) (t : Link) :
    links lookup t = Link.next lookup (links lookup) t :=
  (Link.steady_next lookup).answers_eq t

/-- What may stand behind a link. -/
def Ended (cs : List Char) : Prop := ∀ c ∈ cs.head?, c ∈ ['.', '[', '(', ')', ']', ',']

theorem Ended.of_head {c : Char} (h : c ∈ ['.', '[', '(', ')', ']', ',']) (cs : List Char) :
    Ended (c :: cs) :=
  fun _ hc => Option.some.inj hc ▸ h

theorem Ended.bounded {cs : List Char} (h : Ended cs) : Bounded cs := fun c hc => by
  have hend := h c hc
  simp only [List.mem_cons, List.not_mem_nil, or_false] at hend
  rcases hend with rfl | rfl | rfl | rfl | rfl | rfl <;> rfl

theorem eq_append_of_expect {w cs rest : List Char} (h : expect w cs = some rest) :
    cs = w ++ rest := by
  induction w generalizing cs with
  | nil => exact Option.some.inj h
  | cons c w ih =>
    cases cs with
    | nil => cases h
    | cons c' cs =>
      rw [expect] at h
      split at h
      · next hc => rw [hc, ih h]; rfl
      · cases h

section

variable {lookup : String → Expr} {e x : Expr} {es : List Expr} {cs rest : List Char} {calls : Bool}

/-- A name is not taken for the word in front of a constructor, behind which there is a blank. -/
theorem links_name {x : String} (h : isIdent x = true) (hcs : Ended cs) :
    links lookup (.head (x.toList ++ cs)) = some (lookup x, cs) := by
  have hword := word_append (ident_part h) hcs.bounded
  rw [links_eq, Link.next]
  cases hnew : expect ['n', 'e', 'w', ' '] (x.toList ++ cs) with
  | none => simp only [hword]
  | some rest =>
    rw [eq_append_of_expect hnew] at hword
    have hrest : ' ' :: rest = cs := (Prod.mk.inj hword).2
    exact absurd (hcs ' ' (by rw [← hrest]; rfl)) (by decide)

theorem links_new (hx : Link.ctor (links lookup) cs = some (x, '(' :: rest)) {rest' : List Char}
    (has : Link.list (links lookup) rest = some (es, rest')) :
    links lookup (.head ('n' :: 'e' :: 'w' :: ' ' :: cs)) = some (.new .synthetic x es, rest') := by
  rw [links_eq]
  exact (congrArg (Option.bind · _) hx).trans (congrArg (Option.bind · _) has)

theorem links_dot : links lookup (.tail calls e ('.' :: cs)) =
    links lookup (.tail calls (.member .synthetic e (.property (word cs).1)) (word cs).2) :=
  links_eq ..

theorem links_bracket (hx : Link.chain (links lookup) cs = some (x, ']' :: rest)) :
    links lookup (.tail calls e ('[' :: cs)) = links lookup
      (.tail calls (.index .synthetic e x) rest) := by
  rw [links_eq]
  exact (congrArg (Option.bind · _) hx).trans rfl

theorem links_call (has : Link.list (links lookup) cs = some (es, rest)) :
    links lookup (.tail true e ('(' :: cs)) = links lookup
      (.tail true (.call .synthetic e es) rest) := by
  rw [links_eq]
  exact congrArg (Option.bind · _) has

theorem links_args : links lookup (.tail false e ('(' :: cs)) = some (e, '(' :: cs) := links_eq ..

theorem links_nil : links lookup (.tail calls e []) = some (e, []) := links_eq ..

theorem links_close {c : Char} (h : c ∈ [')', ']', ',']) :
    links lookup (.tail calls e (c :: cs)) = some (e, c :: cs) := by
  rw [links_eq]
  simp only [List.mem_cons, List.not_mem_nil, or_false] at h
  rcases h with rfl | rfl | rfl <;> rfl

end

end Reading

section

variable (st : PrintStyle) (t : ScopeTable)

/-- A chain is read back from its text, as a whole and, if no call of it is open, as what is
constructed. -/
structure Expr.Linked (lookup : String → Expr) (n : Nat) (e : Expr) : Prop where
  chain : ∀ cs, Ended cs → Link.chain (links lookup) ((Print.expr st t e n).toList ++ cs) =
    links lookup (.tail true (e.canonical st t) cs)
  ctor : e.hasOpenCall = false → ∀ cs, Ended cs →
    Link.ctor (links lookup) ((Print.expr st t e n).toList ++ cs) =
    links lookup (.tail false (e.canonical st t) cs)

end

section

variable {st : PrintStyle} {t : ScopeTable} {lookup : String → Expr} {n : Nat}

/-- A chain starts with a letter, be it of a name or of `new`. -/
theorem Expr.starts (n : Nat) : ∀ e : Expr, e.isChain st t = true →
    ∃ c cs, (Print.expr st t e n).toList = c :: cs ∧ isIdentStart c = true
  | .var p s, h => by
    obtain ⟨c, cs, heq, hc, -⟩ := ident_cons h
    exact ⟨c, cs, by rw [Print.expr, heq], hc⟩
  | .bare p x, h => by
    obtain ⟨c, cs, heq, hc, -⟩ := ident_cons h
    exact ⟨c, cs, by rw [Print.expr, heq], hc⟩
  | .member p q x, h => by
    have hq := (Bool.and_eq_true_iff.1 h).1
    obtain ⟨c, cs, heq, hc⟩ := q.starts n hq
    rw [Print.expr_member, within_chain hq (Nat.le_refl _), String.append_assoc,
      String.toList_append, heq]
    exact ⟨c, _, rfl, hc⟩
  | .index p a i, h => by
    have ha := (Bool.and_eq_true_iff.1 h).1
    obtain ⟨c, cs, heq, hc⟩ := a.starts n ha
    simp only [Print.expr, within_chain ha (Nat.le_refl _), String.toList_append, heq]
    exact ⟨c, _, rfl, hc⟩
  | .call p f as, h => by
    have hf := (Bool.and_eq_true_iff.1 h).1
    obtain ⟨c, cs, heq, hc⟩ := f.starts n hf
    rw [Print.expr, within_chain hf (Nat.le_refl _), String.toList_append, heq]
    exact ⟨c, _, rfl, hc⟩
  | .new p f as, h => by
    simp only [Print.expr, String.toList_append]
    exact ⟨'n', _, rfl, rfl⟩

namespace Expr.Linked

variable {e : Expr} {cs : List Char}

theorem of_head (hchain : e.isChain st t = true) (h : ∀ cs, Ended cs →
    links lookup (.head ((Print.expr st t e n).toList ++ cs)) = some (e.canonical st t, cs)) :
    e.Linked st t lookup n where
  chain cs hcs := congrArg (Option.bind · _) (h cs hcs)
  ctor _ cs hcs := by
    obtain ⟨c, rest, heq, hc⟩ := e.starts n hchain
    have hhead := h cs hcs
    rw [heq, List.cons_append] at hhead ⊢
    unfold Link.ctor
    split
    · next heq' => exact absurd (List.cons.inj heq').1 (isIdentStart_ne hc rfl)
    · exact congrArg (Option.bind · _) hhead

theorem closed (h : e.Linked st t lookup n) {c : Char} (hc : c ∈ [')', ']', ',']) (cs : List Char) :
    Link.chain (links lookup) ((Print.expr st t e n).toList ++ c :: cs) =
      some (e.canonical st t, c :: cs) := by
  rw [h.chain _ (.of_head (List.mem_append_right ['.', '[', '('] hc) cs), links_close hc]

end Expr.Linked

theorem links_terms {cs : List Char} :
    ∀ {e : Expr} {es : List Expr}, exprsChain st t (e :: es) = true →
    (∀ e' ∈ e :: es, e'.Linked st t lookup n) →
      links lookup (.terms ((commaSep (args st t (e :: es) n)).toList ++ ')' :: cs)) =
        some (exprsCanonical st t (e :: es), ')' :: cs)
  | e, [], hchain, h => by
    have he := (Bool.and_eq_true_iff.1 hchain).1
    rw [args, args, commaSep, String.intercalate_singleton, Expr.within_chain he (by decide),
      links_eq]
    exact (congrArg (Option.bind · _)
      ((h e List.mem_cons_self).closed (c := ')') (by decide) cs)).trans rfl
  | e, e' :: es, hchain, h => by
    obtain ⟨he, hes⟩ := Bool.and_eq_true_iff.1 hchain
    have hsep : commaSep (args st t (e :: e' :: es) n) =
        within Prec.assign e.prec (Print.expr st t e n) ++ ", " ++
      commaSep (args st t (e' :: es) n) := String.intercalate_cons_cons
    have htext : (commaSep (args st t (e :: e' :: es) n)).toList ++ ')' :: cs =
        (Print.expr st t e n).toList ++
        ',' :: ' ' :: ((commaSep (args st t (e' :: es) n)).toList ++ ')' :: cs) := by
      rw [hsep, Expr.within_chain he (by decide), String.toList_append, String.toList_append,
        List.append_assoc, List.append_assoc]
      rfl
    rw [htext, links_eq]
    refine (congrArg (Option.bind · _)
      ((h e List.mem_cons_self).closed (c := ',') (by decide) _)).trans ?_
    exact congrArg (Option.bind · _) (links_terms hes (List.forall_mem_cons.1 h).2)

theorem links_list {cs : List Char} {es : List Expr} (hchain : exprsChain st t es = true)
    (h : ∀ e ∈ es, e.Linked st t lookup n) :
    Link.list (links lookup) ((commaSep (args st t es n)).toList ++ ')' :: cs) =
      some (exprsCanonical st t es, cs) := by
  cases es with
  | nil => rfl
  | cons e es =>
    have he := (Bool.and_eq_true_iff.1 hchain).1
    obtain ⟨c, rest, heq, hc⟩ := e.starts n he
    have hhead : ((commaSep (args st t (e :: es) n)).toList ++ ')' :: cs).head? ≠ some ')' := by
      have hstart : (commaSep (args st t (e :: es) n)).toList.head? = some c := by
        rcases es with _ | ⟨e', es⟩
        · rw [args, args, commaSep, String.intercalate_singleton, Expr.within_chain he (by decide),
            heq]
          rfl
        · rw [args, args, commaSep, String.intercalate_cons_cons, Expr.within_chain he (by decide),
            String.append_assoc, String.toList_append, heq]
          rfl
      rw [List.head?_append, hstart]
      exact fun hclose => isIdentStart_ne hc rfl (Option.some.inj hclose)
    unfold Link.list
    rw [if_neg hhead]
    exact (congrArg (Option.bind · _) (links_terms hchain h)).trans rfl

mutual

theorem Expr.linked : ∀ e : Expr, e.isChain st t = true → e.isSettled = true →
    (∀ a ∈ e.names, lookup (a.text st t) = a.toExpr) → e.Linked st t lookup n
  | .var p s, h, _, hfinds => .of_head h fun cs hcs => by
    rw [Print.expr, links_name h hcs, show lookup (st.name t s) = _ from hfinds (.symbol s)
      List.mem_cons_self]
    rfl
  | .bare p x, h, _, hfinds => .of_head h fun cs hcs => by
    rw [Print.expr, links_name h hcs, show lookup x = _ from hfinds (.property x)
      List.mem_cons_self]
    rfl
  | .member p q x, h, hs, hfinds => by
    obtain ⟨hq, hx⟩ := Bool.and_eq_true_iff.1 h
    have hlinked := q.linked hq hs hfinds
    have hdot (calls : Bool) {cs : List Char} (hcs : Ended cs) :
        links lookup (.tail calls (q.canonical st t) ('.' :: ((x.text st t).toList ++ cs))) =
          links lookup (.tail calls ((Expr.member p q x).canonical st t) cs) := by
      rw [links_dot, word_append (ident_part hx) hcs.bounded]
      rfl
    have htext (cs : List Char) : (Print.expr st t (.member p q x) n).toList ++ cs =
        (Print.expr st t q n).toList ++ '.' :: ((x.text st t).toList ++ cs) := by
      simp only [Print.expr_member, Expr.within_chain hq (Nat.le_refl _), String.toList_append,
        List.append_assoc]
      rfl
    refine ⟨fun cs hcs => ?_, fun hopen cs hcs => ?_⟩
    · rw [htext, hlinked.chain _ (.of_head (by decide) _), hdot true hcs]
    · rw [htext, hlinked.ctor hopen _ (.of_head (by decide) _), hdot false hcs]
  | .index p a i, h, hs, hfinds => by
    obtain ⟨ha, hi⟩ := Bool.and_eq_true_iff.1 h
    obtain ⟨hsa, hsi⟩ := Bool.and_eq_true_iff.1 hs
    rw [Expr.names_index, List.forall_mem_append] at hfinds
    have hlinked := a.linked ha hsa hfinds.1
    have hbracket (calls : Bool) (cs : List Char) :
        links lookup
          (.tail calls (a.canonical st t) ('[' :: ((Print.expr st t i n).toList ++ ']' :: cs))) =
          links lookup (.tail calls ((Expr.index p a i).canonical st t) cs) :=
      links_bracket ((i.linked hi hsi hfinds.2).closed (by decide) cs)
    have htext (cs : List Char) : (Print.expr st t (.index p a i) n).toList ++ cs =
        (Print.expr st t a n).toList ++ '[' :: ((Print.expr st t i n).toList ++ ']' :: cs) := by
      simp only [Print.expr, Expr.within_chain ha (Nat.le_refl _), String.toList_append,
        List.append_assoc]
      rfl
    refine ⟨fun cs hcs => ?_, fun hopen cs hcs => ?_⟩
    · rw [htext, hlinked.chain _ (.of_head (by decide) _), hbracket]
    · rw [htext, hlinked.ctor hopen _ (.of_head (by decide) _), hbracket]
  | .call p f as, h, hs, hfinds => by
    obtain ⟨hf, has⟩ := Bool.and_eq_true_iff.1 h
    obtain ⟨hsf, hsas⟩ := Bool.and_eq_true_iff.1 hs
    rw [Expr.names_call, List.forall_mem_append] at hfinds
    refine ⟨fun cs hcs => ?_, fun hopen => by cases hopen⟩
    simp only [Print.expr, Expr.within_chain hf (Nat.le_refl _), parens, String.toList_append,
      String.reduceToList, List.append_assoc, List.cons_append, List.nil_append]
    rw [(f.linked hf hsf hfinds.1).chain _ (.of_head (by decide) _)]
    exact links_call (links_list has (exprsLinked as has hsas hfinds.2))
  | .new p f as, h, hs, hfinds => .of_head h fun cs hcs => by
    obtain ⟨hf, has⟩ := Bool.and_eq_true_iff.1 h
    obtain ⟨hs, hopen⟩ := Bool.and_eq_true_iff.1 hs
    obtain ⟨hsf, hsas⟩ := Bool.and_eq_true_iff.1 hs
    rw [Expr.names_new, List.forall_mem_append] at hfinds
    have hlinked := f.linked hf hsf hfinds.1
    have hlist : Link.list (links lookup) ((commaSep (args st t as n)).toList ++ ')' :: cs) =
        some (exprsCanonical st t as, cs) := links_list has (exprsLinked as has hsas hfinds.2)
    -- a call is read back between parentheses, anything else up to the arguments
    have hctor (rest : List Char) : Link.ctor (links lookup)
        ((if isCall f then parens (Print.expr st t f n) else Print.expr st t f n).toList ++
          '(' :: rest) =
          some (f.canonical st t, '(' :: rest) := by
      cases hcall : isCall f with
      | true =>
        simp only [if_true, parens, String.toList_append, String.reduceToList, List.append_assoc,
          List.cons_append, List.nil_append]
        exact (congrArg (Option.bind · _) (hlinked.closed (c := ')') (by decide) _)).trans
          links_args
      | false =>
        rw [hcall, Bool.false_or, Bool.not_eq_true'] at hopen
        exact (hlinked.ctor hopen _ (.of_head (by decide) _)).trans links_args
    have htext : (Print.expr st t (.new p f as) n).toList ++ cs = 'n' :: 'e' :: 'w' :: ' ' ::
        ((if isCall f then parens (Print.expr st t f n) else Print.expr st t f n).toList ++
          '(' :: ((commaSep (args st t as n)).toList ++ ')' :: cs)) := by
      rw [Print.expr, Expr.within_chain hf (Nat.le_refl _)]
      simp [parens]
    rw [htext]
    exact links_new (hctor _) hlist

theorem exprsLinked : ∀ es : List Expr, exprsChain st t es = true → exprsSettled es = true →
    (∀ a ∈ (exprsNodes es).filterMap Node.name?, lookup (a.text st t) = a.toExpr) →
      ∀ e ∈ es, e.Linked st t lookup n
  | [], _, _, _ => fun _ he => by cases he
  | e :: es, h, hs, hfinds => by
    obtain ⟨he, hes⟩ := Bool.and_eq_true_iff.1 h
    obtain ⟨hse, hses⟩ := Bool.and_eq_true_iff.1 hs
    rw [exprsNodes, List.filterMap_append, List.forall_mem_append] at hfinds
    exact List.forall_mem_cons.2 ⟨e.linked he hse hfinds.1, exprsLinked es hes hses hfinds.2⟩

end

/-! ## One expression for a text -/

/-- Expressions that are printed alike are read alike. -/
theorem Expr.canonical_reread_of_print {e e' : Expr} (he : e.isChain st t = true)
    (he' : e'.isChain st t = true)
    (hnames : ∀ a ∈ e.names ++ e'.names, ∀ b ∈ e.names ++ e'.names, a.text st t = b.text st t →
      a = b)
    (h : Print.expr st t e n = Print.expr st t e' n) :
    e.reread.canonical st t = e'.reread.canonical st t := by
  obtain ⟨lookup, hfinds⟩ := exists_finds st t hnames
  have hread {e : Expr} (he : e.isChain st t = true) (hsub : Finds st t lookup e.nodes) :
      Link.chain (links lookup) (Print.expr st t e n).toList =
        some (e.reread.canonical st t, []) := by
    have hlinked := e.reread.linked (n := n) ((isChain_reread e).trans he) e.isSettled_reread
      fun a ha => by
      rw [names_reread] at ha
      obtain ⟨m, hm, hname⟩ := List.mem_filterMap.1 ha
      exact hsub m hm a hname
    have hchain := hlinked.chain [] (fun c hc => by cases hc)
    rwa [print_reread, List.append_nil, links_nil] at hchain
  have hsame := hread he (hfinds e (List.subset_append_left ..))
  rw [h, hread he' (hfinds e' (List.subset_append_right ..))] at hsame
  exact (Prod.mk.inj (Option.some.inj hsame)).1.symm

/-- A construction has the text of another expression exactly if the two are read as the same. Where
every constructor is a call or has no open call, that other expression is a construction with the
same constructor and arguments, up to places in the source and whether members are named by symbol
or by text. -/
theorem Expr.new_printed {p : Position} {c : Expr} {as : List Expr} {e : Expr}
    (hc : (Expr.new p c as).isChain st t = true) (he : e.isChain st t = true)
    (hnames : ∀ a ∈ (Expr.new p c as).names ++ e.names, ∀ b ∈ (Expr.new p c as).names ++ e.names,
      a.text st t = b.text st t → a = b) :
    (Print.expr st t (.new p c as) n = Print.expr st t e n ↔
      (Expr.new p c as).reread.canonical st t = e.reread.canonical st t) ∧
    ((Expr.new p c as).isSettled = true → e.isSettled = true →
      Print.expr st t (.new p c as) n = Print.expr st t e n →
      ∃ p' c' as', e = .new p' c' as' ∧ c'.canonical st t = c.canonical st t ∧
        exprsCanonical st t as' = exprsCanonical st t as) := by
  have hsame := canonical_reread_of_print (n := n) hc he hnames
  refine ⟨⟨hsame, fun h => ?_⟩, fun hs hs' h => ?_⟩
  · have htext := congrArg (Print.expr st t · n) h
    rwa [print_canonical n _ ((isChain_reread _).trans hc),
      print_canonical n _ ((isChain_reread e).trans he), print_reread, print_reread] at htext
  · have h := hsame h
    rw [reread_of_isSettled _ hs, reread_of_isSettled e hs'] at h
    cases e with
    | new p' c' as' =>
      obtain ⟨-, hctor, hargs⟩ := Expr.new.inj h
      exact ⟨p', c', as', rfl, hctor.symm, hargs.symm⟩
    | var | bare | member | index | call => cases h
    | _ => cases he

end

/-- `new (f().C)(x)`, if it were printed like that. -/
def newOfMember : Expr :=
  .new .synthetic (.member .synthetic (.call .synthetic (.bare .synthetic "f") []) (.property "C"))
    [.bare .synthetic "x"]

/-- `new f().C(x)` -/
def memberOfNew : Expr :=
  .call .synthetic (.member .synthetic (.new .synthetic (.bare .synthetic "f") []) (.property "C"))
    [.bare .synthetic "x"]

/-- `new (f())(g[x].C)` at a place in the source. -/
def newOfCall (p : Position) : Expr :=
  .new p (.call p (.bare p "f") [])
    [.member p (.index p (.bare p "g") (.bare p "x")) (.property "C")]

theorem Expr.new_printed_spines :
    newOfMember.reread.canonical {} .initial = memberOfNew.reread.canonical {} .initial ∧
    ∃ p c as, newOfCall ⟨"lib/b.js", 2⟩ = .new p c as ∧
      c.canonical {} .initial = .call .synthetic (.bare .synthetic "f") [] := by
  constructor
  · exact (Expr.new_printed (n := 0) (by decide +kernel) (by decide +kernel)
      (by decide +kernel)).1.1 (by decide +kernel)
  · have hchain (p : Position) : (newOfCall p).isChain {} .initial = true := rfl
    have hsettled (p : Position) : (newOfCall p).isSettled = true := rfl
    have htext : Print.expr {} .initial (newOfCall .synthetic) 0 =
        Print.expr {} .initial (newOfCall ⟨"lib/b.js", 2⟩) 0 := rfl
    obtain ⟨p, c, as, h, hc, -⟩ :=
      (Expr.new_printed (hchain .synthetic) (hchain ⟨"lib/b.js", 2⟩) (by decide +kernel)).2
      (hsettled _) (hsettled _) htext
    exact ⟨p, c, as, h, hc⟩

/-- A construction and a call have the same text where a call is further down the spine of the
constructor. -/
theorem new_misread : newOfMember.isChain {} .initial = true ∧
    memberOfNew.isChain {} .initial = true ∧
    newOfMember.print {} .initial = .ok "new f().C(x)" ∧
      memberOfNew.print {} .initial = .ok "new f().C(x)" ∧
    ¬ ∃ p c as, memberOfNew = .new p c as := by
  refine ⟨by decide +kernel, by decide +kernel, by decide +kernel, by decide +kernel, ?_⟩
  rintro ⟨p, c, as, h⟩
  cases h

end FrameLedger
