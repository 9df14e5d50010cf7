import FrameLedger.Proofs.Continued
import FrameLedger.Proofs.Outcome

/-!
# Where locations are noted

What is known of the notes in a function is said of its nodes (`Noting.Annotates`): no note stands
where an expression has to stay a reference, and what a note is made in front of is an expression of
the function itself, at a place in its text, which the note tells. `Func.notes_framed`: a function
that gets a frame gets its notes like this.
-/

namespace FrameLedger

open Draft

/-- The end of the name of a file, from behind the last directory on. -/
def Position.IsBaseName (separator : Char) (p : Position) (base : String) : Prop :=
  (∀ c ∈ base.toList, c ≠ '/' ∧ c ≠ separator) ∧
    ∃ dir, p.file.toList = dir ++ base.toList ∧ ∀ c ∈ dir.getLast?, c = '/' ∨ c = separator

theorem Position.isBaseName_iff {separator : Char} {p : Position} {base : String} :
    p.IsBaseName separator base ↔ base = p.baseName separator := by
  let inside (c : Char) : Bool := c != '/' && c != separator
  have hinside (c : Char) : inside c = true ↔ c ≠ '/' ∧ c ≠ separator := by simp [inside]
  constructor
  · rintro ⟨hbase, dir, hfile, hdir⟩
    have hstop : dir.reverse.takeWhile inside = [] := by
      cases hrev : dir.reverse with
      | nil => rfl
      | cons c cs =>
        have hlast : c ∈ dir.getLast? := by
          rw [← List.head?_reverse, hrev]
          rfl
        have hc : inside c = false := by
          rcases hdir c hlast with rfl | rfl <;> simp [inside]
        simp [hc]
    have htake : p.file.toList.reverse.takeWhile inside = base.toList.reverse := by
      rw [hfile, List.reverse_append, List.takeWhile_append_of_pos, hstop, List.append_nil]
      exact fun c hc => (hinside c).2 (hbase c (List.mem_reverse.1 hc))
    rw [baseName, htake, List.reverse_reverse, String.ofList_toList]
  · rintro rfl
    rw [IsBaseName, baseName, String.toList_ofList]
    refine ⟨fun c hc => (hinside c).1 (List.mem_takeWhile_imp (List.mem_reverse.1 hc)),
      (p.file.toList.reverse.dropWhile inside).reverse, ?_, fun c hc => ?_⟩
    · rw [← List.reverse_append, List.takeWhile_append_dropWhile, List.reverse_reverse]
    · rw [List.getLast?_reverse] at hc
      have hnot := List.head?_dropWhile_not inside p.file.toList.reverse
      rw [hc] at hnot
      by_contra hne
      exact absurd ((hinside c).2 (not_or.1 hne)) (by simp [hnot])

/-- An expression that is this text wherever it is evaluated. -/
def Expr.Reads (e : Expr) (s : String) : Prop :=
  ∀ (c : Setting) (call : Caller) (env : FrameId) (m : Machine), (e.eval c call env).go m =
    (.ok (.string s), m)

/-- An expression that is the text of a position: its line, behind the name of its file if files are
recorded. -/
def Expr.Tells (e : Expr) (separator : Char) (files : Bool) (p : Position) : Prop :=
  ∃ base, p.IsBaseName separator base ∧
    e.Reads ((if files then base ++ ":" else "") ++ toString p.line)

/-- The parts of an expression that it uses as references and not for their values. -/
def Expr.referents : Expr → List Expr
  | .call _ f _ => [f]
  | .prefixed _ .inc x | .prefixed _ .dec x | .prefixed _ .delete x | .prefixed _ .typeof x => [x]
  | .postfixed _ _ x => [x]
  | .binary _ .assign l _ | .binary _ (.assignWith _) l _ => [l]
  | _ => []

def Node.referents : Node → List Expr
  | .expr e => e.referents
  | _ => []

/-! ## Nodes of nodes -/

def Node.nodes : Node → List Node
  | .block b => b.nodes
  | .stmt s => s.nodes
  | .expr e => e.nodes
  | .func f => f.nodes

/-- A list of nodes in which the nodes of each are. -/
def NodesClosed (ns : List Node) : Prop := ∀ n ∈ ns, ∀ m ∈ n.nodes, m ∈ ns

namespace NodesClosed

variable {a b : List Node} {n : Node}

theorem nil : NodesClosed [] := fun _ h => by cases h

theorem append (ha : NodesClosed a) (hb : NodesClosed b) : NodesClosed (a ++ b) := fun n hn m hm =>
  (List.mem_append.1 hn).elim (fun hn => List.mem_append_left _ (ha n hn m hm))
    fun hn => List.mem_append_right _ (hb n hn m hm)

theorem cons (hn : n.nodes = n :: a) (ha : NodesClosed a) : NodesClosed (n :: a) :=
  fun k hk m hm => by
  rcases List.mem_cons.1 hk with rfl | hk
  · rwa [hn] at hm
  · exact List.mem_cons_of_mem _ (ha k hk m hm)

end NodesClosed

mutual

theorem Expr.nodes_closed : ∀ e : Expr, NodesClosed e.nodes
  | .var .. | .bare .. | .literal .. => .cons rfl .nil
  | .member _ q _ => .cons rfl q.nodes_closed
  | .index _ a i => .cons rfl (a.nodes_closed.append i.nodes_closed)
  | .call _ f as | .new _ f as => .cons rfl (f.nodes_closed.append (exprsNodes_closed as))
  | .prefixed _ _ x | .postfixed _ _ x => .cons rfl x.nodes_closed
  | .binary _ _ l r => .cons rfl (l.nodes_closed.append r.nodes_closed)
  | .cond _ c t e => .cons rfl (c.nodes_closed.append (t.nodes_closed.append e.nodes_closed))
  | .array _ es => .cons rfl (exprsNodes_closed es)
  | .object _ ps => .cons rfl (propertiesNodes_closed ps)
  | .func _ f => .cons rfl f.nodes_closed

theorem exprsNodes_closed : ∀ es : List Expr, NodesClosed (exprsNodes es)
  | [] => .nil
  | e :: es => e.nodes_closed.append (exprsNodes_closed es)

theorem exprNodes?_closed : ∀ e : Option Expr, NodesClosed (exprNodes? e)
  | none => .nil
  | some e => e.nodes_closed

theorem propertiesNodes_closed : ∀ ps : List Property, NodesClosed (propertiesNodes ps)
  | [] => .nil
  | ⟨_, e⟩ :: ps => e.nodes_closed.append (propertiesNodes_closed ps)

theorem Func.nodes_closed : ∀ f : Func, NodesClosed f.nodes
  | ⟨_, _, b, _, _⟩ => .cons rfl b.nodes_closed

theorem Block.nodes_closed : ∀ b : Block, NodesClosed b.nodes
  | ⟨ss, _⟩ => .cons rfl (stmtsNodes_closed ss)

theorem blockNodes?_closed : ∀ b : Option Block, NodesClosed (blockNodes? b)
  | none => .nil
  | some b => b.nodes_closed

theorem declsNodes_closed : ∀ ds : List VarDecl, NodesClosed (declsNodes ds)
  | [] => .nil
  | ⟨_, e, _⟩ :: ds => (exprNodes?_closed e).append (declsNodes_closed ds)

theorem forInitNodes_closed : ∀ i : Option ForInit, NodesClosed (forInitNodes i)
  | none => .nil
  | some (.vars ds) => declsNodes_closed ds
  | some (.expr e) => e.nodes_closed

theorem catchesNodes_closed : ∀ cs : List Catch, NodesClosed (catchesNodes cs)
  | [] => .nil
  | ⟨_, _, b, _⟩ :: cs => b.nodes_closed.append (catchesNodes_closed cs)

theorem casesNodes_closed : ∀ cs : List SwitchCase, NodesClosed (casesNodes cs)
  | [] => .nil
  | ⟨t, ss⟩ :: cs =>
    (exprNodes?_closed t).append ((stmtsNodes_closed ss).append (casesNodes_closed cs))

theorem stmtsNodes_closed : ∀ ss : List Stmt, NodesClosed (stmtsNodes ss)
  | [] => .nil
  | s :: ss => s.nodes_closed.append (stmtsNodes_closed ss)

theorem stmtNodes?_closed : ∀ s : Option Stmt, NodesClosed (stmtNodes? s)
  | none => .nil
  | some s => s.nodes_closed

theorem Stmt.nodes_closed : ∀ s : Stmt, NodesClosed s.nodes
  | .expr _ e | .raise _ e => .cons rfl e.nodes_closed
  | .vars _ ds => .cons rfl (declsNodes_closed ds)
  | .ret _ e => .cons rfl (exprNodes?_closed e)
  | .branch _ c t e =>
    .cons rfl (c.nodes_closed.append (t.nodes_closed.append (stmtNodes?_closed e)))
  | .whileLoop _ c b => .cons rfl (c.nodes_closed.append b.nodes_closed)
  | .doWhile _ b c => .cons rfl (b.nodes_closed.append c.nodes_closed)
  | .forLoop _ i c n b => .cons rfl ((forInitNodes_closed i).append ((exprNodes?_closed c).append
    ((exprNodes?_closed n).append b.nodes_closed)))
  | .forIn _ _ _ o b => .cons rfl (o.nodes_closed.append b.nodes_closed)
  | .block _ b => .cons rfl b.nodes_closed
  | .tryBlock _ b cs f =>
    .cons rfl (b.nodes_closed.append ((catchesNodes_closed cs).append (blockNodes?_closed f)))
  | .labeled _ _ b => .cons rfl b.nodes_closed
  | .breakTo .. | .continueTo .. | .empty .. => .cons rfl .nil
  | .switch _ d cs => .cons rfl (d.nodes_closed.append (casesNodes_closed cs))

end

/-- The parts that an expression uses as references are parts of it. -/
theorem Expr.mem_nodes_of_mem_referents {e x : Expr} (hx : x ∈ e.referents) {n : Node}
    (hn : n ∈ x.nodes) :
    n ∈ e.nodes := by
  cases e with
  | call p f as =>
    obtain rfl := List.mem_singleton.1 hx
    exact List.mem_cons_of_mem _ (List.mem_append_left _ hn)
  | prefixed p op y =>
    have hxy : x = y := by cases op <;> first | exact List.mem_singleton.1 hx | cases hx
    exact List.mem_cons_of_mem _ (hxy ▸ hn)
  | postfixed p op y =>
    obtain rfl := List.mem_singleton.1 hx
    exact List.mem_cons_of_mem _ hn
  | binary p op l r =>
    have hxl : x = l := by cases op <;> first | exact List.mem_singleton.1 hx | cases hx
    exact List.mem_cons_of_mem _ (List.mem_append_left _ (hxl ▸ hn))
  | _ => cases hx

/-! ## Notes -/

/-- How the locations in a function are noted: where, under which index, and whether with the file,
of which the directories end in the separator. -/
structure Noting where
  vars : StackVars
  index : SymbolId
  files : Bool
  separator : Char

namespace Noting

variable (N : Noting)

/-- `$es_location[$es_stackIndex] = …` -/
def isNote (e : Expr) : Bool := e.isNote N.vars (· == N.index)

/-- An expression without the notes in it. -/
def bare (e : Expr) : Expr := e.unnoted N.vars (· == N.index)

/-- The text of a note, and what the note is made in front of. -/
def note? : Expr → Option (Expr × Expr)
  | .binary _ .comma (.binary p op slot text) e => if N.isNote (.binary p op slot text)
      then some (text, e) else none
  | _ => none

/-- What a note is made in front of, without the notes in that. -/
def wrapped? : Node → Option Node
  | .expr e => (N.note? e).map fun x => .expr (N.bare x.2)
  | _ => none

/-- The position that is noted, of a node that is a note. -/
def noted? : Node → Option Position
  | .expr e => (N.note? e).map (·.2.pos)
  | _ => none

/-- What the nodes `b` have to do with the nodes `a` that they were made from. -/
structure Annotates (a b : List Node) : Prop where
  referents : ∀ n ∈ b, ∀ e ∈ n.referents, N.note? e = none
  notes : ∀ e, .expr e ∈ b → ∀ text x, N.note? e = some (text, x) →
    x.pos.isSynthetic = false ∧ text.Tells N.separator N.files x.pos
  wrapped : (b.filterMap N.wrapped?).Sublist a
  funcs : b.filterMap Node.func? = a.filterMap Node.func?

/-- Nodes that may be added: none is a note or a function, and none uses a note as a reference. -/
def Plain (c : List Node) : Prop :=
  ∀ n ∈ c, (∀ e ∈ n.referents, N.note? e = none) ∧ N.wrapped? n = none ∧ n.func? = none

variable {N} {a a' b b' c c' : List Node} {n : Node}

theorem exists_noted {p : Position} (h : p ∈ b.filterMap N.noted?) :
    ∃ e text x, .expr e ∈ b ∧ N.note? e = some (text, x) ∧ x.pos = p := by
  obtain ⟨n, hn, hp⟩ := List.mem_filterMap.1 h
  cases n with
  | expr e =>
    obtain ⟨⟨text, x⟩, hnote, rfl⟩ := Option.map_eq_some_iff.1 hp
    exact ⟨e, text, x, hn, hnote, rfl⟩
  | _ => cases hp

theorem note?_comma {p : Position} {l r : Expr} (hl : N.isNote l = false) :
    N.note? (.binary p .comma l r) = none := by
  unfold note?
  split
  · next heq =>
    obtain ⟨-, -, rfl, rfl⟩ := Expr.binary.inj heq
    rw [hl]
    rfl
  · rfl

theorem note?_noteBefore {r : Recorder} (hr : N.vars.location = some r.location) (e : Expr) :
    N.note? (r.noteBefore N.index e) = some (r.note e.pos, e) := by
  simp [Recorder.noteBefore, Expr.comma, Expr.assign, note?, isNote, Expr.isNote, hr]

namespace Plain

theorem nil : N.Plain [] := fun _ h => by cases h

theorem append (h : N.Plain c) (h' : N.Plain c') : N.Plain (c ++ c') :=
  List.forall_mem_append.2 ⟨h, h'⟩

theorem stmt (s : Stmt) (h : N.Plain c) : N.Plain (.stmt s :: c) :=
  List.forall_mem_cons.2 ⟨⟨(fun _ he => by cases he), rfl, rfl⟩, h⟩

theorem block (b : Block) (h : N.Plain c) : N.Plain (.block b :: c) :=
  List.forall_mem_cons.2 ⟨⟨(fun _ he => by cases he), rfl, rfl⟩, h⟩

theorem expr {e : Expr} (hnote : N.note? e = none) (hrefs : ∀ x ∈ e.referents, N.note? x = none)
    (h : N.Plain c) :
    N.Plain (.expr e :: c) :=
  List.forall_mem_cons.2 ⟨⟨hrefs, by rw [wrapped?, hnote]; rfl, rfl⟩, h⟩

theorem var (p : Position) (s : SymbolId) : N.Plain (Expr.var p s).nodes :=
  expr rfl (fun _ h => by cases h) nil

theorem literal (p : Position) (l : Literal) : N.Plain (Expr.literal p l).nodes :=
  expr rfl (fun _ h => by cases h) nil

end Plain

namespace Annotates

theorem nil : N.Annotates [] [] := ⟨fun _ h => (by cases h), fun _ h => (by cases h), .slnil, rfl⟩

theorem append (h : N.Annotates a b) (h' : N.Annotates a' b') :
    N.Annotates (a ++ a') (b ++ b') where
  referents n hn := (List.mem_append.1 hn).elim (h.referents n) (h'.referents n)
  notes e he := (List.mem_append.1 he).elim (h.notes e) (h'.notes e)
  wrapped := by
    rw [List.filterMap_append]
    exact h.wrapped.append h'.wrapped
  funcs := by rw [List.filterMap_append, List.filterMap_append, h.funcs, h'.funcs]

theorem added (h : N.Plain c) : N.Annotates [] c where
  referents n hn := (h n hn).1
  notes e he text x hx := by
    have hnone := (h _ he).2.1
    rw [wrapped?, hx] at hnone
    cases hnone
  wrapped := by rw [List.filterMap_eq_nil_iff.2 fun n hn => (h n hn).2.1]
  funcs := List.filterMap_eq_nil_iff.2 fun n hn => (h n hn).2.2

theorem behind (hc : N.Plain c) (h : N.Annotates a b) : N.Annotates a (c ++ b) :=
  append (added hc) h

theorem before (hc : N.Plain c) (h : N.Annotates a b) : N.Annotates a (b ++ c) :=
  a.append_nil ▸ append h (added hc)

theorem gone (hn : n.func? = none) (h : N.Annotates a b) : N.Annotates (n :: a) b :=
  { h with
    wrapped := h.wrapped.cons n
    funcs := by rw [h.funcs, List.filterMap_cons_none hn] }

/-- Statements and blocks say nothing about notes. -/
theorem stmt (s s' : Stmt) (h : N.Annotates a b) : N.Annotates (.stmt s :: a) (.stmt s' :: b) :=
  gone rfl (behind (.stmt s' .nil) h)

theorem block (b₀ b₁ : Block) (h : N.Annotates a b) :
    N.Annotates (.block b₀ :: a) (.block b₁ :: b) :=
  gone rfl (behind (.block b₁ .nil) h)

/-- Something may be added anywhere. -/
theorem insert (hc : N.Plain c) (h : N.Annotates a (b ++ b')) : N.Annotates a (b ++ (c ++ b')) := by
  have hall := h.behind hc
  have hmem {n : Node} (hn : n ∈ b ++ (c ++ b')) : n ∈ c ++ (b ++ b') := by
    simp only [List.mem_append] at hn ⊢
    tauto
  have hnone := List.filterMap_eq_nil_iff.2 fun n hn => (hc n hn).2.1
  have hfuncs := List.filterMap_eq_nil_iff.2 fun n hn => (hc n hn).2.2
  have hwrapped := h.wrapped
  have hsame := h.funcs
  rw [List.filterMap_append] at hwrapped hsame
  refine ⟨fun n hn => hall.referents n (hmem hn), fun e he => hall.notes e (hmem he), ?_, ?_⟩
  · rwa [List.filterMap_append, List.filterMap_append, hnone]
  · rwa [List.filterMap_append, List.filterMap_append, hfuncs]

/-- A note in front of an expression. -/
theorem noted {e x y text : Expr} (hnote : N.note? y = some (text, x)) (hbare : N.bare x = e)
    (hpos : x.pos.isSynthetic = false) (htext : text.Tells N.separator N.files x.pos)
    (hrefs : y.referents = []) (h : N.Annotates a b) :
    N.Annotates (.expr e :: a) (.expr y :: b) where
  referents :=
    List.forall_mem_cons.2
      ⟨fun z hz => (by rw [Node.referents, hrefs] at hz; cases hz), h.referents⟩
  notes z hz text' x' hx' := by
    rcases List.mem_cons.1 hz with heq | hz
    · obtain rfl := Node.expr.inj heq
      rw [hnote] at hx'
      obtain ⟨rfl, rfl⟩ := Prod.mk.inj (Option.some.inj hx')
      exact ⟨hpos, htext⟩
    · exact h.notes z hz text' x' hx'
  wrapped := by
    have hwrapped : N.wrapped? (.expr y) = some (.expr e) := by
      rw [wrapped?, hnote, Option.map_some, hbare]
    rw [List.filterMap_cons_some hwrapped]
    exact h.wrapped.cons_cons _
  funcs := h.funcs

theorem of_stmt {s : Stmt} (h : N.Annotates a (.stmt s :: b)) : N.Annotates a b where
  referents n hn := h.referents n (List.mem_cons_of_mem _ hn)
  notes e he := h.notes e (List.mem_cons_of_mem _ he)
  wrapped := h.wrapped
  funcs := h.funcs

end Annotates

/-! ## Expressions -/

/-- Nodes none of which refers to the index. -/
def Unused (N : Noting) (a : List Node) : Prop := ∀ n ∈ a, n.var? ≠ some N.index

/-- An expression that is no note by itself, for what a note is told by is not the index. -/
def Clear (N : Noting) : Expr → Prop
  | .var _ s => s ≠ N.index
  | .index _ _ i => N.Clear i
  | .binary _ .assign l _ => N.Clear l
  | _ => True

theorem Clear.isNote {e : Expr} (h : N.Clear e) : N.isNote e = false := by
  unfold Noting.isNote Expr.isNote
  split
  · next i _ =>
    have hi : (i == N.index) = false := beq_eq_false_iff_ne.2 h
    simp only [hi, Bool.and_false]
  · rfl

theorem Clear.of_unused : ∀ e : Expr, N.Unused e.nodes → N.Clear e
  | .var _ _, h => fun hs => h _ (List.mem_singleton_self _) (congrArg some hs)
  | .index _ _ i, h => of_unused i (List.forall_mem_append.1 (List.forall_mem_cons.1 h).2).2
  | .binary _ op l _, h => by
    cases op with
    | assign => exact of_unused l (List.forall_mem_append.1 (List.forall_mem_cons.1 h).2).1
    | _ => trivial
  | .bare .., _ | .member .., _ | .call .., _ | .new .., _ | .prefixed .., _ | .postfixed .., _
  | .cond .., _
  | .literal .., _ | .array .., _ | .object .., _ | .func .., _ => trivial

theorem note?_of_unused {e : Expr} (h : N.Unused e.nodes) : N.note? e = none := by
  cases e with
  | binary p op l r =>
    cases op with
    | comma =>
      exact note?_comma
        (Clear.of_unused l (List.forall_mem_append.1 (List.forall_mem_cons.1 h).2).1).isNote
    | _ => rfl
  | _ => rfl

/-- Code that was there before has no notes. -/
theorem Annotates.refl (hclosed : NodesClosed a) (h : N.Unused a) : N.Annotates a a := by
  have hnone {e : Expr} (he : .expr e ∈ a) : N.note? e = none :=
    note?_of_unused fun n hn => h n (hclosed (.expr e) he n hn)
  have hwrapped : a.filterMap N.wrapped? = [] := by
    refine List.filterMap_eq_nil_iff.2 fun n hn => ?_
    cases n with
    | expr e => rw [wrapped?, hnone hn]; rfl
    | _ => rfl
  refine ⟨fun n hn x hx => ?_, fun e he text x hx => ?_, by rw [hwrapped]; exact a.nil_sublist, rfl⟩
  · cases n with
    | expr e =>
      exact note?_of_unused fun m hm =>
        h m (hclosed (.expr e) hn m (e.mem_nodes_of_mem_referents hx hm))
    | _ => cases hx
  · rw [hnone he] at hx
    cases hx

/-- What an expression becomes, used like this. -/
structure Annotated (N : Noting) (u : Usage) (e e' : Expr) : Prop where
  nodes : N.Annotates e.nodes e'.nodes
  note : u ≠ .value → N.note? e' = none
  clear : N.Clear e'
  bare : N.bare e' = e

/-- What an expression is once its parts are done. -/
structure Rebuilt (N : Noting) (e e₁ : Expr) : Prop where
  parts : ∃ a b, e.nodes = .expr e :: a ∧ e₁.nodes = .expr e₁ :: b ∧ N.Annotates a b
  referents : ∀ x ∈ e₁.referents, N.note? x = none
  note : N.note? e₁ = none
  clear : N.Clear e₁
  bare : N.bare e₁ = e

theorem Rebuilt.annotated {e e₁ : Expr} (h : N.Rebuilt e e₁) (u : Usage) : N.Annotated u e e₁ := by
  obtain ⟨a, b, ha, hb, hab⟩ := h.parts
  refine ⟨?_, fun _ => h.note, h.clear, h.bare⟩
  rw [ha, hb]
  exact .gone rfl (.behind (.expr h.note h.referents .nil) hab)

/-- The note of a location is its text. -/
theorem tells_note (r : Recorder) (p : Position) : (r.note p).Tells r.separator r.files p := by
  refine ⟨_, Position.isBaseName_iff.2 rfl, fun c call env m => ?_⟩
  unfold Recorder.note
  split
  · rfl
  · rw [String.empty_append]
    rfl

/-! ## Work that notes locations -/

/-- The frame has its index, and locations are noted like this if at all. -/
structure Holds (N : Noting) (d : Draft) : Prop where
  frameIndex : d.locals.frameIndex = some N.index
  recorder : ∀ r, d.recorder = some r → N.vars.location = some r.location ∧ r.files = N.files ∧
    r.separator = N.separator

/-- What a piece of work makes. -/
def Makes {α : Type} (N : Noting) (x : StateM Draft α) (P : α → Prop) : Prop :=
  ∀ d, N.Holds d → N.Holds (x.run d).2 ∧ P (x.run d).1

namespace Makes

variable {α β : Type} {x : StateM Draft α} {f : α → StateM Draft β} {P P' : α → Prop} {Q : β → Prop}

theorem pure {y : α} (h : P y) : N.Makes (pure y) P := fun _ hd => ⟨hd, h⟩

theorem bind (hx : N.Makes x P) (hf : ∀ y, P y → N.Makes (f y) Q) : N.Makes (x >>= f) Q :=
  fun d hd => hf _ (hx d hd).2 _ (hx d hd).1

theorem get_bind {f : Draft → StateM Draft β} (h : ∀ d, N.Makes (f d) Q) : N.Makes (get >>= f) Q :=
  fun d hd => h d d hd

theorem mono (hx : N.Makes x P) (h : ∀ y, P y → P' y) : N.Makes x P' :=
  fun d hd => ⟨(hx d hd).1, h _ (hx d hd).2⟩

end Makes

theorem makes_frameIndex : N.Makes frameIndex (· = N.index) := fun d hd => by
  rw [run_frameIndex_some hd.frameIndex]
  exact ⟨hd, rfl⟩

theorem makes_count (s : Stats) : N.Makes (count s) fun _ => True :=
  fun _ hd => ⟨⟨hd.frameIndex, hd.recorder⟩, trivial⟩

theorem makes_forget : N.Makes forget fun _ => True := fun d hd => by
  refine ⟨⟨hd.frameIndex, fun r hr => ?_⟩, trivial⟩
  obtain ⟨r', hr', rfl⟩ := Option.map_eq_some_iff.1 hr
  exact hd.recorder r' hr'

theorem makes_forgetIf (b : Bool) : N.Makes (forgetIf b) fun _ => True := by
  cases b with
  | true => exact makes_forget
  | false => exact .pure trivial

theorem plain_note (r : Recorder) (p : Position) : N.Plain (r.note p).nodes := by
  unfold Recorder.note
  split
  · exact .expr rfl (fun _ h => by cases h) ((Plain.literal _ _).append (.literal _ _))
  · exact .literal _ _

theorem Rebuilt.noted {e e₁ : Expr} (h : N.Rebuilt e e₁) {r : Recorder}
    (hlocation : N.vars.location = some r.location) (hfiles : r.files = N.files)
    (hseparator : r.separator = N.separator) (hpos : e₁.pos.isSynthetic = false) :
    N.Annotated .value e (r.noteBefore N.index e₁) := by
  obtain ⟨a, b, ha, hb, hab⟩ := h.parts
  have hnote := note?_noteBefore hlocation e₁
  have hslot : N.Plain
      (Expr.assign e₁.pos (.index e₁.pos (.var e₁.pos r.location) (.var e₁.pos N.index))
      (r.note e₁.pos)).nodes := by
    refine .expr rfl (fun x hx => ?_)
      (.append (.expr rfl (fun _ h => by cases h) ((Plain.var _ _).append (.var _ _))) ?_)
    · obtain rfl := List.mem_singleton.1 hx
      rfl
    · exact plain_note r e₁.pos
  refine ⟨?_, fun hne => absurd rfl hne, trivial, ?_⟩
  · rw [ha]
    refine .noted hnote h.bare hpos (hfiles ▸ hseparator ▸ tells_note r e₁.pos) rfl
      (.behind hslot ?_)
    rw [hb]
    exact .behind (.expr h.note h.referents .nil) hab
  · have hslot : N.isNote
        (Expr.assign e₁.pos (.index e₁.pos (.var e₁.pos r.location) (.var e₁.pos N.index))
        (r.note e₁.pos)) = true := by
      simp [Noting.isNote, Expr.assign, Expr.isNote, hlocation]
    show N.bare (.binary e₁.pos .comma _ e₁) = e
    rw [Noting.bare, Expr.unnoted, show Expr.isNote _ _ _ = true from hslot]
    exact h.bare

/-- A note is made in front of an expression that is used for its value, if it has a place in the
text. -/
theorem Rebuilt.makes_record {e e₁ : Expr} (h : N.Rebuilt e e₁) (u : Usage) :
    N.Makes (record u e₁) (N.Annotated u e) := by
  intro d hd
  have hkept : N.Holds d ∧ N.Annotated u e e₁ := ⟨hd, h.annotated u⟩
  rw [record, StateT.run_bind, StateT.run_get, pure_bind]
  split
  · exact hkept
  · next r hr =>
    split
    · exact hkept
    · next hcond =>
      simp only [Bool.or_eq_true, bne_iff_ne, ne_eq, not_or, Decidable.not_not,
        Bool.not_eq_true] at hcond
      obtain ⟨⟨rfl, hpos⟩, -⟩ := hcond
      obtain ⟨hlocation, hfiles, hseparator⟩ := hd.recorder r hr
      have hmodify : N.Makes
          (modify fun d : Draft => { d with recorder := some { r with last := some e₁.pos } })
          fun _ => True := fun d hd =>
        ⟨⟨hd.frameIndex, fun r' hr' => Option.some.inj hr' ▸ ⟨hlocation, hfiles, hseparator⟩⟩,
          trivial⟩
      refine Makes.bind hmodify (fun _ _ => makes_frameIndex.bind fun i hi => (makes_count _).bind
        fun _ _ => ?_) d hd
      subst hi
      exact .pure (h.noted hlocation hfiles hseparator hpos)

mutual

theorem makes_located : ∀ (e : Expr) (u : Usage), N.Unused e.nodes →
    N.Makes (e.located u) (N.Annotated u e)
  | .var p s, u, h => by
    rw [Expr.located]
    have hsame : N.Rebuilt (.var p s) (.var p s) :=
      ⟨⟨[], [], rfl, rfl, .nil⟩, (fun _ hx => by cases hx), rfl, .of_unused _ h, rfl⟩
    exact hsame.makes_record u
  | .bare p n, u, h => by
    rw [Expr.located]
    have hsame : N.Rebuilt (.bare p n) (.bare p n) :=
      ⟨⟨[], [], rfl, rfl, .nil⟩, (fun _ hx => by cases hx), rfl, trivial, rfl⟩
    exact hsame.makes_record u
  | .member p q n, u, h => by
    rw [Expr.located]
    refine (makes_located q .value (List.forall_mem_cons.1 h).2).bind fun q' hq =>
      Rebuilt.makes_record ?_ u
    exact ⟨⟨_, _, rfl, rfl, hq.nodes⟩, (fun _ hx => by cases hx), rfl, trivial,
      congrArg (Expr.member p · n) hq.bare⟩
  | .index p a i, u, h => by
    obtain ⟨ha, hi⟩ := List.forall_mem_append.1 (List.forall_mem_cons.1 h).2
    rw [Expr.located]
    refine (makes_located a .value ha).bind fun a' ha =>
      (makes_located i .value hi).bind fun i' hi => Rebuilt.makes_record ?_ u
    exact ⟨⟨_, _, rfl, rfl, ha.nodes.append hi.nodes⟩, (fun _ hx => by cases hx), rfl, hi.clear,
      congrArg₂ (Expr.index p) ha.bare hi.bare⟩
  | .call p f as, u, h => by
    obtain ⟨hf, has⟩ := List.forall_mem_append.1 (List.forall_mem_cons.1 h).2
    rw [Expr.located]
    refine (makes_located f .reference hf).bind fun f' hf =>
      (makes_exprsLocated as has).bind fun as' has => Rebuilt.makes_record ?_ u
    refine ⟨⟨_, _, rfl, rfl, hf.nodes.append has.1⟩, fun x hx => ?_, rfl, trivial,
      congrArg₂ (Expr.call p) hf.bare has.2⟩
    obtain rfl := List.mem_singleton.1 hx
    exact hf.note (by decide)
  | .new p f as, u, h => by
    obtain ⟨hf, has⟩ := List.forall_mem_append.1 (List.forall_mem_cons.1 h).2
    rw [Expr.located]
    refine (makes_located f .value hf).bind fun f' hf =>
      (makes_exprsLocated as has).bind fun as' has => Rebuilt.makes_record ?_ u
    exact ⟨⟨_, _, rfl, rfl, hf.nodes.append has.1⟩, (fun _ hx => by cases hx), rfl, trivial,
      congrArg₂ (Expr.new p) hf.bare has.2⟩
  | .prefixed p op x, u, h => by
    rw [Expr.located]
    refine (makes_located x op.usage (List.forall_mem_cons.1 h).2).bind fun x' hx =>
      Rebuilt.makes_record ?_ u
    refine ⟨⟨_, _, rfl, rfl, hx.nodes⟩, fun y hy => ?_, rfl, trivial,
      congrArg (Expr.prefixed p op) hx.bare⟩
    have hy : y = x' ∧ op.usage ≠ .value := by
      cases op <;> first | exact ⟨List.mem_singleton.1 hy, by decide⟩ | cases hy
    exact hy.1 ▸ hx.note hy.2
  | .postfixed p op x, u, h => by
    rw [Expr.located]
    refine (makes_located x .target (List.forall_mem_cons.1 h).2).bind fun x' hx =>
      Rebuilt.makes_record ?_ u
    refine ⟨⟨_, _, rfl, rfl, hx.nodes⟩, fun y hy => ?_, rfl, trivial,
      congrArg (Expr.postfixed p op) hx.bare⟩
    obtain rfl := List.mem_singleton.1 hy
    exact hx.note (by decide)
  | .binary p op l r, u, h => by
    obtain ⟨hl, hr⟩ := List.forall_mem_append.1 (List.forall_mem_cons.1 h).2
    rw [Expr.located]
    refine (makes_located l _ hl).bind fun l' hl => (makes_located r .value hr).bind fun r' hr => ?_
    have hboth : N.Rebuilt (.binary p op l r) (.binary p op l' r') := by
      refine ⟨⟨_, _, rfl, rfl, hl.nodes.append hr.nodes⟩, fun y hy => ?_, ?_, ?_, ?_⟩
      · have hy : y = l' ∧ op.isAssignment = true := by
          cases op <;> first | exact ⟨List.mem_singleton.1 hy, rfl⟩ | cases hy
        rw [hy.1]
        exact hl.note (by rw [if_pos hy.2]; decide)
      · cases op with
        | comma => exact note?_comma hl.clear.isNote
        | _ => rfl
      · cases op with
        | assign => exact hl.clear
        | _ => trivial
      · rw [Noting.bare, Expr.unnoted, show Expr.isNote _ _ l' = false from hl.clear.isNote,
          Bool.and_false]
        exact congrArg₂ (Expr.binary p op) hl.bare hr.bare
    split
    · exact hboth.makes_record u
    · exact .pure (hboth.annotated u)
  | .cond p c t e, u, h => by
    obtain ⟨hc, h⟩ := List.forall_mem_append.1 (List.forall_mem_cons.1 h).2
    obtain ⟨ht, he⟩ := List.forall_mem_append.1 h
    rw [Expr.located]
    refine (makes_located c .value hc).bind fun c' hc =>
      (makes_located t .value ht).bind fun t' ht =>
      (makes_located e .value he).bind fun e' he => .pure (Rebuilt.annotated ?_ u)
    refine ⟨⟨_, _, rfl, rfl, hc.nodes.append (ht.nodes.append he.nodes)⟩, (fun _ hx => by cases hx),
      rfl, trivial, ?_⟩
    show Expr.cond p (N.bare c') (N.bare t') (N.bare e') = _
    rw [hc.bare, ht.bare, he.bare]
  | .array p es, u, h => by
    rw [Expr.located]
    refine (makes_exprsLocated es (List.forall_mem_cons.1 h).2).bind fun es' hes =>
      .pure (Rebuilt.annotated ?_ u)
    exact ⟨⟨_, _, rfl, rfl, hes.1⟩, (fun _ hx => by cases hx), rfl, trivial,
      congrArg (Expr.array p) hes.2⟩
  | .object p ps, u, h => by
    rw [Expr.located]
    refine (makes_propertiesLocated ps (List.forall_mem_cons.1 h).2).bind fun ps' hps =>
      .pure (Rebuilt.annotated ?_ u)
    exact ⟨⟨_, _, rfl, rfl, hps.1⟩, (fun _ hx => by cases hx), rfl, trivial,
      congrArg (Expr.object p) hps.2⟩
  | .literal p l, u, h => by
    rw [Expr.located]
    have hsame : N.Rebuilt (.literal p l) (.literal p l) :=
      ⟨⟨[], [], rfl, rfl, .nil⟩, (fun _ hx => by cases hx), rfl, trivial, rfl⟩
    exact .pure (hsame.annotated u)
  | .func p f, u, h => by
    rw [Expr.located]
    have hinner : N.Annotates f.nodes f.nodes := .refl f.nodes_closed (List.forall_mem_cons.1 h).2
    have hsame : N.Rebuilt (.func p f) (.func p f) :=
      ⟨⟨_, _, rfl, rfl, hinner⟩, (fun _ hx => by cases hx), rfl, trivial, rfl⟩
    exact .pure (hsame.annotated u)

theorem makes_exprsLocated : ∀ es : List Expr, N.Unused (exprsNodes es) →
    N.Makes (exprsLocated es) fun es' =>
    N.Annotates (exprsNodes es) (exprsNodes es') ∧ exprsUnnoted N.vars (· == N.index) es' = es
  | [], _ => .pure ⟨.nil, rfl⟩
  | e :: es, h => by
    obtain ⟨he, hes⟩ := List.forall_mem_append.1 h
    rw [exprsLocated]
    refine (makes_located e .value he).bind fun e' he =>
      (makes_exprsLocated es hes).bind fun es' hes => .pure ?_
    exact ⟨he.nodes.append hes.1, congrArg₂ List.cons he.bare hes.2⟩

theorem makes_propertiesLocated : ∀ ps : List Property, N.Unused (propertiesNodes ps) →
    N.Makes (propertiesLocated ps) fun ps' =>
      N.Annotates (propertiesNodes ps) (propertiesNodes ps') ∧
        propertiesUnnoted N.vars (· == N.index) ps' = ps
  | [], _ => .pure ⟨.nil, rfl⟩
  | ⟨k, e⟩ :: ps, h => by
    obtain ⟨he, hps⟩ := List.forall_mem_append.1 h
    rw [propertiesLocated]
    refine (makes_located e .value he).bind fun e' he => (makes_propertiesLocated ps hps).bind
      fun ps' hps => .pure ?_
    exact ⟨he.nodes.append hps.1, congrArg₂ (fun e ps => Property.mk k e :: ps) he.bare hps.2⟩

end

theorem makes_locate {e : Expr} (h : N.Unused e.nodes) : N.Makes (locate e) fun e' =>
    N.Annotates e.nodes e'.nodes := by
  refine .get_bind fun d => ?_
  split
  · exact .pure (.refl e.nodes_closed h)
  · exact (makes_located e .value h).mono fun _ he => he.nodes

theorem makes_locate? {e : Option Expr} (h : N.Unused (exprNodes? e)) :
    N.Makes (locate? e) fun e' => N.Annotates (exprNodes? e) (exprNodes? e') := by
  cases e with
  | none => exact .pure .nil
  | some e => exact (makes_locate h).bind fun _ he => .pure he

theorem makes_locateDecls {ds : List VarDecl} (h : N.Unused (declsNodes ds)) :
    N.Makes (locateDecls ds) fun ds' => N.Annotates (declsNodes ds) (declsNodes ds') := by
  induction ds with
  | nil => exact .pure .nil
  | cons d ds ih =>
    obtain ⟨s, e, p⟩ := d
    obtain ⟨he, hds⟩ := List.forall_mem_append.1 h
    rw [locateDecls, List.mapM_cons]
    have hone : N.Makes (do return { (⟨s, e, p⟩ : VarDecl) with init := ← locate? e }) fun d' =>
        N.Annotates (exprNodes? e) (exprNodes? d'.init) := (makes_locate? he).bind fun _ he =>
          .pure he
    refine hone.bind fun d' he => (ih hds).bind fun ds' hds => .pure ?_
    obtain ⟨s', e', p'⟩ := d'
    exact he.append hds

theorem makes_locateInit {i : Option ForInit} (h : N.Unused (forInitNodes i)) :
    N.Makes (locateInit i) fun i' => N.Annotates (forInitNodes i) (forInitNodes i') := by
  rcases i with _ | ds | e
  · exact .pure .nil
  · exact (makes_locateDecls h).bind fun _ hds => .pure hds
  · exact (makes_locate h).bind fun _ he => .pure he

/-! ## Statements -/

section Statements

variable {v : StackVars} {w : SymbolId}

theorem Plain.assign (p q : Position) (s : SymbolId) {e : Expr} (h : N.Plain e.nodes) :
    N.Plain (Expr.assign p (.var q s) e).nodes := by
  refine .expr rfl (fun x hx => ?_) ((Plain.var q s).append h)
  obtain rfl := List.mem_singleton.1 hx
  rfl

theorem plain_pop (i : SymbolId) (p : Position) : N.Plain (popCode v i p).nodes :=
  .assign p p _ (.expr rfl (fun _ h => by cases h) ((Plain.var p i).append (.literal p _)))

theorem plain_reset (i : SymbolId) (p : Position) : N.Plain (resetCode v i p).nodes :=
  .stmt _ (.assign p p _ (.var p i))

theorem plain_rethrow (i e : SymbolId) (sc : ScopeId) (p : Position) :
    N.Plain (catchesNodes [rethrowCode v w i e sc p]) := by
  have hcall : N.Plain (Expr.call p (.var p w) [.var p e]).nodes := by
    refine .expr rfl (fun x hx => ?_) ((Plain.var p w).append ((Plain.var p e).append .nil))
    obtain rfl := List.mem_singleton.1 hx
    rfl
  exact .append (.block _ (.append (.stmt _ (.assign p p e hcall)) (.append (plain_reset i p)
    (.append (.stmt _ (.var p e)) .nil)))) .nil

theorem plain_push (i : SymbolId) (name : Option SymbolId) (p : Position) :
    N.Plain (pushCode v i name p).nodes := by
  have hslot : N.Plain
      (Expr.index p (.var p v.stack)
      (.assign p (.var p i) (.prefixed p .inc (.var p v.depth)))).nodes := by
    refine .expr rfl (fun _ h => by cases h)
      ((Plain.var p _).append (.assign p p i (.expr rfl (fun x hx => ?_) (.var p _))))
    obtain rfl := List.mem_singleton.1 hx
    rfl
  have hname : N.Plain (name.elim (Expr.null p) (.var p)).nodes := by
    cases name with
    | none => exact .literal p _
    | some s => exact .var p s
  refine .stmt _ (.expr rfl (fun x hx => ?_) (hslot.append hname))
  obtain rfl := List.mem_singleton.1 hx
  rfl

theorem makes_onLocals {α : Type} {x : StateM Locals α}
    (hx : ∀ l, (x.run l).2.frameIndex = l.frameIndex) :
    N.Makes (onLocals x) fun _ => True := fun d hd =>
  ⟨⟨(hx d.locals).trans hd.frameIndex, hd.recorder⟩, trivial⟩

theorem frameIndex_returnTempVar (l : Locals) :
    (Locals.returnTempVar.run l).2.frameIndex = l.frameIndex := by
  rw [Locals.returnTempVar, StateT.run_bind, StateT.run_get, pure_bind]
  cases l.returnTemp <;> rfl

theorem frameIndex_earlyExitVar (c : CleanupId) (l : Locals) :
    ((Locals.earlyExitVar c).run l).2.frameIndex = l.frameIndex := by
  rw [Locals.earlyExitVar, StateT.run_bind, StateT.run_get, pure_bind]
  cases h : l.earlyExit? c <;> rfl

theorem makes_pop (p : Position) : N.Makes (pop v p) (· = popCode v N.index p) :=
  makes_frameIndex.bind fun _ hi => (makes_count _).bind fun _ _ => .pure (hi ▸ rfl)

theorem makes_resetDepth (p : Position) : N.Makes (resetDepth v p) (· = resetCode v N.index p) :=
  makes_frameIndex.bind fun _ hi => (makes_count _).bind fun _ _ => .pure (hi ▸ rfl)

theorem makes_syntheticCatch (p : Position) : N.Makes (syntheticCatch v w p) fun c =>
    N.Plain (catchesNodes [c]) := by
  refine (makes_onLocals fun _ => rfl).bind fun x _ => ?_
  obtain ⟨sc, e⟩ := x
  exact makes_frameIndex.bind fun i _ => (makes_count _).bind fun _ _ =>
    .pure (plain_rethrow i e sc p)

theorem makes_exitThrough (c : CleanupId) (p : Position) {e e' : Option Expr}
    (h : N.Annotates (exprNodes? e) (exprNodes? e')) :
    N.Makes (exitThrough c p e') fun ss => N.Annotates (Stmt.ret p e).nodes (stmtsNodes ss) := by
  refine (makes_onLocals (frameIndex_earlyExitVar c)).bind fun flag _ => ?_
  have hset : N.Plain (Expr.assign p (.var p flag) (.bool p true)).nodes :=
    .assign p p flag (.literal p _)
  cases e' with
  | none => exact .pure (.gone rfl (.behind (.stmt _ hset) (.behind (.stmt _ .nil) h)))
  | some e' =>
    refine .pure
      (.stmt _ _ (.behind (c := [_]) (.expr (note?_comma rfl) (fun _ hx => by cases hx) .nil) ?_))
    exact .before .nil (.behind hset h)

theorem makes_popAndReturn (p : Position) {e e' : Option Expr}
    (h : N.Annotates (exprNodes? e) (exprNodes? e')) :
    N.Makes (popAndReturn v p e') fun ss => N.Annotates (Stmt.ret p e).nodes (stmtsNodes ss) := by
  unfold popAndReturn
  split
  · next e₁ he =>
    obtain ⟨rfl, -⟩ := Option.filter_eq_some_iff.1 he
    refine (makes_onLocals frameIndex_returnTempVar).bind fun temp _ =>
      (makes_pop p).bind fun x hx => .pure ?_
    subst hx
    refine .gone rfl (.behind (c := [_, _, _]) (.stmt _ (.expr rfl (fun x hx => ?_) (.var p temp)))
      (.before ?_ h))
    · obtain rfl := List.mem_singleton.1 hx
      rfl
    · exact .append (.stmt _ (plain_pop N.index p)) (.append (.stmt _ (.var p temp)) .nil)
  · refine (makes_pop p).bind fun x hx => .pure ?_
    subst hx
    exact .behind (.stmt _ (plain_pop N.index p)) (.stmt _ _ (.before .nil h))

theorem makes_guardCleanup (c : CleanupId) {a : List Node} {fs : List Stmt} (b₀ : Block)
    (q : Position) (h : N.Annotates a (stmtsNodes fs)) :
    N.Makes (guardCleanup v c ⟨fs, q⟩) fun b => N.Annotates (.block b₀ :: a) b.nodes := by
  refine .get_bind fun d => ?_
  split
  · split
    · exact .pure (.block _ _ h)
    · refine (makes_pop q).bind fun x hx => .pure (.block _ _ ?_)
      subst hx
      rw [stmtsNodes_append]
      refine .before (.append (.stmt _ (.expr rfl (fun _ hx => by cases hx) ?_)) .nil) h
      exact (Plain.var q _).append (plain_pop N.index q)
  · exact .pure (.block _ _ h)

theorem makes_withReset (r : Region) (s : Stmt) {a : List Node} {x : StateM Draft (List Stmt)}
    (hx : N.Makes x fun ss => N.Annotates a (stmtsNodes ss)) :
    N.Makes (withReset v w r s x) fun ss => N.Annotates a (stmtsNodes ss) := by
  refine hx.bind fun ss hss => ?_
  split
  · refine (makes_resetDepth s.pos).bind fun y hy => .pure ?_
    subst hy
    rw [stmtsNodes_append]
    exact hss.before ((plain_reset N.index s.pos).append .nil)
  · exact .pure hss

theorem makes_asBody (r : Region) (s : Stmt) {a : List Node} {x : StateM Draft (List Stmt)}
    (hx : N.Makes x fun ss => N.Annotates a (stmtsNodes ss)) :
    N.Makes (asBody v w r s x) fun s' => N.Annotates a s'.nodes := by
  refine (makes_withReset r s hx).bind fun ss hss => .pure ?_
  rcases ss with _ | ⟨y, _ | ⟨z, ys⟩⟩
  · exact .behind (c := [_, _]) (.stmt _ (.block _ .nil)) hss
  · rwa [stmtsNodes, stmtsNodes, List.append_nil] at hss
  · exact .behind (c := [_, _]) (.stmt _ (.block _ .nil)) hss

mutual

theorem makes_framed : ∀ (s : Stmt) (r : Region), N.Unused s.nodes →
    N.Makes (s.framed v w r) fun ss => N.Annotates s.nodes (stmtsNodes ss)
  | .expr p e, r, h => by
    rw [Stmt.framed]
    exact (makes_locate (List.forall_mem_cons.1 h).2).bind fun _ he =>
      .pure (.stmt _ _ (.before .nil he))
  | .vars p ds, r, h => by
    rw [Stmt.framed]
    exact (makes_locateDecls (List.forall_mem_cons.1 h).2).bind fun _ hds =>
      .pure (.stmt _ _ (.before .nil hds))
  | .ret p e, r, h => by
    rw [Stmt.framed]
    refine (makes_locate? (List.forall_mem_cons.1 h).2).bind fun e' he => ?_
    split
    · next c _ => exact makes_exitThrough c p he
    · exact makes_popAndReturn p he
  | .raise p e, r, h => by
    rw [Stmt.framed]
    exact (makes_locate (List.forall_mem_cons.1 h).2).bind fun _ he =>
      .pure (.stmt _ _ (.before .nil he))
  | .branch p t yes no, r, h => by
    obtain ⟨ht, h⟩ := List.forall_mem_append.1 (List.forall_mem_cons.1 h).2
    obtain ⟨hyes, hno⟩ := List.forall_mem_append.1 h
    rw [Stmt.framed]
    exact (makes_locate ht).bind fun t' ht => (makes_asBody r yes (makes_framed yes r hyes)).bind
      fun yes' hyes =>
      (makes_stmtFramed? no r hno).bind fun no' hno =>
        .pure (.stmt _ _ (.before .nil (ht.append (hyes.append hno))))
  | .whileLoop p t b, r, h => by
    obtain ⟨ht, hb⟩ := List.forall_mem_append.1 (List.forall_mem_cons.1 h).2
    rw [Stmt.framed]
    exact makes_forget.bind fun _ _ => (makes_locate ht).bind fun t' ht =>
      (makes_asBody r b (makes_framed b r hb)).bind fun b' hb =>
        .pure (.stmt _ _ (.before .nil (ht.append hb)))
  | .doWhile p b t, r, h => by
    obtain ⟨hb, ht⟩ := List.forall_mem_append.1 (List.forall_mem_cons.1 h).2
    rw [Stmt.framed]
    exact (makes_asBody r b (makes_framed b r hb)).bind fun b' hb =>
      (makes_locate ht).bind fun t' ht => .pure (.stmt _ _ (.before .nil (hb.append ht)))
  | .forLoop p i t n b, r, h => by
    obtain ⟨hi, h⟩ := List.forall_mem_append.1 (List.forall_mem_cons.1 h).2
    obtain ⟨ht, h⟩ := List.forall_mem_append.1 h
    obtain ⟨hn, hb⟩ := List.forall_mem_append.1 h
    rw [framed_forLoop]
    exact (makes_locateInit hi).bind fun i' hi => (makes_forgetIf _).bind fun _ _ =>
      (makes_locate? ht).bind fun t' ht =>
      (makes_forgetIf _).bind fun _ _ => (makes_locate? hn).bind fun n' hn =>
        (makes_asBody r b (makes_framed b r hb)).bind fun b' hb =>
          .pure (.stmt _ _ (.before .nil (hi.append (ht.append (hn.append hb)))))
  | .forIn p k declared o b, r, h => by
    obtain ⟨ho, hb⟩ := List.forall_mem_append.1 (List.forall_mem_cons.1 h).2
    rw [Stmt.framed]
    exact (makes_locate ho).bind fun o' ho => (makes_asBody r b (makes_framed b r hb)).bind
      fun b' hb => .pure (.stmt _ _ (.before .nil (ho.append hb)))
  | .block p ⟨ss, q⟩, r, h => by
    rw [Stmt.framed]
    exact (makes_stmtsFramed ss r (List.forall_mem_cons.1 (List.forall_mem_cons.1 h).2).2).bind
      fun ss' hss => .pure (.stmt _ _ (.before .nil (.block _ _ hss)))
  | .tryBlock p ⟨ss, q⟩ cs none, r, h => by
    obtain ⟨hb, h⟩ := List.forall_mem_append.1 (List.forall_mem_cons.1 h).2
    obtain ⟨hcs, -⟩ := List.forall_mem_append.1 h
    rw [Stmt.framed]
    exact (makes_stmtsFramed ss r (List.forall_mem_cons.1 hb).2).bind fun ss' hss =>
      (makes_catchesFramed cs r hcs).bind fun cs' hcs =>
        .pure (.stmt _ _ (.before .nil (.append (.block _ _ hss) (hcs.append .nil))))
  | .tryBlock p ⟨ss, q⟩ cs (some ⟨fs, fq⟩), r, h => by
    obtain ⟨hb, h⟩ := List.forall_mem_append.1 (List.forall_mem_cons.1 h).2
    obtain ⟨hcs, hf⟩ := List.forall_mem_append.1 h
    replace hb := (List.forall_mem_cons.1 hb).2
    replace hf := (List.forall_mem_cons.1 hf).2
    rcases hc : r.cleanup with _ | c
    · rw [framed_outermost _ _ _ _ _ _ _ _ hc]
      have hcatches (r : Region) : N.Makes (catchesOrRethrow v w p cs r) fun cs' =>
          N.Annotates (catchesNodes cs) (catchesNodes cs') := by
        rw [catchesOrRethrow]
        split
        · next hnil =>
          obtain rfl := List.isEmpty_iff.1 hnil
          exact (makes_syntheticCatch p).bind fun c hc => .pure (.added hc)
        · exact makes_catchesFramed cs r hcs
      exact (makes_onLocals fun _ => rfl).bind fun c _ =>
        (makes_stmtsFramed ss _ hb).bind fun ss' hss =>
        (hcatches _).bind fun cs' hcs => (makes_stmtsFramed fs r hf).bind fun fs' hfs =>
          (makes_guardCleanup c ⟨fs, fq⟩ fq hfs).bind fun f' hf =>
            .pure (.stmt _ _ (.before .nil (.append (.block _ _ hss) (hcs.append hf))))
    · rw [Stmt.framed]
      simp only [hc]
      exact (makes_stmtsFramed ss r hb).bind fun ss' hss => (makes_catchesFramed cs r hcs).bind
        fun cs' hcs => (makes_stmtsFramed fs r hf).bind fun fs' hfs =>
          .pure (.stmt _ _ (.before .nil (.append (.block _ _ hss) (hcs.append (.block _ _ hfs)))))
  | .labeled p l b, r, h => by
    rw [Stmt.framed]
    exact (makes_asBody r b (makes_framed b r (List.forall_mem_cons.1 h).2)).bind fun b' hb =>
      .pure (.stmt _ _ (.before .nil hb))
  | .breakTo p l, r, h => by
    rw [Stmt.framed]
    exact .pure (.stmt _ _ .nil)
  | .continueTo p l, r, h => by
    rw [Stmt.framed]
    exact .pure (.stmt _ _ .nil)
  | .switch p d cs, r, h => by
    obtain ⟨hd, hcs⟩ := List.forall_mem_append.1 (List.forall_mem_cons.1 h).2
    rw [Stmt.framed]
    exact (makes_locate hd).bind fun d' hd => (makes_casesFramed cs r hcs).bind fun cs' hcs =>
      .pure (.stmt _ _ (.before .nil (hd.append hcs)))
  | .empty p, r, h => by
    rw [Stmt.framed]
    exact .pure (.stmt _ _ .nil)
termination_by structural s => s

theorem makes_stmtsFramed : ∀ (ss : List Stmt) (r : Region), N.Unused (stmtsNodes ss) →
    N.Makes (stmtsFramed v w ss r) fun ss' => N.Annotates (stmtsNodes ss) (stmtsNodes ss')
  | [], r, _ => .pure .nil
  | s :: ss, r, h => by
    obtain ⟨hs, hss⟩ := List.forall_mem_append.1 h
    rw [stmtsFramed]
    refine (makes_withReset r s (makes_framed s r hs)).bind fun first hfirst =>
      (makes_stmtsFramed ss r hss).bind fun rest hrest => .pure ?_
    rw [stmtsNodes_append]
    exact hfirst.append hrest
termination_by structural ss => ss

theorem makes_stmtFramed? : ∀ (s : Option Stmt) (r : Region), N.Unused (stmtNodes? s) →
    N.Makes (stmtFramed? v w s r) fun s' => N.Annotates (stmtNodes? s) (stmtNodes? s')
  | none, r, _ => .pure .nil
  | some s, r, h => by
    rw [stmtFramed?]
    exact (makes_asBody r s (makes_framed s r h)).bind fun s' hs => .pure hs
termination_by structural s => s

theorem makes_catchesFramed : ∀ (cs : List Catch) (r : Region), N.Unused (catchesNodes cs) →
    N.Makes (catchesFramed v w cs r) fun cs' => N.Annotates (catchesNodes cs) (catchesNodes cs')
  | [], r, _ => .pure .nil
  | ⟨s, sc, ⟨ss, q⟩, p⟩ :: cs, r, h => by
    obtain ⟨hb, hcs⟩ := List.forall_mem_append.1 h
    rw [catchesFramed]
    exact (makes_stmtsFramed ss _ (List.forall_mem_cons.1 hb).2).bind fun ss' hss =>
      (makes_catchesFramed cs r hcs).bind fun cs' hcs => .pure (.append (.block _ _ hss) hcs)
termination_by structural cs => cs

theorem makes_casesFramed : ∀ (cs : List SwitchCase) (r : Region), N.Unused (casesNodes cs) →
    N.Makes (casesFramed v w cs r) fun cs' => N.Annotates (casesNodes cs) (casesNodes cs')
  | [], r, _ => .pure .nil
  | ⟨t, ss⟩ :: cs, r, h => by
    obtain ⟨ht, h⟩ := List.forall_mem_append.1 h
    obtain ⟨hss, hcs⟩ := List.forall_mem_append.1 h
    rw [casesFramed]
    exact (makes_locate? ht).bind fun t' ht => (makes_stmtsFramed ss r hss).bind fun ss' hss =>
      (makes_casesFramed cs r hcs).bind fun cs' hcs => .pure (ht.append (hss.append hcs))
termination_by structural cs => cs

end

/-- The frame is pushed and popped. -/
theorem makes_framedBody {f : Func} (h : N.Unused (stmtsNodes f.body.stmts)) {d : Draft}
    (hd : N.Holds ((push v f.name f.pos).run d).2) : N.Annotates (stmtsNodes f.body.stmts)
      (stmtsNodes ((f.framedBody v w).run d).1) := by
  have hentry : ∃ i, ((push v f.name f.pos).run d).1 = pushCode v i f.name f.pos := ⟨_, rfl⟩
  obtain ⟨i, hi⟩ := hentry
  rw [Func.framedBody, StateT.run_bind]
  generalize (push v f.name f.pos).run d = y at hd hi
  obtain ⟨entry, d₁⟩ := y
  obtain rfl := hi
  have hrest : N.Makes (do
      let ss ← stmtsFramed v w f.body.stmts {}
      let ss := afterVars (pushCode v i f.name f.pos) ss
      if Block.endsWithExit ⟨ss, f.body.pos⟩ then return ss
        else return ss ++ [.ofExpr (← pop v f.pos)])
      fun ss => N.Annotates (stmtsNodes f.body.stmts) (stmtsNodes ss) := by
    refine (makes_stmtsFramed f.body.stmts {} h).bind fun ss hss => ?_
    obtain ⟨front, back, rfl, hafter⟩ := afterVars_eq (pushCode v i f.name f.pos) ss
    have hpushed : N.Annotates (stmtsNodes f.body.stmts)
        (stmtsNodes (afterVars (pushCode v i f.name f.pos) (front ++ back))) := by
      rw [stmtsNodes_append] at hss
      rw [hafter, stmtsNodes_append]
      exact .insert (plain_push i f.name f.pos) hss
    dsimp only
    split
    · exact .pure hpushed
    · refine (makes_pop f.pos).bind fun x hx => .pure ?_
      subst hx
      rw [stmtsNodes_append]
      exact hpushed.before (.append (.stmt _ (plain_pop N.index f.pos)) .nil)
  exact (hrest d₁ hd).2

/-- The variables of a frame are declared in front. -/
theorem annotates_flush {a : List Node} {ss : List Stmt} (h : N.Annotates a (stmtsNodes ss))
    (p : Position) (l : Locals) :
    N.Annotates a (stmtsNodes (l.flush p ss)) := by
  rw [Locals.flush]
  split
  · exact h
  obtain ⟨q, es, rest, hmerged, rfl | ⟨rfl, rfl, -⟩⟩ :=
    Program.mergeVars_cases p (l.pending.map (VarDecl.mk · none p)) ss
  · rw [hmerged, stmtsNodes, Stmt.nodes, declsNodes_append, declsNodes_declared, List.append_nil]
    exact .behind (c := [_]) (.stmt _ .nil) h.of_stmt
  · rw [hmerged, stmtsNodes, Stmt.nodes, List.nil_append, declsNodes_declared]
    exact .behind (c := [_]) (.stmt _ .nil) h

end Statements

end Noting

namespace Func

/-- How the locations in a function are noted: its index is the first symbol that is added for
it. -/
def noting (v : StackVars) (r : Recorder) (t : ScopeTable) : Noting :=
  ⟨{ v with location := some r.location }, ⟨t.symbols.size⟩, r.files, r.separator⟩

variable (v : StackVars) (w : SymbolId) {f : Func} (r : Recorder) {t : ScopeTable}

theorem annotates_framed (hf : (noting v r t).Unused f.body.nodes) :
    (noting v r t).Annotates f.body.nodes (f.framed v w (some r) t).1.body.nodes := by
  obtain ⟨n, ps, ⟨ss, q⟩, sc, p⟩ := f
  have hstart : (noting v r t).Holds
      ((push v n p).run { locals := { table := t, scope := sc }, recorder := some r }).2 :=
    ⟨rfl, fun r' hr' => Option.some.inj hr' ▸ ⟨rfl, rfl, rfl⟩⟩
  have hbody :=
    Noting.makes_framedBody (w := w) (f := ⟨n, ps, ⟨ss, q⟩, sc, p⟩) (List.forall_mem_cons.1 hf).2
    hstart
  exact .block _ _ (Noting.annotates_flush hbody p _)

/-- Noting locations disturbs no reference. Nothing that has to stay a reference is a note. What
notes are made in front of are expressions of the function, in the order in which they stand there:
no code that was added, and nothing in the functions inside, which stay as they are. Each has a
place in the text, and that is the text of its note. -/
theorem notes_framed (hf : ∀ n ∈ f.body.nodes, ∀ s, n.var? = some s → s.index < t.symbols.size) :
    let N := noting v r t
    let f' := (f.framed v w (some r) t).1
    (∀ e, N.note? (r.noteBefore N.index e) = some (r.note e.pos, e)) ∧
    (∀ n ∈ f'.body.nodes, ∀ e ∈ n.referents, N.note? e = none) ∧
    (f'.body.nodes.filterMap N.wrapped?).Sublist f.body.nodes ∧
    (f'.body.funcs = f.body.funcs ∧ ∀ g ∈ f'.body.funcs, ∀ e, .expr e ∈ g.nodes →
      N.note? e = none) ∧
    ∀ e, .expr e ∈ f'.body.nodes → ∀ text x, N.note? e = some (text, x) →
      x.pos.isSynthetic = false ∧ text.Tells r.separator r.files x.pos := by
  have hunused : (noting v r t).Unused f.body.nodes := fun n hn hs => Nat.lt_irrefl _ (hf n hn _ hs)
  have h := annotates_framed v w r hunused
  refine ⟨Noting.note?_noteBefore rfl, h.referents, h.wrapped, ⟨h.funcs, fun g hg e he => ?_⟩,
    h.notes⟩
  replace hg : g ∈ f.body.nodes.filterMap Node.func? := h.funcs ▸ hg
  obtain ⟨n, hn, hg⟩ := List.mem_filterMap.1 hg
  cases n with
  | func g' =>
    obtain rfl := Option.some.inj hg
    refine Noting.note?_of_unused fun m hm => hunused m ?_
    exact f.body.nodes_closed _ hn m (g'.nodes_closed _ he m hm)
  | _ => cases hg

/-- `x.k += typeof y; return f(z);` on two lines, with a function inside that does the same. -/
def restless : Func :=
  let p : Position := ⟨"lib/a.js", 3⟩
  let q : Position := ⟨"lib/a.js", 4⟩
  let ss : List Stmt :=
    [.expr p (.binary p (.assignWith .add) (.member p (.var p ⟨0⟩) (.property "k"))
    (.prefixed p .typeof (.var p ⟨1⟩))), .ret q (some (.call q (.var q ⟨2⟩) [.var q ⟨3⟩]))]
  ⟨none, [], ⟨.expr p (.func p ⟨none, [], ⟨ss, p⟩, ⟨1⟩, p⟩) :: ss, p⟩, ⟨1⟩, p⟩

def restlessRecorder : Recorder := { location := ⟨4⟩, files := true }

def restlessNoting : Noting := noting ⟨⟨5⟩, ⟨6⟩, none⟩ restlessRecorder .initial

def restlessFramed : Func :=
  (restless.framed ⟨⟨5⟩, ⟨6⟩, none⟩ ⟨0⟩ (some restlessRecorder) .initial).1

theorem restless_noted :
    restless.body.nodes.all
      (fun n => n.var?.all fun s => s.index < ScopeTable.initial.symbols.size) = true ∧
    restlessFramed.body.nodes.filterMap restlessNoting.noted? =
      [⟨"lib/a.js", 3⟩, ⟨"lib/a.js", 4⟩] := by
  decide +kernel

/-- The note of the first line is the text `a.js:3`. -/
theorem notes_framed_restless :
    restlessFramed.body.nodes.filterMap restlessNoting.noted? = [⟨"lib/a.js", 3⟩, ⟨"lib/a.js", 4⟩] ∧
      (restlessFramed.body.nodes.filterMap restlessNoting.wrapped?).Sublist restless.body.nodes ∧
      (∀ n ∈ restlessFramed.body.nodes, ∀ e ∈ n.referents, restlessNoting.note? e = none) ∧
      ∃ e text x, .expr e ∈ restlessFramed.body.nodes ∧ restlessNoting.note? e = some (text, x) ∧
        text.Reads "a.js:3" := by
  obtain ⟨hf, hnoted⟩ := restless_noted
  obtain ⟨-, hrefs, hwrapped, -, htexts⟩ :=
    notes_framed ⟨⟨5⟩, ⟨6⟩, none⟩ ⟨0⟩ restlessRecorder (f := restless)
    (t := .initial) fun n hn s hs => by simpa [hs] using List.all_eq_true.1 hf n hn
  obtain ⟨e, text, x, he, hnote, hx⟩ := Noting.exists_noted (hnoted ▸ List.mem_cons_self)
  obtain ⟨-, base, hbase, htext⟩ := htexts e he text x hnote
  obtain rfl := Position.isBaseName_iff.1 hbase
  have htold :
      (if restlessRecorder.files then x.pos.baseName restlessRecorder.separator ++ ":" else "") ++
        toString x.pos.line = "a.js:3" := by
    rw [hx]
    decide +kernel
  exact ⟨hnoted, hwrapped, hrefs, e, text, x, he, hnote, htold ▸ htext⟩

end Func

end FrameLedger
