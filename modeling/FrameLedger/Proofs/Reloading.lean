import FrameLedger.Dump.Reader
import FrameLedger.Proofs.Spelling

/-!
# Trees from dumps

The reader of a dump is given as many levels as the dump nests, and each node of a tree takes three
at least, so it does not run out: what a tree was written as is read as the tree (`Dump.read_stmt`
and its companions). Lines, symbols and scopes have to be numbers of 32 bits, number literals
finite: `Node.Fits`.
-/

namespace FrameLedger

/-! ## Numbers in a tree -/

namespace Node

/-- The positions of a node and of its declarators and catch clauses. -/
def positions : Node → List Position
  | .block b => [b.pos]
  | .expr e => [e.pos]
  | .func f => [f.pos]
  | .stmt (.vars p ds) => p :: ds.map (·.pos)
  | .stmt (.forLoop p (some (.vars ds)) _ _ _) => p :: ds.map (·.pos)
  | .stmt (.tryBlock p _ cs _) => p :: cs.map (·.pos)
  | .stmt s => [s.pos]

/-- The scopes a node itself names. -/
def scopes : Node → List ScopeId
  | .func f => [f.scope]
  | .stmt (.tryBlock _ _ cs _) => cs.map (·.scope)
  | _ => []

/-- The lines, symbols and scopes of a node, as numbers. -/
def words (x : Node) : List Nat :=
  x.positions.map (·.line) ++ (x.symbols.map (·.index) ++ x.scopes.map (·.index))

def number? : Node → Option Float
  | .expr (.literal _ (.number x)) => some x
  | _ => none

/-- What a dump can hold of a node. -/
structure Fits (x : Node) : Prop where
  words : ∀ w ∈ x.words, w < 2 ^ 32
  finite : ∀ a ∈ x.number?, a.isFinite = true

namespace Fits

variable {x : Node} (h : x.Fits)

include h

theorem line {p : Position} (hp : p ∈ x.positions) : p.line < 2 ^ 32 :=
  h.words _ (List.mem_append_left _ (List.mem_map_of_mem hp))

theorem symbol {s : SymbolId} (hs : s ∈ x.symbols) : s.index < 2 ^ 32 :=
  h.words _ (List.mem_append_right _ (List.mem_append_left _ (List.mem_map_of_mem hs)))

theorem scope {s : ScopeId} (hs : s ∈ x.scopes) : s.index < 2 ^ 32 :=
  h.words _ (List.mem_append_right _ (List.mem_append_right _ (List.mem_map_of_mem hs)))

end Fits

end Node

/-! ## Leaves -/

namespace Json

theorem word?_ofNat {n : Nat} (h : n < 2 ^ 32) : (ofNat n).word? = some n := by
  have hall : (Nat.toDigits 10 n).all Char.isDigit = true :=
    List.all_eq_true.2 fun _ hc => Numeral.mem_toDigits n hc
  simp only [ofNat, word?, Digits.toList_toString, hall, Digits.toNat_toDigits, Nat.pow_eq, h,
    decide_true, Bool.and_self, if_true]

theorem mapM_map {α β : Type} {f : β → Option α} {g : α → β} {as : List α}
    (h : ∀ a ∈ as, f (g a) = some a) :
    (as.map g).mapM f = some as := by
  induction as with
  | nil => rfl
  | cons a as ih =>
    rw [List.forall_mem_cons] at h
    rw [List.map_cons, List.mapM_cons, h.1, ih h.2]
    rfl

end Json

namespace Dump

theorem read_symbolId {s : SymbolId} (h : s.index < 2 ^ 32) :
    Read.symbolId (symbolId s) = some s := by
  rw [Read.symbolId, symbolId, Json.word?_ofNat h]
  rfl

theorem read_scopeId {s : ScopeId} (h : s.index < 2 ^ 32) : Read.scopeId (scopeId s) = some s := by
  rw [Read.scopeId, scopeId, Json.word?_ofNat h]
  rfl

theorem read_position {p : Position} (h : p.line < 2 ^ 32) :
    Read.position (position p) = some p := by
  show (do return Position.mk p.file (← (Json.ofNat p.line).word?)) = _
  rw [Json.word?_ofNat h]
  rfl

theorem read_node {α : Type} {p : Position} (hp : p.line < 2 ^ 32) (kind : Json)
    (f : Position → Json → Option α) :
    Read.node (node p kind) f = f p kind := by
  show (do f (← Read.position (position p)) kind) = _
  rw [read_position hp]
  rfl

theorem read_memberName {m : MemberName} (h : ∀ s, m = .symbol s → s.index < 2 ^ 32) :
    Read.memberName (memberName m) = some m := by
  cases m with
  | symbol s =>
    show (Read.symbolId (symbolId s)).map MemberName.symbol = _
    rw [read_symbolId (h s rfl)]
    rfl
  | property => rfl

theorem read_literal {l : Literal} (h : ∀ x, l = .number x → x.isFinite = true) :
    Read.literal (literal l) = some l := by
  cases l with
  | number x =>
    obtain ⟨N, htext, hfloat⟩ := number?_read (h x rfl)
    rw [literal, float, htext]
    show (Json.numberToFloat? (.ofList N.chars)).map Literal.number = _
    rw [Numeral.numberToFloat?_chars, hfloat]
    rfl
  | string | bool | null | undefined => rfl

theorem prefixOp?_prefixName (op : PrefixOp) : prefixOp? (prefixName op) = some op := by
  cases op <;> rfl

theorem postfixOp?_postfixName (op : PostfixOp) : postfixOp? (postfixName op) = some op := by
  cases op <;> rfl

theorem binaryOp?_binaryName (op : BinaryOp) : binaryOp? (binaryName op) = some op := by
  rcases op with _ | op | _ | _ | _ | (_ | _ | _ | _ | c | _ | _ | op)
  case assignWith => cases op <;> rfl
  case eager.compare => cases c <;> rfl
  case eager.arith => cases op <;> rfl
  all_goals rfl

/-! ## Trees -/

section

variable {p : Position} {name : String} {j : Json} {n : Nat}

/-- A node takes a level, and leaves more than what it holds is deep. -/
theorem exists_level (h : (node p (tagged name j)).depth ≤ n) : ∃ m, n = m + 1 ∧ j.depth < m := by
  simp only [node, tagged, Json.depth, Json.depthFields] at h
  exact ⟨n - 1, by omega, by omega⟩

/-- Only `Empty` is written as a case without contents. -/
theorem plainCase?_tagged (h : name ≠ "Empty") : (tagged name j).plainCase? ≠ some "Empty" := by
  unfold tagged Json.plainCase?
  split <;> simp_all

theorem read_symbolId? (s : Option SymbolId) (h : ∀ x ∈ s, x.index < 2 ^ 32) :
    (Json.ofOption symbolId s).optional? Read.symbolId = some s := by
  cases s with
  | none => rfl
  | some s =>
    show (Read.symbolId (symbolId s)).map some = _
    rw [read_symbolId (h s rfl)]
    rfl

theorem mem_positions_forLoop (p : Position) (i : Option ForInit) (c incr : Option Expr)
    (b : Stmt) :
    p ∈ (Node.stmt (.forLoop p i c incr b)).positions := by
  rcases i with _ | (_ | _) <;> exact List.mem_cons_self

end

theorem optional?_expr {α : Type} (e : Expr) (f : Json → Option α) :
    (expr e).optional? f = (f (expr e)).map some := by
  cases e <;> rfl

theorem optional?_stmt {α : Type} (s : Stmt) (f : Json → Option α) :
    (stmt s).optional? f = (f (stmt s)).map some := by
  cases s <;> rfl

theorem optional?_block {α : Type} (b : Block) (f : Json → Option α) :
    (block b).optional? f = (f (block b)).map some := by
  cases b
  rfl

mutual

theorem read_expr : ∀ (e : Expr) {n : Nat}, (∀ x ∈ e.nodes, x.Fits) → (expr e).depth ≤ n →
    Read.expr n (expr e) = some e
  | .var p s, n, h, hn => by
    rw [Expr.nodes, List.forall_mem_singleton] at h
    rw [expr, nameRef] at hn ⊢
    obtain ⟨n, rfl, -⟩ := exists_level hn
    have hp : p.line < 2 ^ 32 := h.line List.mem_cons_self
    rw [Read.expr, read_node hp]
    show (do return Read.nameRef p none (← Read.memberName (memberName (.symbol s)))) = _
    rw [read_memberName fun _ hs => MemberName.symbol.inj hs ▸ h.symbol List.mem_cons_self]
    rfl
  | .bare p x, n, h, hn => by
    rw [Expr.nodes, List.forall_mem_singleton] at h
    rw [expr, nameRef] at hn ⊢
    obtain ⟨n, rfl, -⟩ := exists_level hn
    have hp : p.line < 2 ^ 32 := h.line List.mem_cons_self
    rw [Read.expr, read_node hp]
    rfl
  | .member p q x, n, h, hn => by
    rw [Expr.nodes, List.forall_mem_cons] at h
    rw [expr, nameRef] at hn ⊢
    obtain ⟨n, rfl, hlt⟩ := exists_level hn
    simp only [Json.depth, Json.depthFields] at hlt
    have hp : p.line < 2 ^ 32 := h.1.line List.mem_cons_self
    rw [Read.expr, read_node hp]
    show (do
      return Read.nameRef p (← (expr q).optional? (Read.expr n))
        (← Read.memberName (memberName x))) = _
    rw [optional?_expr, read_expr q h.2 (by omega), read_memberName]
    · rfl
    · rintro s rfl
      exact h.1.symbol List.mem_cons_self
  | .index p a i, n, h, hn => by
    rw [Expr.nodes, List.forall_mem_cons, List.forall_mem_append] at h
    rw [expr] at hn ⊢
    obtain ⟨n, rfl, hlt⟩ := exists_level hn
    simp only [Json.depth, Json.depthFields] at hlt
    have hp : p.line < 2 ^ 32 := h.1.line List.mem_cons_self
    rw [Read.expr, read_node hp]
    show (do return Expr.index p (← Read.expr n (expr a)) (← Read.expr n (expr i))) = _
    rw [read_expr a h.2.1 (by omega), read_expr i h.2.2 (by omega)]
    rfl
  | .call p f as, n, h, hn => by
    rw [Expr.nodes, List.forall_mem_cons, List.forall_mem_append] at h
    rw [expr] at hn ⊢
    obtain ⟨n, rfl, hlt⟩ := exists_level hn
    simp only [Json.depth, Json.depthFields] at hlt
    have hp : p.line < 2 ^ 32 := h.1.line List.mem_cons_self
    rw [Read.expr, read_node hp]
    show (do return Expr.call p (← Read.expr n (expr f)) (← (exprs as).mapM (Read.expr n))) = _
    rw [read_expr f h.2.1 (by omega), read_exprs as h.2.2 (by omega)]
    rfl
  | .new p f as, n, h, hn => by
    rw [Expr.nodes, List.forall_mem_cons, List.forall_mem_append] at h
    rw [expr] at hn ⊢
    obtain ⟨n, rfl, hlt⟩ := exists_level hn
    simp only [Json.depth, Json.depthFields] at hlt
    have hp : p.line < 2 ^ 32 := h.1.line List.mem_cons_self
    rw [Read.expr, read_node hp]
    show (do return Expr.new p (← Read.expr n (expr f)) (← (exprs as).mapM (Read.expr n))) = _
    rw [read_expr f h.2.1 (by omega), read_exprs as h.2.2 (by omega)]
    rfl
  | .prefixed p op x, n, h, hn => by
    rw [Expr.nodes, List.forall_mem_cons] at h
    rw [expr] at hn ⊢
    obtain ⟨n, rfl, hlt⟩ := exists_level hn
    simp only [Json.depth, Json.depthFields] at hlt
    have hp : p.line < 2 ^ 32 := h.1.line List.mem_cons_self
    rw [Read.expr, read_node hp]
    show (do return Expr.prefixed p (← prefixOp? (prefixName op)) (← Read.expr n (expr x))) = _
    rw [prefixOp?_prefixName, read_expr x h.2 (by omega)]
    rfl
  | .postfixed p op x, n, h, hn => by
    rw [Expr.nodes, List.forall_mem_cons] at h
    rw [expr] at hn ⊢
    obtain ⟨n, rfl, hlt⟩ := exists_level hn
    simp only [Json.depth, Json.depthFields] at hlt
    have hp : p.line < 2 ^ 32 := h.1.line List.mem_cons_self
    rw [Read.expr, read_node hp]
    show (do return Expr.postfixed p (← postfixOp? (postfixName op)) (← Read.expr n (expr x))) = _
    rw [postfixOp?_postfixName, read_expr x h.2 (by omega)]
    rfl
  | .binary p op l r, n, h, hn => by
    rw [Expr.nodes, List.forall_mem_cons, List.forall_mem_append] at h
    rw [expr] at hn ⊢
    obtain ⟨n, rfl, hlt⟩ := exists_level hn
    simp only [Json.depth, Json.depthFields] at hlt
    have hp : p.line < 2 ^ 32 := h.1.line List.mem_cons_self
    rw [Read.expr, read_node hp]
    show (do
      return Expr.binary p (← binaryOp? (binaryName op)) (← Read.expr n (expr l))
        (← Read.expr n (expr r))) = _
    rw [binaryOp?_binaryName, read_expr l h.2.1 (by omega), read_expr r h.2.2 (by omega)]
    rfl
  | .cond p c yes no, n, h, hn => by
    rw [Expr.nodes, List.forall_mem_cons, List.forall_mem_append, List.forall_mem_append] at h
    rw [expr] at hn ⊢
    obtain ⟨n, rfl, hlt⟩ := exists_level hn
    simp only [Json.depth, Json.depthFields] at hlt
    have hp : p.line < 2 ^ 32 := h.1.line List.mem_cons_self
    rw [Read.expr, read_node hp]
    show (do
      return Expr.cond p (← Read.expr n (expr c)) (← Read.expr n (expr yes))
        (← Read.expr n (expr no))) = _
    rw [read_expr c h.2.1 (by omega), read_expr yes h.2.2.1 (by omega),
      read_expr no h.2.2.2 (by omega)]
    rfl
  | .literal p l, n, h, hn => by
    rw [Expr.nodes, List.forall_mem_singleton] at h
    rw [expr] at hn ⊢
    obtain ⟨n, rfl, -⟩ := exists_level hn
    have hp : p.line < 2 ^ 32 := h.line List.mem_cons_self
    rw [Read.expr, read_node hp]
    show (do return Expr.literal p (← Read.literal (literal l))) = _
    rw [read_literal]
    · rfl
    · rintro x rfl
      exact h.finite x rfl
  | .array p es, n, h, hn => by
    rw [Expr.nodes, List.forall_mem_cons] at h
    rw [expr] at hn ⊢
    obtain ⟨n, rfl, hlt⟩ := exists_level hn
    simp only [Json.depth] at hlt
    have hp : p.line < 2 ^ 32 := h.1.line List.mem_cons_self
    rw [Read.expr, read_node hp]
    show (do return Expr.array p (← (exprs es).mapM (Read.expr n))) = _
    rw [read_exprs es h.2 (by omega)]
    rfl
  | .object p ps, n, h, hn => by
    rw [Expr.nodes, List.forall_mem_cons] at h
    rw [expr] at hn ⊢
    obtain ⟨n, rfl, hlt⟩ := exists_level hn
    simp only [Json.depth] at hlt
    have hp : p.line < 2 ^ 32 := h.1.line List.mem_cons_self
    rw [Read.expr, read_node hp]
    show (do return Expr.object p (← (properties ps).mapM (Read.property n))) = _
    rw [read_properties ps h.2 (by omega)]
    rfl
  | .func p f, n, h, hn => by
    rw [Expr.nodes, List.forall_mem_cons] at h
    rw [expr] at hn ⊢
    obtain ⟨n, rfl, hlt⟩ := exists_level hn
    have hp : p.line < 2 ^ 32 := h.1.line List.mem_cons_self
    rw [Read.expr, read_node hp]
    show (do return Expr.func p (← Read.func n (func f))) = _
    rw [read_func f h.2 (by omega)]
    rfl

theorem read_exprs : ∀ (es : List Expr) {n : Nat}, (∀ x ∈ exprsNodes es, x.Fits) →
    Json.depthAll (exprs es) ≤ n → (exprs es).mapM (Read.expr n) = some es
  | [], _, _, _ => rfl
  | e :: es, n, h, hn => by
    rw [exprsNodes, List.forall_mem_append] at h
    rw [exprs] at hn ⊢
    obtain ⟨he, hes⟩ := Nat.max_le.1 hn
    rw [List.mapM_cons, read_expr e h.1 he, read_exprs es h.2 hes]
    rfl

theorem read_expr? : ∀ (e : Option Expr) {n : Nat}, (∀ x ∈ exprNodes? e, x.Fits) →
    (expr? e).depth ≤ n → (expr? e).optional? (Read.expr n) = some e
  | none, _, _, _ => rfl
  | some e, n, h, hn => by
    rw [expr?, optional?_expr, read_expr e h hn]
    rfl

theorem read_properties : ∀ (ps : List Property) {n : Nat}, (∀ x ∈ propertiesNodes ps, x.Fits) →
    Json.depthAll (properties ps) ≤ n → (properties ps).mapM (Read.property n) = some ps
  | [], _, _, _ => rfl
  | ⟨k, e⟩ :: ps, n, h, hn => by
    rw [propertiesNodes, List.forall_mem_append] at h
    rw [properties] at hn ⊢
    simp only [Json.depthAll, Json.depth, Json.depthFields] at hn
    obtain ⟨n, rfl⟩ := Nat.exists_eq_succ_of_ne_zero (show n ≠ 0 by omega)
    have hproperty :
        Read.property (n + 1) (.object [("key", .string k), ("value", expr e)]) = some ⟨k, e⟩ := by
      show (do return Property.mk k (← Read.expr n (expr e))) = _
      rw [read_expr e h.1 (by omega)]
      rfl
    rw [List.mapM_cons, hproperty, read_properties ps h.2 (by omega)]
    rfl

theorem read_func : ∀ (f : Func) {n : Nat}, (∀ x ∈ f.nodes, x.Fits) → (func f).depth ≤ n →
    Read.func n (func f) = some f
  | ⟨name, params, b, sc, p⟩, n, h, hn => by
    rw [Func.nodes, List.forall_mem_cons] at h
    rw [func] at hn ⊢
    simp only [Json.depth, Json.depthFields] at hn
    obtain ⟨n, rfl⟩ := Nat.exists_eq_succ_of_ne_zero (show n ≠ 0 by omega)
    show (do
      return Func.mk (← (Json.ofOption symbolId name).optional? Read.symbolId)
        (← (params.map symbolId).mapM Read.symbolId) (← Read.block n (block b))
        (← Read.scopeId (scopeId sc)) (← Read.position (position p))) = _
    rw [read_symbolId? name fun s hs =>
        h.1.symbol (List.mem_append_left _ (Option.mem_toList.2 hs)),
      Json.mapM_map fun s hs => read_symbolId (h.1.symbol (List.mem_append_right _ hs)),
      read_block b h.2 (by omega),
      read_scopeId (h.1.scope List.mem_cons_self), read_position (h.1.line List.mem_cons_self)]
    rfl

theorem read_block : ∀ (b : Block) {n : Nat}, (∀ x ∈ b.nodes, x.Fits) → (block b).depth ≤ n →
    Read.block n (block b) = some b
  | ⟨ss, p⟩, n, h, hn => by
    rw [Block.nodes, List.forall_mem_cons] at h
    rw [block] at hn ⊢
    simp only [Json.depth, Json.depthFields] at hn
    obtain ⟨n, rfl⟩ := Nat.exists_eq_succ_of_ne_zero (show n ≠ 0 by omega)
    show (do return Block.mk (← (stmts ss).mapM (Read.stmt n)) (← Read.position (position p))) = _
    rw [read_stmts ss h.2 (by omega), read_position (h.1.line List.mem_cons_self)]
    rfl

theorem read_block? : ∀ (b : Option Block) {n : Nat}, (∀ x ∈ blockNodes? b, x.Fits) →
    (block? b).depth ≤ n → (block? b).optional? (Read.block n) = some b
  | none, _, _, _ => rfl
  | some b, n, h, hn => by
    rw [block?, optional?_block, read_block b h hn]
    rfl

theorem read_decls : ∀ (ds : List VarDecl) {n : Nat}, (∀ d ∈ ds, d.name.index < 2 ^ 32) →
    (∀ d ∈ ds, d.pos.line < 2 ^ 32) → (∀ x ∈ declsNodes ds, x.Fits) → Json.depthAll (decls ds) ≤ n →
    (decls ds).mapM (Read.varDecl n) = some ds
  | [], _, _, _, _, _ => rfl
  | ⟨s, e, p⟩ :: ds, n, hs, hp, h, hn => by
    rw [declsNodes, List.forall_mem_append] at h
    rw [List.forall_mem_cons] at hs hp
    rw [decls] at hn ⊢
    simp only [Json.depthAll, Json.depth, Json.depthFields] at hn
    obtain ⟨n, rfl⟩ := Nat.exists_eq_succ_of_ne_zero (show n ≠ 0 by omega)
    have hdecl : Read.varDecl (n + 1)
        (.object [("name", symbolId s), ("init", expr? e), ("info", position p)]) =
        some ⟨s, e, p⟩ := by
      show (do
        return VarDecl.mk (← Read.symbolId (symbolId s)) (← (expr? e).optional? (Read.expr n))
          (← Read.position (position p))) = _
      rw [read_symbolId hs.1, read_expr? e h.1 (by omega), read_position hp.1]
      rfl
    rw [List.mapM_cons, hdecl, read_decls ds hs.2 hp.2 h.2 (by omega)]
    rfl

theorem read_forInit : ∀ (i : Option ForInit) {n : Nat},
    (∀ ds, i = some (.vars ds) → (∀ d ∈ ds, d.name.index < 2 ^ 32) ∧
      ∀ d ∈ ds, d.pos.line < 2 ^ 32) →
    (∀ x ∈ forInitNodes i, x.Fits) → (forInit i).depth ≤ n →
      (forInit i).optional? (Read.forInit n) = some i
  | none, _, _, _, _ => rfl
  | some (.vars ds), n, hds, h, hn => by
    rw [forInit] at hn ⊢
    simp only [tagged, Json.depth, Json.depthFields] at hn
    obtain ⟨n, rfl⟩ := Nat.exists_eq_succ_of_ne_zero (show n ≠ 0 by omega)
    show ((do
      return ForInit.vars (← (decls ds).mapM (Read.varDecl n)) : Option ForInit).map some) = _
    rw [read_decls ds (hds ds rfl).1 (hds ds rfl).2 h (by omega)]
    rfl
  | some (.expr e), n, _, h, hn => by
    rw [forInit] at hn ⊢
    simp only [tagged, Json.depth, Json.depthFields] at hn
    obtain ⟨n, rfl⟩ := Nat.exists_eq_succ_of_ne_zero (show n ≠ 0 by omega)
    show ((do return ForInit.expr (← Read.expr n (expr e)) : Option ForInit).map some) = _
    rw [read_expr e h (by omega)]
    rfl

theorem read_catches : ∀ (cs : List Catch) {n : Nat}, (∀ c ∈ cs, c.param.index < 2 ^ 32) →
    (∀ c ∈ cs, c.scope.index < 2 ^ 32) → (∀ c ∈ cs, c.pos.line < 2 ^ 32) →
    (∀ x ∈ catchesNodes cs, x.Fits) → Json.depthAll (catches cs) ≤ n →
    (catches cs).mapM (Read.catchClause n) = some cs
  | [], _, _, _, _, _, _ => rfl
  | ⟨s, sc, b, p⟩ :: cs, n, hs, hsc, hp, h, hn => by
    rw [catchesNodes, List.forall_mem_append] at h
    rw [List.forall_mem_cons] at hs hsc hp
    rw [catches] at hn ⊢
    simp only [Json.depthAll, Json.depth, Json.depthFields] at hn
    obtain ⟨n, rfl⟩ := Nat.exists_eq_succ_of_ne_zero (show n ≠ 0 by omega)
    have hcatch : Read.catchClause (n + 1)
        (.object [("param", symbolId s), ("scope", scopeId sc), ("body", block b),
          ("info", position p)]) =
        some ⟨s, sc, b, p⟩ := by
      show (do
        return Catch.mk (← Read.symbolId (symbolId s)) (← Read.scopeId (scopeId sc))
          (← Read.block n (block b)) (← Read.position (position p))) = _
      rw [read_symbolId hs.1, read_scopeId hsc.1, read_block b h.1 (by omega), read_position hp.1]
      rfl
    rw [List.mapM_cons, hcatch, read_catches cs hs.2 hsc.2 hp.2 h.2 (by omega)]
    rfl

theorem read_cases : ∀ (cs : List SwitchCase) {n : Nat}, (∀ x ∈ casesNodes cs, x.Fits) →
    Json.depthAll (cases cs) ≤ n → (cases cs).mapM (Read.switchCase n) = some cs
  | [], _, _, _ => rfl
  | ⟨t, ss⟩ :: cs, n, h, hn => by
    rw [casesNodes, List.forall_mem_append, List.forall_mem_append] at h
    rw [cases] at hn ⊢
    simp only [Json.depthAll, Json.depth, Json.depthFields] at hn
    obtain ⟨n, rfl⟩ := Nat.exists_eq_succ_of_ne_zero (show n ≠ 0 by omega)
    have hcase : Read.switchCase (n + 1)
        (.object [("test", expr? t), ("body", .array (stmts ss))]) = some ⟨t, ss⟩ := by
      show (do
        return SwitchCase.mk (← (expr? t).optional? (Read.expr n))
          (← (stmts ss).mapM (Read.stmt n))) = _
      rw [read_expr? t h.1 (by omega), read_stmts ss h.2.1 (by omega)]
      rfl
    rw [List.mapM_cons, hcase, read_cases cs h.2.2 (by omega)]
    rfl

theorem read_stmts : ∀ (ss : List Stmt) {n : Nat}, (∀ x ∈ stmtsNodes ss, x.Fits) →
    Json.depthAll (stmts ss) ≤ n → (stmts ss).mapM (Read.stmt n) = some ss
  | [], _, _, _ => rfl
  | s :: ss, n, h, hn => by
    rw [stmtsNodes, List.forall_mem_append] at h
    rw [stmts] at hn ⊢
    obtain ⟨hs, hss⟩ := Nat.max_le.1 hn
    rw [List.mapM_cons, read_stmt s h.1 hs, read_stmts ss h.2 hss]
    rfl

theorem read_stmt? : ∀ (s : Option Stmt) {n : Nat}, (∀ x ∈ stmtNodes? s, x.Fits) →
    (stmt? s).depth ≤ n → (stmt? s).optional? (Read.stmt n) = some s
  | none, _, _, _ => rfl
  | some s, n, h, hn => by
    rw [stmt?, optional?_stmt, read_stmt s h hn]
    rfl

theorem read_stmt : ∀ (s : Stmt) {n : Nat}, (∀ x ∈ s.nodes, x.Fits) → (stmt s).depth ≤ n →
    Read.stmt n (stmt s) = some s
  | .expr p e, n, h, hn => by
    rw [Stmt.nodes, List.forall_mem_cons] at h
    rw [stmt] at hn ⊢
    obtain ⟨n, rfl, hlt⟩ := exists_level hn
    have hp : p.line < 2 ^ 32 := h.1.line List.mem_cons_self
    rw [Read.stmt, read_node hp, if_neg (plainCase?_tagged (by decide))]
    show (do return Stmt.expr p (← Read.expr n (expr e))) = _
    rw [read_expr e h.2 (by omega)]
    rfl
  | .vars p ds, n, h, hn => by
    rw [Stmt.nodes, List.forall_mem_cons] at h
    rw [stmt] at hn ⊢
    obtain ⟨n, rfl, hlt⟩ := exists_level hn
    simp only [Json.depth] at hlt
    have hp : p.line < 2 ^ 32 := h.1.line List.mem_cons_self
    rw [Read.stmt, read_node hp, if_neg (plainCase?_tagged (by decide))]
    show (do return Stmt.vars p (← (decls ds).mapM (Read.varDecl n))) = _
    rw [read_decls ds (fun d hd => h.1.symbol (List.mem_map_of_mem hd))
      (fun d hd => h.1.line (List.mem_cons_of_mem _ (List.mem_map_of_mem hd))) h.2 (by omega)]
    rfl
  | .ret p e, n, h, hn => by
    rw [Stmt.nodes, List.forall_mem_cons] at h
    rw [stmt] at hn ⊢
    obtain ⟨n, rfl, hlt⟩ := exists_level hn
    have hp : p.line < 2 ^ 32 := h.1.line List.mem_cons_self
    rw [Read.stmt, read_node hp, if_neg (plainCase?_tagged (by decide))]
    show (do return Stmt.ret p (← (expr? e).optional? (Read.expr n))) = _
    rw [read_expr? e h.2 (by omega)]
    rfl
  | .raise p e, n, h, hn => by
    rw [Stmt.nodes, List.forall_mem_cons] at h
    rw [stmt] at hn ⊢
    obtain ⟨n, rfl, hlt⟩ := exists_level hn
    have hp : p.line < 2 ^ 32 := h.1.line List.mem_cons_self
    rw [Read.stmt, read_node hp, if_neg (plainCase?_tagged (by decide))]
    show (do return Stmt.raise p (← Read.expr n (expr e))) = _
    rw [read_expr e h.2 (by omega)]
    rfl
  | .branch p c yes no, n, h, hn => by
    rw [Stmt.nodes, List.forall_mem_cons, List.forall_mem_append, List.forall_mem_append] at h
    rw [stmt] at hn ⊢
    obtain ⟨n, rfl, hlt⟩ := exists_level hn
    simp only [Json.depth, Json.depthFields] at hlt
    have hp : p.line < 2 ^ 32 := h.1.line List.mem_cons_self
    rw [Read.stmt, read_node hp, if_neg (plainCase?_tagged (by decide))]
    show (do return Stmt.branch p (← Read.expr n (expr c)) (← Read.stmt n (stmt yes))
              (← (stmt? no).optional? (Read.stmt n))) = _
    rw [read_expr c h.2.1 (by omega), read_stmt yes h.2.2.1 (by omega),
      read_stmt? no h.2.2.2 (by omega)]
    rfl
  | .whileLoop p c b, n, h, hn => by
    rw [Stmt.nodes, List.forall_mem_cons, List.forall_mem_append] at h
    rw [stmt] at hn ⊢
    obtain ⟨n, rfl, hlt⟩ := exists_level hn
    simp only [Json.depth, Json.depthFields] at hlt
    have hp : p.line < 2 ^ 32 := h.1.line List.mem_cons_self
    rw [Read.stmt, read_node hp, if_neg (plainCase?_tagged (by decide))]
    show (do return Stmt.whileLoop p (← Read.expr n (expr c)) (← Read.stmt n (stmt b))) = _
    rw [read_expr c h.2.1 (by omega), read_stmt b h.2.2 (by omega)]
    rfl
  | .doWhile p b c, n, h, hn => by
    rw [Stmt.nodes, List.forall_mem_cons, List.forall_mem_append] at h
    rw [stmt] at hn ⊢
    obtain ⟨n, rfl, hlt⟩ := exists_level hn
    simp only [Json.depth, Json.depthFields] at hlt
    have hp : p.line < 2 ^ 32 := h.1.line List.mem_cons_self
    rw [Read.stmt, read_node hp, if_neg (plainCase?_tagged (by decide))]
    show (do return Stmt.doWhile p (← Read.stmt n (stmt b)) (← Read.expr n (expr c))) = _
    rw [read_stmt b h.2.1 (by omega), read_expr c h.2.2 (by omega)]
    rfl
  | .forLoop p i c incr b, n, h, hn => by
    rw [Stmt.nodes, List.forall_mem_cons, List.forall_mem_append, List.forall_mem_append,
      List.forall_mem_append] at h
    rw [stmt] at hn ⊢
    obtain ⟨n, rfl, hlt⟩ := exists_level hn
    simp only [Json.depth, Json.depthFields] at hlt
    have hp : p.line < 2 ^ 32 := h.1.line (mem_positions_forLoop p i c incr b)
    rw [Read.stmt, read_node hp, if_neg (plainCase?_tagged (by decide))]
    show (do
      return Stmt.forLoop p (← (forInit i).optional? (Read.forInit n))
        (← (expr? c).optional? (Read.expr n)) (← (expr? incr).optional? (Read.expr n))
        (← Read.stmt n (stmt b))) = _
    rw [read_forInit i ?_ h.2.1 (by omega), read_expr? c h.2.2.1 (by omega),
      read_expr? incr h.2.2.2.1 (by omega), read_stmt b h.2.2.2.2 (by omega)]
    · rfl
    · rintro ds rfl
      exact ⟨fun d hd => h.1.symbol (List.mem_map_of_mem hd),
        fun d hd => h.1.line (List.mem_cons_of_mem _ (List.mem_map_of_mem hd))⟩
  | .forIn p k d o b, n, h, hn => by
    rw [Stmt.nodes, List.forall_mem_cons, List.forall_mem_append] at h
    rw [stmt] at hn ⊢
    obtain ⟨n, rfl, hlt⟩ := exists_level hn
    simp only [Json.depth, Json.depthFields] at hlt
    have hp : p.line < 2 ^ 32 := h.1.line List.mem_cons_self
    rw [Read.stmt, read_node hp, if_neg (plainCase?_tagged (by decide))]
    show (do
      return Stmt.forIn p (← Read.symbolId (symbolId k)) d (← Read.expr n (expr o))
        (← Read.stmt n (stmt b))) = _
    rw [read_symbolId (h.1.symbol List.mem_cons_self), read_expr o h.2.1 (by omega),
      read_stmt b h.2.2 (by omega)]
    rfl
  | .block p b, n, h, hn => by
    rw [Stmt.nodes, List.forall_mem_cons] at h
    rw [stmt] at hn ⊢
    obtain ⟨n, rfl, hlt⟩ := exists_level hn
    have hp : p.line < 2 ^ 32 := h.1.line List.mem_cons_self
    rw [Read.stmt, read_node hp, if_neg (plainCase?_tagged (by decide))]
    show (do return Stmt.block p (← Read.block n (block b))) = _
    rw [read_block b h.2 (by omega)]
    rfl
  | .tryBlock p b cs f, n, h, hn => by
    rw [Stmt.nodes, List.forall_mem_cons, List.forall_mem_append, List.forall_mem_append] at h
    rw [stmt] at hn ⊢
    obtain ⟨n, rfl, hlt⟩ := exists_level hn
    simp only [Json.depth, Json.depthFields] at hlt
    have hp : p.line < 2 ^ 32 := h.1.line List.mem_cons_self
    rw [Read.stmt, read_node hp, if_neg (plainCase?_tagged (by decide))]
    show (do
      return Stmt.tryBlock p (← Read.block n (block b)) (← (catches cs).mapM (Read.catchClause n))
        (← (block? f).optional? (Read.block n))) = _
    rw [read_block b h.2.1 (by omega),
      read_catches cs (fun c hc => h.1.symbol (List.mem_map_of_mem hc))
      (fun c hc => h.1.scope (List.mem_map_of_mem hc))
      (fun c hc => h.1.line (List.mem_cons_of_mem _ (List.mem_map_of_mem hc))) h.2.2.1 (by omega),
      read_block? f h.2.2.2 (by omega)]
    rfl
  | .labeled p l b, n, h, hn => by
    rw [Stmt.nodes, List.forall_mem_cons] at h
    rw [stmt] at hn ⊢
    obtain ⟨n, rfl, hlt⟩ := exists_level hn
    simp only [Json.depth, Json.depthFields] at hlt
    have hp : p.line < 2 ^ 32 := h.1.line List.mem_cons_self
    rw [Read.stmt, read_node hp, if_neg (plainCase?_tagged (by decide))]
    show (do return Stmt.labeled p l (← Read.stmt n (stmt b))) = _
    rw [read_stmt b h.2 (by omega)]
    rfl
  | .breakTo p l, n, h, hn => by
    rw [Stmt.nodes, List.forall_mem_singleton] at h
    rw [stmt] at hn ⊢
    obtain ⟨n, rfl, -⟩ := exists_level hn
    have hp : p.line < 2 ^ 32 := h.line List.mem_cons_self
    rw [Read.stmt, read_node hp, if_neg (plainCase?_tagged (by decide))]
    cases l <;> rfl
  | .continueTo p l, n, h, hn => by
    rw [Stmt.nodes, List.forall_mem_singleton] at h
    rw [stmt] at hn ⊢
    obtain ⟨n, rfl, -⟩ := exists_level hn
    have hp : p.line < 2 ^ 32 := h.line List.mem_cons_self
    rw [Read.stmt, read_node hp, if_neg (plainCase?_tagged (by decide))]
    cases l <;> rfl
  | .switch p d cs, n, h, hn => by
    rw [Stmt.nodes, List.forall_mem_cons, List.forall_mem_append] at h
    rw [stmt] at hn ⊢
    obtain ⟨n, rfl, hlt⟩ := exists_level hn
    simp only [Json.depth, Json.depthFields] at hlt
    have hp : p.line < 2 ^ 32 := h.1.line List.mem_cons_self
    rw [Read.stmt, read_node hp, if_neg (plainCase?_tagged (by decide))]
    show (do
      return Stmt.switch p (← Read.expr n (expr d))
        (← (cases cs).mapM (Read.switchCase n))) = _
    rw [read_expr d h.2.1 (by omega), read_cases cs h.2.2 (by omega)]
    rfl
  | .empty p, n, h, hn => by
    rw [Stmt.nodes, List.forall_mem_singleton] at h
    have hpos : 0 < n := Nat.lt_of_lt_of_le (Nat.succ_pos _) hn
    obtain ⟨n, rfl⟩ := Nat.exists_eq_succ_of_ne_zero (Nat.ne_of_gt hpos)
    have hp : p.line < 2 ^ 32 := h.line List.mem_cons_self
    rw [stmt, Read.stmt, read_node hp]
    rfl

end

end Dump

end FrameLedger
