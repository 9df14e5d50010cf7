import FrameLedger.Proofs.Reloading

/-!
# Programs from dumps

A dump holds numbers of 32 bits and finite doubles, all of them numbers of the grammar
(`Dump.numeric_block`), so its text is read as the value it was printed from, and that as the
program: `Versioned.load?_dump`.
-/

namespace FrameLedger

namespace Dump

open Json (NumericAll)

/-! ## Numbers of a dump -/

theorem numeric_ofNat {n : Nat} (h : n < 2 ^ 32) : (Json.ofNat n).Numeric := by
  obtain ⟨N, hnumber, hfinite⟩ := Json.ofNat_read h
  rw [hnumber]
  exact ⟨N, rfl, hfinite⟩

theorem numeric_position {p : Position} (h : p.line < 2 ^ 32) : (position p).Numeric :=
  ⟨trivial, numeric_ofNat h, trivial⟩

theorem numeric_node {p : Position} {name : String} {j : Json} (hp : p.line < 2 ^ 32)
    (hj : j.Numeric) :
    (node p (tagged name j)).Numeric :=
  ⟨⟨hj, trivial⟩, numeric_position hp, trivial⟩

theorem numeric_symbolId? (s : Option SymbolId) (h : ∀ x ∈ s, x.index < 2 ^ 32) :
    (Json.ofOption symbolId s).Numeric := by
  cases s with
  | none => trivial
  | some s => exact numeric_ofNat (h s rfl)

theorem numeric_string? (s : Option String) : (Json.ofOption .string s).Numeric := by
  cases s <;> trivial

theorem numeric_memberName {m : MemberName} (h : ∀ s, m = .symbol s → s.index < 2 ^ 32) :
    (memberName m).Numeric := by
  cases m with
  | symbol s => exact ⟨numeric_ofNat (h s rfl), trivial⟩
  | property => exact ⟨trivial, trivial⟩

theorem numeric_literal {l : Literal} (h : ∀ x, l = .number x → x.isFinite = true) :
    (literal l).Numeric := by
  cases l with
  | number x =>
    obtain ⟨N, htext, hfloat⟩ := number?_read (h x rfl)
    have hfinite : N.decimal.toFloat.isInf = false := by
      rw [hfloat]
      exact Binary64.not_isInf (h x rfl)
    rw [literal, float, htext]
    exact ⟨⟨N, rfl, hfinite⟩, trivial⟩
  | string | bool => exact ⟨trivial, trivial⟩
  | null | undefined => trivial

theorem numericAll_map {α : Type} {f : α → Json} {as : List α} (h : ∀ a ∈ as, (f a).Numeric) :
    NumericAll (as.map f) := by
  induction as with
  | nil => trivial
  | cons a as ih => exact ⟨h a List.mem_cons_self, ih fun b hb => h b (List.mem_cons_of_mem a hb)⟩

mutual

theorem numeric_expr : ∀ (e : Expr), (∀ x ∈ e.nodes, x.Fits) → (expr e).Numeric
  | .var p s, h => by
    rw [Expr.nodes, List.forall_mem_singleton] at h
    rw [expr]
    exact numeric_node (h.line List.mem_cons_self)
      ⟨trivial, ⟨numeric_ofNat (h.symbol List.mem_cons_self), trivial⟩, trivial⟩
  | .bare p x, h => by
    rw [Expr.nodes, List.forall_mem_singleton] at h
    rw [expr]
    exact numeric_node (h.line List.mem_cons_self) ⟨trivial, ⟨trivial, trivial⟩, trivial⟩
  | .member p q x, h => by
    rw [Expr.nodes, List.forall_mem_cons] at h
    rw [expr]
    refine numeric_node (h.1.line List.mem_cons_self)
      ⟨numeric_expr q h.2, numeric_memberName ?_, trivial⟩
    rintro s rfl
    exact h.1.symbol List.mem_cons_self
  | .index p a i, h => by
    rw [Expr.nodes, List.forall_mem_cons, List.forall_mem_append] at h
    rw [expr]
    exact numeric_node (h.1.line List.mem_cons_self)
      ⟨numeric_expr a h.2.1, numeric_expr i h.2.2, trivial⟩
  | .call p f as, h => by
    rw [Expr.nodes, List.forall_mem_cons, List.forall_mem_append] at h
    rw [expr]
    exact numeric_node (h.1.line List.mem_cons_self)
      ⟨numeric_expr f h.2.1, numeric_exprs as h.2.2, trivial⟩
  | .new p f as, h => by
    rw [Expr.nodes, List.forall_mem_cons, List.forall_mem_append] at h
    rw [expr]
    exact numeric_node (h.1.line List.mem_cons_self)
      ⟨numeric_expr f h.2.1, numeric_exprs as h.2.2, trivial⟩
  | .prefixed p op x, h => by
    rw [Expr.nodes, List.forall_mem_cons] at h
    rw [expr]
    exact numeric_node (h.1.line List.mem_cons_self) ⟨trivial, numeric_expr x h.2, trivial⟩
  | .postfixed p op x, h => by
    rw [Expr.nodes, List.forall_mem_cons] at h
    rw [expr]
    exact numeric_node (h.1.line List.mem_cons_self) ⟨trivial, numeric_expr x h.2, trivial⟩
  | .binary p op l r, h => by
    rw [Expr.nodes, List.forall_mem_cons, List.forall_mem_append] at h
    rw [expr]
    exact numeric_node (h.1.line List.mem_cons_self)
      ⟨trivial, numeric_expr l h.2.1, numeric_expr r h.2.2, trivial⟩
  | .cond p c yes no, h => by
    rw [Expr.nodes, List.forall_mem_cons, List.forall_mem_append, List.forall_mem_append] at h
    rw [expr]
    exact numeric_node (h.1.line List.mem_cons_self)
      ⟨numeric_expr c h.2.1, numeric_expr yes h.2.2.1, numeric_expr no h.2.2.2, trivial⟩
  | .literal p l, h => by
    rw [Expr.nodes, List.forall_mem_singleton] at h
    rw [expr]
    refine numeric_node (h.line List.mem_cons_self) (numeric_literal ?_)
    rintro x rfl
    exact h.finite x rfl
  | .array p es, h => by
    rw [Expr.nodes, List.forall_mem_cons] at h
    rw [expr]
    exact numeric_node (h.1.line List.mem_cons_self) (numeric_exprs es h.2)
  | .object p ps, h => by
    rw [Expr.nodes, List.forall_mem_cons] at h
    rw [expr]
    exact numeric_node (h.1.line List.mem_cons_self) (numeric_properties ps h.2)
  | .func p f, h => by
    rw [Expr.nodes, List.forall_mem_cons] at h
    rw [expr]
    exact numeric_node (h.1.line List.mem_cons_self) (numeric_func f h.2)

theorem numeric_exprs : ∀ (es : List Expr), (∀ x ∈ exprsNodes es, x.Fits) → NumericAll (exprs es)
  | [], _ => trivial
  | e :: es, h => by
    rw [exprsNodes, List.forall_mem_append] at h
    exact ⟨numeric_expr e h.1, numeric_exprs es h.2⟩

theorem numeric_expr? : ∀ (e : Option Expr), (∀ x ∈ exprNodes? e, x.Fits) → (expr? e).Numeric
  | none, _ => trivial
  | some e, h => numeric_expr e h

theorem numeric_properties : ∀ (ps : List Property), (∀ x ∈ propertiesNodes ps, x.Fits) →
    NumericAll (properties ps)
  | [], _ => trivial
  | ⟨_, e⟩ :: ps, h => by
    rw [propertiesNodes, List.forall_mem_append] at h
    exact ⟨⟨trivial, numeric_expr e h.1, trivial⟩, numeric_properties ps h.2⟩

theorem numeric_func : ∀ (f : Func), (∀ x ∈ f.nodes, x.Fits) → (func f).Numeric
  | ⟨name, params, b, sc, p⟩, h => by
    rw [Func.nodes, List.forall_mem_cons] at h
    have hname := numeric_symbolId? name fun s hs =>
      h.1.symbol (List.mem_append_left _ (Option.mem_toList.2 hs))
    have hparams : NumericAll (params.map symbolId) :=
      numericAll_map fun s hs => numeric_ofNat (h.1.symbol (List.mem_append_right _ hs))
    have hsc : (scopeId sc).Numeric := numeric_ofNat (h.1.scope List.mem_cons_self)
    rw [func]
    exact ⟨hname, hparams, numeric_block b h.2, hsc, numeric_position (h.1.line List.mem_cons_self),
      trivial⟩

theorem numeric_block : ∀ (b : Block), (∀ x ∈ b.nodes, x.Fits) → (block b).Numeric
  | ⟨ss, p⟩, h => by
    rw [Block.nodes, List.forall_mem_cons] at h
    rw [block]
    exact ⟨numeric_stmts ss h.2, numeric_position (h.1.line List.mem_cons_self), trivial⟩

theorem numeric_block? : ∀ (b : Option Block), (∀ x ∈ blockNodes? b, x.Fits) → (block? b).Numeric
  | none, _ => trivial
  | some b, h => numeric_block b h

theorem numeric_decls : ∀ (ds : List VarDecl), (∀ d ∈ ds, d.name.index < 2 ^ 32) →
    (∀ d ∈ ds, d.pos.line < 2 ^ 32) → (∀ x ∈ declsNodes ds, x.Fits) → NumericAll (decls ds)
  | [], _, _, _ => trivial
  | ⟨s, e, p⟩ :: ds, hs, hp, h => by
    rw [declsNodes, List.forall_mem_append] at h
    rw [List.forall_mem_cons] at hs hp
    rw [decls]
    exact ⟨⟨numeric_ofNat hs.1, numeric_expr? e h.1, numeric_position hp.1, trivial⟩,
      numeric_decls ds hs.2 hp.2 h.2⟩

theorem numeric_forInit : ∀ (i : Option ForInit),
    (∀ ds, i = some (.vars ds) → (∀ d ∈ ds, d.name.index < 2 ^ 32) ∧
      ∀ d ∈ ds, d.pos.line < 2 ^ 32) →
    (∀ x ∈ forInitNodes i, x.Fits) → (forInit i).Numeric
  | none, _, _ => trivial
  | some (.vars ds), hds, h => ⟨numeric_decls ds (hds ds rfl).1 (hds ds rfl).2 h, trivial⟩
  | some (.expr e), _, h => ⟨numeric_expr e h, trivial⟩

theorem numeric_catches : ∀ (cs : List Catch), (∀ c ∈ cs, c.param.index < 2 ^ 32) →
    (∀ c ∈ cs, c.scope.index < 2 ^ 32) → (∀ c ∈ cs, c.pos.line < 2 ^ 32) →
      (∀ x ∈ catchesNodes cs, x.Fits) →
    NumericAll (catches cs)
  | [], _, _, _, _ => trivial
  | ⟨s, sc, b, p⟩ :: cs, hs, hsc, hp, h => by
    rw [catchesNodes, List.forall_mem_append] at h
    rw [List.forall_mem_cons] at hs hsc hp
    rw [catches]
    exact ⟨⟨numeric_ofNat hs.1, numeric_ofNat hsc.1, numeric_block b h.1, numeric_position hp.1,
      trivial⟩, numeric_catches cs hs.2 hsc.2 hp.2 h.2⟩

theorem numeric_cases : ∀ (cs : List SwitchCase), (∀ x ∈ casesNodes cs, x.Fits) →
    NumericAll (cases cs)
  | [], _ => trivial
  | ⟨t, ss⟩ :: cs, h => by
    rw [casesNodes, List.forall_mem_append, List.forall_mem_append] at h
    exact ⟨⟨numeric_expr? t h.1, numeric_stmts ss h.2.1, trivial⟩, numeric_cases cs h.2.2⟩

theorem numeric_stmts : ∀ (ss : List Stmt), (∀ x ∈ stmtsNodes ss, x.Fits) → NumericAll (stmts ss)
  | [], _ => trivial
  | s :: ss, h => by
    rw [stmtsNodes, List.forall_mem_append] at h
    exact ⟨numeric_stmt s h.1, numeric_stmts ss h.2⟩

theorem numeric_stmt? : ∀ (s : Option Stmt), (∀ x ∈ stmtNodes? s, x.Fits) → (stmt? s).Numeric
  | none, _ => trivial
  | some s, h => numeric_stmt s h

theorem numeric_stmt : ∀ (s : Stmt), (∀ x ∈ s.nodes, x.Fits) → (stmt s).Numeric
  | .expr p e, h => by
    rw [Stmt.nodes, List.forall_mem_cons] at h
    rw [stmt]
    exact numeric_node (h.1.line List.mem_cons_self) (numeric_expr e h.2)
  | .vars p ds, h => by
    rw [Stmt.nodes, List.forall_mem_cons] at h
    rw [stmt]
    exact numeric_node (h.1.line List.mem_cons_self)
      (numeric_decls ds (fun d hd => h.1.symbol (List.mem_map_of_mem hd))
        (fun d hd => h.1.line (List.mem_cons_of_mem _ (List.mem_map_of_mem hd))) h.2)
  | .ret p e, h => by
    rw [Stmt.nodes, List.forall_mem_cons] at h
    rw [stmt]
    exact numeric_node (h.1.line List.mem_cons_self) (numeric_expr? e h.2)
  | .raise p e, h => by
    rw [Stmt.nodes, List.forall_mem_cons] at h
    rw [stmt]
    exact numeric_node (h.1.line List.mem_cons_self) (numeric_expr e h.2)
  | .branch p c yes no, h => by
    rw [Stmt.nodes, List.forall_mem_cons, List.forall_mem_append, List.forall_mem_append] at h
    rw [stmt]
    exact numeric_node (h.1.line List.mem_cons_self)
      ⟨numeric_expr c h.2.1, numeric_stmt yes h.2.2.1, numeric_stmt? no h.2.2.2, trivial⟩
  | .whileLoop p c b, h => by
    rw [Stmt.nodes, List.forall_mem_cons, List.forall_mem_append] at h
    rw [stmt]
    exact numeric_node (h.1.line List.mem_cons_self)
      ⟨numeric_expr c h.2.1, numeric_stmt b h.2.2, trivial⟩
  | .doWhile p b c, h => by
    rw [Stmt.nodes, List.forall_mem_cons, List.forall_mem_append] at h
    rw [stmt]
    exact numeric_node (h.1.line List.mem_cons_self)
      ⟨numeric_stmt b h.2.1, numeric_expr c h.2.2, trivial⟩
  | .forLoop p i c incr b, h => by
    rw [Stmt.nodes, List.forall_mem_cons, List.forall_mem_append, List.forall_mem_append,
      List.forall_mem_append] at h
    rw [stmt]
    refine numeric_node (h.1.line (mem_positions_forLoop p i c incr b)) ⟨numeric_forInit i ?_ h.2.1,
      numeric_expr? c h.2.2.1, numeric_expr? incr h.2.2.2.1, numeric_stmt b h.2.2.2.2, trivial⟩
    rintro ds rfl
    exact ⟨fun d hd => h.1.symbol (List.mem_map_of_mem hd),
      fun d hd => h.1.line (List.mem_cons_of_mem _ (List.mem_map_of_mem hd))⟩
  | .forIn p k d o b, h => by
    rw [Stmt.nodes, List.forall_mem_cons, List.forall_mem_append] at h
    have hk : (symbolId k).Numeric := numeric_ofNat (h.1.symbol List.mem_cons_self)
    rw [stmt]
    exact numeric_node (h.1.line List.mem_cons_self)
      ⟨hk, trivial, numeric_expr o h.2.1, numeric_stmt b h.2.2, trivial⟩
  | .block p b, h => by
    rw [Stmt.nodes, List.forall_mem_cons] at h
    rw [stmt]
    exact numeric_node (h.1.line List.mem_cons_self) (numeric_block b h.2)
  | .tryBlock p b cs f, h => by
    rw [Stmt.nodes, List.forall_mem_cons, List.forall_mem_append, List.forall_mem_append] at h
    have hcs := numeric_catches cs (fun c hc => h.1.symbol (List.mem_map_of_mem hc))
      (fun c hc => h.1.scope (List.mem_map_of_mem hc))
      (fun c hc => h.1.line (List.mem_cons_of_mem _ (List.mem_map_of_mem hc))) h.2.2.1
    rw [stmt]
    exact numeric_node (h.1.line List.mem_cons_self)
      ⟨numeric_block b h.2.1, hcs, numeric_block? f h.2.2.2, trivial⟩
  | .labeled p l b, h => by
    rw [Stmt.nodes, List.forall_mem_cons] at h
    rw [stmt]
    exact numeric_node (h.1.line List.mem_cons_self) ⟨trivial, numeric_stmt b h.2, trivial⟩
  | .breakTo p l, h | .continueTo p l, h => by
    rw [Stmt.nodes, List.forall_mem_singleton] at h
    rw [stmt]
    exact numeric_node (h.line List.mem_cons_self) (numeric_string? l)
  | .switch p d cs, h => by
    rw [Stmt.nodes, List.forall_mem_cons, List.forall_mem_append] at h
    rw [stmt]
    exact numeric_node (h.1.line List.mem_cons_self)
      ⟨numeric_expr d h.2.1, numeric_cases cs h.2.2, trivial⟩
  | .empty p, h => by
    rw [Stmt.nodes, List.forall_mem_singleton] at h
    rw [stmt]
    exact ⟨trivial, numeric_position (h.line List.mem_cons_self), trivial⟩

end

end Dump

/-! ## Tables -/

section

variable {κ α : Type} [Ord κ] [Std.TransOrd κ]

theorem insertEntry_last {k : κ} {v : α} {entries : List (κ × α)}
    (h : ∀ e ∈ entries, compare e.1 k = .lt) :
    insertEntry k v entries = entries ++ [(k, v)] := by
  induction entries with
  | nil => rfl
  | cons e rest ih =>
    rw [List.forall_mem_cons] at h
    have hgt : compare k e.1 = .gt := Std.OrientedCmp.gt_iff_lt.2 h.1
    rw [insertEntry, hgt, ih h.2]
    rfl

namespace SortedMap

theorem entries_insertMany (entries : List (κ × α)) (m : SortedMap κ α)
    (h : Increasing (m.entries ++ entries)) :
    (m.insertMany entries).entries = m.entries ++ entries := by
  induction entries generalizing m with
  | nil => rw [List.append_nil]; rfl
  | cons e rest ih =>
    have hlast : (m.insert e.1 e.2).entries = m.entries ++ [e] :=
      insertEntry_last fun x hx => (List.pairwise_append.1 h).2.2 x hx e List.mem_cons_self
    rw [List.append_cons, ← hlast] at h ⊢
    exact ih (m.insert e.1 e.2) h

/-- Entries in order are those of the map. -/
theorem ofList_entries (m : SortedMap κ α) : ofList m.entries = m :=
  ext (entries_insertMany m.entries ∅ m.increasing)

end SortedMap

end

/-- The scopes and symbols that a scope names, as numbers. -/
def Scope.words (s : Scope) : List Nat :=
  s.parent.toList.map (·.index) ++ s.names.values.map (·.index)

def ScopeTable.words (t : ScopeTable) : List Nat :=
  t.scopes.toList.flatMap Scope.words ++ t.symbols.toList.map (·.scope.index)

namespace Dump

section

variable {m : SortedMap String SymbolId} (h : ∀ s ∈ m.values, s.index < 2 ^ 32)

include h

theorem read_symbolMap : Read.symbolMap (symbolMap m) = some m := by
  rw [symbolMap, Read.symbolMap, Json.mapM_map]
  · exact congrArg some m.ofList_entries
  · rintro ⟨k, s⟩ hs
    show (do return (k, ← Read.symbolId (symbolId s))) = _
    rw [read_symbolId (h s (List.mem_map_of_mem hs))]
    rfl

theorem numeric_symbolMap : (symbolMap m).Numeric := by
  have hfields : ∀ {es : List (String × SymbolId)}, (∀ e ∈ es, e.2.index < 2 ^ 32) →
      Json.NumericFields (es.map fun e => (e.1, symbolId e.2)) := by
    intro es hes
    induction es with
    | nil => trivial
    | cons e es ih =>
      rw [List.forall_mem_cons] at hes
      exact ⟨numeric_ofNat hes.1, ih hes.2⟩
  exact hfields fun e he => h e.2 (List.mem_map_of_mem he)

end

section

variable {s : Scope} (h : ∀ w ∈ s.words, w < 2 ^ 32)

include h

theorem parent_lt {x : ScopeId} (hx : x ∈ s.parent) : x.index < 2 ^ 32 :=
  h _ (List.mem_append_left _ (List.mem_map_of_mem (Option.mem_toList.2 hx)))

theorem name_lt {x : SymbolId} (hx : x ∈ s.names.values) : x.index < 2 ^ 32 :=
  h _ (List.mem_append_right _ (List.mem_map_of_mem hx))

theorem read_scope : Read.scope (scope s) = some s := by
  have hkind : ScopeKind.ofName? s.kind.name = some s.kind := by cases s.kind <;> rfl
  have hparent : (Json.ofOption scopeId s.parent).optional? Read.scopeId = some s.parent := by
    cases hs : s.parent with
    | none => rfl
    | some x =>
      show (Read.scopeId (scopeId x)).map some = _
      rw [read_scopeId (parent_lt h hs)]
      rfl
  show (do return Scope.mk (← ScopeKind.ofName? s.kind.name)
            (← (Json.ofOption scopeId s.parent).optional? Read.scopeId)
              (← Read.symbolMap (symbolMap s.names))) = _
  rw [hkind, hparent, read_symbolMap fun x => name_lt h]
  rfl

theorem numeric_scope : (scope s).Numeric := by
  have hparent : (Json.ofOption scopeId s.parent).Numeric := by
    cases hs : s.parent with
    | none => trivial
    | some x => exact numeric_ofNat (parent_lt h hs)
  exact ⟨trivial, hparent, numeric_symbolMap fun x => name_lt h, trivial⟩

end

theorem read_symbol {s : Symbol} (h : s.scope.index < 2 ^ 32) :
    Read.symbol (symbol s) = some s := by
  show (do
    return Symbol.mk s.ident s.shortIdent (← Read.scopeId (scopeId s.scope)) s.obfuscatable) = _
  rw [read_scopeId h]
  rfl

theorem numeric_symbol {s : Symbol} (h : s.scope.index < 2 ^ 32) : (symbol s).Numeric :=
  ⟨trivial, trivial, numeric_ofNat h, trivial, trivial⟩

section

variable {t : ScopeTable} (h : ∀ w ∈ t.words, w < 2 ^ 32)

include h

theorem scope_words_lt {s : Scope} (hs : s ∈ t.scopes.toList) : ∀ w ∈ s.words, w < 2 ^ 32 :=
  fun w hw => h w (List.mem_append_left _ (List.mem_flatMap.2 ⟨s, hs, hw⟩))

theorem symbol_scope_lt {s : Symbol} (hs : s ∈ t.symbols.toList) : s.scope.index < 2 ^ 32 :=
  h _ (List.mem_append_right _ (List.mem_map_of_mem hs))

theorem read_table : Read.table (table t) = some t := by
  show (do return ScopeTable.mk (← (t.scopes.toList.map scope).mapM Read.scope).toArray
            (← (t.symbols.toList.map symbol).mapM Read.symbol).toArray) = _
  rw [Json.mapM_map fun s hs => read_scope (scope_words_lt h hs),
    Json.mapM_map fun s hs => read_symbol (symbol_scope_lt h hs)]
  rfl

theorem numeric_table : (table t).Numeric :=
  ⟨numericAll_map fun _ hs => numeric_scope (scope_words_lt h hs),
    numericAll_map fun _ hs => numeric_symbol (symbol_scope_lt h hs), trivial⟩

end

theorem read_symbolSet {m : SortedSet SymbolId} (h : ∀ s ∈ m.keys, s.index < 2 ^ 32) :
    Read.symbolSet (.array (m.keys.map symbolId)) = some m := by
  have hentries : m.keys.map (·, ()) = m.entries := by
    rw [SortedMap.keys, List.map_map]
    exact List.map_id _
  show (do return SortedMap.ofList ((← (m.keys.map symbolId).mapM Read.symbolId).map (·, ()))) = _
  rw [Json.mapM_map fun s hs => read_symbolId (h s hs)]
  show some (SortedMap.ofList (m.keys.map (·, ()))) = _
  rw [hentries, SortedMap.ofList_entries]

end Dump

/-! ## Programs -/

/-- The number literals of a block. -/
def Block.numbers (b : Block) : List Float := b.nodes.filterMap Node.number?

namespace Versioned

variable (v : Versioned)

/-- The version, lines, symbols and scopes that a program holds, as numbers. -/
def words : List Nat :=
  v.version :: (v.program.code.nodes.flatMap Node.words ++ (v.program.table.words ++
    (v.program.indexed.values.map (·.index) ++ v.program.immortal.keys.map (·.index))))

section

variable {v} (hwords : ∀ w ∈ v.words, w < 2 ^ 32)

include hwords

theorem version_lt : v.version < 2 ^ 32 := hwords _ List.mem_cons_self

theorem fits_nodes (hfinite : ∀ x ∈ v.program.code.numbers, x.isFinite = true) :
    ∀ x ∈ v.program.code.nodes, x.Fits := fun x hx =>
  ⟨fun w hw => hwords w
    (List.mem_cons_of_mem _ (List.mem_append_left _ (List.mem_flatMap.2 ⟨x, hx, hw⟩))), fun a ha =>
    hfinite a (List.mem_filterMap.2 ⟨x, hx, ha⟩)⟩

theorem table_words_lt : ∀ w ∈ v.program.table.words, w < 2 ^ 32 := fun w hw =>
  hwords w (List.mem_cons_of_mem _ (List.mem_append_right _ (List.mem_append_left _ hw)))

theorem indexed_lt : ∀ s ∈ v.program.indexed.values, s.index < 2 ^ 32 := fun _ hs =>
  hwords _
    (List.mem_cons_of_mem _
    (List.mem_append_right _ (List.mem_append_right _ (List.mem_append_left _
    (List.mem_map_of_mem hs)))))

theorem immortal_lt : ∀ s ∈ v.program.immortal.keys, s.index < 2 ^ 32 := fun _ hs =>
  hwords _
    (List.mem_cons_of_mem _
    (List.mem_append_right _ (List.mem_append_right _ (List.mem_append_right _
    (List.mem_map_of_mem hs)))))

variable (hfinite : ∀ x ∈ v.program.code.numbers, x.isFinite = true)

include hfinite

theorem ofJson?_toJson : ofJson? v.toJson = some v := by
  have hdepth : (Dump.block v.program.code).depth ≤ v.toJson.depth := by
    simp only [toJson, Json.depth, Json.depthFields]
    omega
  show (do
    let version ← (Json.ofNat v.version).word?
    let code ← Dump.Read.block v.toJson.depth (Dump.block v.program.code)
    let table ← Dump.Read.table (Dump.table v.program.table)
    let indexed ← Dump.Read.symbolMap (Dump.symbolMap v.program.indexed)
    let immortal ← Dump.Read.symbolSet (.array (v.program.immortal.keys.map Dump.symbolId))
    return Versioned.mk version ⟨code, table, indexed, immortal⟩) = _
  rw [Json.word?_ofNat (version_lt hwords), Dump.read_block _ (fits_nodes hwords hfinite) hdepth,
    Dump.read_table (table_words_lt hwords), Dump.read_symbolMap (indexed_lt hwords),
    Dump.read_symbolSet (immortal_lt hwords)]
  rfl

theorem numeric_toJson : v.toJson.Numeric :=
  ⟨Dump.numeric_ofNat (version_lt hwords), Dump.numeric_block _ (fits_nodes hwords hfinite),
    Dump.numeric_table (table_words_lt hwords), Dump.numeric_symbolMap (indexed_lt hwords),
    Dump.numericAll_map fun s hs => Dump.numeric_ofNat (immortal_lt hwords s hs), trivial⟩

end

/-- A program whose lines, symbols and scopes have 32 bits and whose number literals are finite is
read from its dump as it was written, unless the dump nests deeper than is read. -/
theorem load?_dump (hwords : ∀ w ∈ v.words, w < 2 ^ 32)
    (hfinite : ∀ x ∈ v.program.code.numbers, x.isFinite = true) (hdepth : v.toJson.depth < 128) :
    load? v.dump = some v := by
  rw [load?, dump, Json.parse?_pretty (numeric_toJson hwords hfinite) (Nat.le_of_lt_succ hdepth),
    Option.bind_some, ofJson?_toJson hwords hfinite]

/-- A loop over a negative double, and a `try` statement that returns and holds a function. -/
def keepsake : Versioned :=
  let p : Position := ⟨"dir/😀.js", 4294967295⟩
  let x := Expr.number p (Binary64.ofMagnitudeBits true (1021 * 2 ^ 52 + 1))
  let f : Func := ⟨some ⟨0⟩, [⟨1⟩], ⟨[.ret p (some (.string p "a\x00\"\\\n😀"))], p⟩, ⟨1⟩, p⟩
  let loop :=
    Stmt.forLoop p (some (.vars [⟨⟨0⟩, some x, p⟩])) none (some (.postfixed p .inc (.var p ⟨0⟩)))
    (.breakTo p (some "l"))
  ⟨1, ⟨[.labeled p "l" loop,
      .tryBlock p ⟨[.ret p none], p⟩ [⟨⟨1⟩, ⟨2⟩, ⟨[.empty p], p⟩, p⟩]
        (some ⟨[.expr p (.func p f)], p⟩)], p⟩,
    ⟨#[⟨.root, none, ∅⟩, ⟨.function, some ⟨0⟩, .ofList [("f", ⟨0⟩)]⟩], #[⟨"f", "g", ⟨1⟩, true⟩]⟩,
    .ofList [("Exceptions.wrap", ⟨0⟩)], .ofList [(⟨0⟩, ())]⟩

theorem load?_dump_keepsake : (∀ w ∈ keepsake.words, w < 2 ^ 32) ∧
    (∀ x ∈ keepsake.program.code.numbers, x.isFinite = true) ∧ keepsake.toJson.depth < 128 ∧
      load? keepsake.dump = some keepsake := by
  have hwords : ∀ w ∈ keepsake.words, w < 2 ^ 32 := by decide
  have hfinite : ∀ x ∈ keepsake.program.code.numbers, x.isFinite = true :=
    List.forall_mem_singleton.2 (Binary64.isFinite_ofMagnitudeBits true (by norm_num))
  have hdepth : keepsake.toJson.depth < 128 := by decide +kernel
  exact ⟨hwords, hfinite, hdepth, load?_dump keepsake hwords hfinite hdepth⟩

end Versioned

end FrameLedger
