import FrameLedger.Proofs.Continued

/-!
# Counting what a function gets

Of every tree can be counted how often it sets the depth of the stack, notes a location, catches and
declares a flag (`Meter.tally`). Work on a function counts what it adds as it goes along, and
`Meter.Counts` says that the count goes up by just what the tree does. `Meter.tally_framed`: so it
does for a whole function, whose flags are new and declared once.
-/

namespace FrameLedger

open Draft

/-! ## What is counted -/

namespace Expr

/-- The variable that is assigned to, or an element of which is. -/
def root? : Expr → Option SymbolId
  | .var _ s | .index _ (.var _ s) _ => some s
  | _ => none

/-- Assigning to this leaves the stack alone. -/
def Foreign (v : StackVars) (e : Expr) : Prop := ∀ s, e.root? = some s → ¬ v.Uses s

end Expr

namespace Node

/-- `$es_stackDepth = index - 1`, whatever the index is called. -/
def isPop (v : StackVars) : Node → Bool
  | .expr e => e.isPop v fun _ => true
  | _ => false

/-- `$es_stackDepth = index` -/
def isReset (v : StackVars) : Node → Bool
  | .expr e => e.isReset v fun _ => true
  | _ => false

/-- `$es_location[index] = …` -/
def isNote (v : StackVars) : Node → Bool
  | .expr e => e.isNote v fun _ => true
  | _ => false

def clauses : Node → List Catch
  | .stmt (.tryBlock _ _ cs _) => cs
  | _ => []

/-- What a declaration of variables declares. -/
def declared : Node → List SymbolId
  | .stmt (.vars _ ds) | .stmt (.forLoop _ (some (.vars ds)) _ _ _) => ds.map (·.name)
  | _ => []

end Node

/-- Whether a symbol was made to be the flag of a `finally` block. -/
def ScopeTable.isFlag (t : ScopeTable) (s : SymbolId) : Bool :=
  (t.symbol? s).any (·.shortIdent == "exitingEarly")

attribute [ext] Stats

instance : Zero Stats := ⟨{}⟩

instance : AddCommMonoid Stats where
  nsmul := nsmulRec
  zero_add _ := by ext <;> exact Nat.zero_add _
  add_zero _ := rfl
  add_comm _ _ := by ext <;> exact Nat.add_comm ..
  add_assoc _ _ _ := by ext <;> exact Nat.add_assoc ..

/-- Assigning to what is foreign to the stack counts for nothing. -/
theorem Expr.quiet_binary {v : StackVars} {p : Position} {op : BinaryOp} {l : Expr}
    (h : op = .assign → l.Foreign v) (r : Expr) :
    (Expr.binary p op l r).isPop v (fun _ => true) = false ∧
      (Expr.binary p op l r).isReset v (fun _ => true) = false ∧
        (Expr.binary p op l r).isNote v (fun _ => true) = false := by
  refine ⟨?_, ?_, ?_⟩
  · unfold isPop
    split
    · next heq =>
      obtain ⟨-, rfl, rfl, -⟩ := Expr.binary.inj heq
      have := h rfl _ rfl
      simp_all [StackVars.Uses]
    · rfl
  · unfold isReset
    split
    · next heq =>
      obtain ⟨-, rfl, rfl, -⟩ := Expr.binary.inj heq
      have := h rfl _ rfl
      simp_all [StackVars.Uses]
    · rfl
  · unfold isNote
    split
    · next heq =>
      obtain ⟨-, rfl, rfl, -⟩ := Expr.binary.inj heq
      have := h rfl _ rfl
      simp_all [StackVars.Uses]
    · rfl

/-- Counts, and the flags that were counted. -/
abbrev Tally := Stats × Multiset SymbolId

/-- What is counted: what has to do with the variables of a stack, and which variables count as
flags. -/
structure Meter extends Layout where
  flag : SymbolId → Bool

namespace Meter

variable (M : Meter)

/-- The variables of the stack are new. -/
def Apart : Prop := ∀ s, M.vars.Uses s → M.base ≤ s.index

def ofNode (n : Node) : Tally :=
  ({ pops := (n.isPop M.vars).toNat
     resets := (n.isReset M.vars).toNat
     locations := (n.isNote M.vars).toNat
     syntheticCatches := n.clauses.length
     earlyExitFlags := (n.declared.filter M.flag).length }, n.declared.filter M.flag)

def tally (ns : List Node) : Tally := (ns.map M.ofNode).sum

@[simp] theorem tally_nil : M.tally [] = 0 := rfl

@[simp] theorem tally_cons (n : Node) (ns : List Node) :
    M.tally (n :: ns) = M.ofNode n + M.tally ns := by
  simp [tally]

@[simp] theorem tally_append (a b : List Node) : M.tally (a ++ b) = M.tally a + M.tally b := by
  simp [tally]

/-- Of the nodes `a` the nodes `b` were made, and meanwhile the counts went from `s` to `s'`. -/
def Counted (s s' : Stats) (a b : List Node) : Prop := M.tally b + (s, 0) = M.tally a + (s', 0)

variable {M} {s s₁ s₂ δ : Stats} {a a' b b' c : List Node} {n n' : Node}

namespace Counted

theorem refl (a : List Node) : M.Counted s s a a := rfl

theorem append (h : M.Counted s s₁ a b) (h' : M.Counted s₁ s₂ a' b') :
    M.Counted s s₂ (a ++ a') (b ++ b') := by
  unfold Counted at h h' ⊢
  rw [tally_append, tally_append, add_right_comm, h, add_right_comm, add_assoc, h', add_assoc]

theorem cons (hn : M.ofNode n' = M.ofNode n) (h : M.Counted s s₁ a b) :
    M.Counted s s₁ (n :: a) (n' :: b) := by
  unfold Counted at h ⊢
  rw [tally_cons, tally_cons, hn, add_assoc, h, add_assoc]

/-- Something is added, and is counted. -/
theorem add (h : M.Counted s s₁ a b) (hc : M.tally c = M.tally b + (δ, 0)) :
    M.Counted s (s₁ + δ) a c := by
  have hδ : ((s₁ + δ, 0) : Tally) = (s₁, 0) + (δ, 0) := rfl
  unfold Counted at h ⊢
  rw [hc, add_right_comm, h, add_assoc, hδ]

theorem of_tally (h : M.Counted s s₁ a b) (ha : M.tally a' = M.tally a)
    (hb : M.tally b' = M.tally b) :
    M.Counted s s₁ a' b' := by
  unfold Counted at h ⊢
  rw [ha, hb, h]

/-- What is added does not count. -/
theorem congr (h : M.Counted s s₁ a b) (hc : M.tally c = M.tally b) : M.Counted s s₁ a c :=
  h.of_tally rfl hc

end Counted

theorem ofNode_vars_congr {q : Position} {ds ds' : List VarDecl}
    (h : ds'.map (·.name) = ds.map (·.name)) :
    M.ofNode (.stmt (.vars q ds')) = M.ofNode (.stmt (.vars q ds)) := by
  simp only [ofNode, Node.declared, h]
  rfl

theorem ofNode_forLoop_congr {q : Position} {ds ds' : List VarDecl}
    (h : ds'.map (·.name) = ds.map (·.name)) {t t' i i' : Option Expr} {b b' : Stmt} :
    M.ofNode (.stmt (.forLoop q (some (.vars ds')) t' i' b')) =
      M.ofNode (.stmt (.forLoop q (some (.vars ds)) t i b)) := by
  simp only [ofNode, Node.declared, h]
  rfl

/-- An expression that does nothing to the stack. -/
theorem ofNode_expr {e : Expr} (hpop : e.isPop M.vars (fun _ => true) = false)
    (hreset : e.isReset M.vars (fun _ => true) = false)
    (hnote : e.isNote M.vars (fun _ => true) = false) :
    M.ofNode (.expr e) = 0 := by
  simp only [ofNode, Node.isPop, Node.isReset, Node.isNote, hpop, hreset, hnote]
  rfl

theorem ofNode_binary {p : Position} {op : BinaryOp} {l : Expr}
    (h : op = .assign → l.Foreign M.vars) (r : Expr) :
    M.ofNode (.expr (.binary p op l r)) = 0 := by
  obtain ⟨hpop, hreset, hnote⟩ := Expr.quiet_binary (p := p) h r
  exact ofNode_expr hpop hreset hnote

end Meter

/-! ## Drafts -/

theorem ScopeTable.isFlag_declareUnique (t : ScopeTable) (sc : ScopeId) (ident short : String) :
    (t.declareUnique sc ident short).2.isFlag ⟨t.symbols.size⟩ = (short == "exitingEarly") := by
  rw [isFlag, declareUnique, symbol?_addSymbol_self]
  rfl

theorem ScopeTable.Extends.isFlag {t t' : ScopeTable} (h : t.Extends t') {s : SymbolId}
    (hs : s.index < t.symbols.size) : t'.isFlag s = t.isFlag s := by
  have hx : t.symbol? s = some t.symbols[s.index] := Array.getElem?_eq_getElem hs
  rw [ScopeTable.isFlag, ScopeTable.isFlag, h.symbol s _ hx, hx]

namespace Draft

variable {v : StackVars} {lo : Nat} {d : Draft}

/-- A draft whose flags are those of its variables that were made to be flags. -/
structure Ready (v : StackVars) (lo : Nat) (d : Draft) : Prop extends d.Sound v lo where
  nodup : d.locals.pending.Nodup
  flags : d.locals.pending.filter d.locals.table.isFlag = d.locals.earlyExits.map (·.2)

namespace Ready

theorem of_locals_eq {d' : Draft} (hd : d.Ready v lo) (h : d'.locals = d.locals)
    (hr : ∀ r, d'.recorder = some r → v.location = some r.location) : d'.Ready v lo :=
  ⟨hd.toSound.of_locals_eq h hr, h ▸ hd.nodup, h ▸ hd.flags⟩

/-- Variables that are in the table stay flags, or stay none. -/
theorem filter_eq {t : ScopeTable} (hd : d.Ready v lo) (ht : d.locals.table.Extends t) :
    d.locals.pending.filter t.isFlag = d.locals.earlyExits.map (·.2) :=
  (List.filter_congr fun s hs => ht.isFlag (hd.pending s hs).2).trans hd.flags

theorem declared {l : Locals} {ident short : String} (hd : d.Ready v lo)
    (hl : Sound v lo { d with locals := l })
    (htable : l.table = (d.locals.table.declareUnique d.locals.scope ident short).2)
    (hext : d.locals.table.Extends l.table)
    (hpending : l.pending = d.locals.pending ++ [⟨d.locals.table.symbols.size⟩])
    (hflags : l.earlyExits.map (·.2) = d.locals.earlyExits.map (·.2) ++
      bif short == "exitingEarly" then [⟨d.locals.table.symbols.size⟩] else []) :
    Ready v lo { d with locals := l } where
  toSound := hl
  nodup := by
    show l.pending.Nodup
    rw [hpending, List.nodup_append]
    refine ⟨hd.nodup, List.nodup_singleton _, fun s hs s' hs' => ?_⟩
    rw [List.mem_singleton.1 hs']
    exact hd.lt hs
  flags := by
    show l.pending.filter l.table.isFlag = l.earlyExits.map (·.2)
    have hnew : l.table.isFlag ⟨d.locals.table.symbols.size⟩ = (short == "exitingEarly") := by
      rw [htable, ScopeTable.isFlag_declareUnique]
    rw [hpending, List.filter_append, hd.filter_eq hext, hflags, List.filter_singleton, hnew]

end Ready

theorem ready_frameIndex (hd : d.Ready v lo) : (frameIndex.run d).2.Ready v lo := by
  have hsound := (gives_frameIndex hd.toSound).2.1
  rcases hi : d.locals.frameIndex with _ | s
  · rw [run_frameIndex hi] at hsound ⊢
    exact hd.declared hsound rfl (ScopeTable.adds_declareUnique _ _ (by decide) _).toExtends rfl
      (List.append_nil _).symm
  · rw [run_frameIndex_some hi]
    exact hd

theorem ready_returnTemp (hd : d.Ready v lo) :
    ((onLocals Locals.returnTempVar).run d).2.Ready v lo := by
  have hsound := (gives_returnTemp hd.toSound).2.1
  rcases hi : d.locals.returnTemp with _ | s
  · rw [run_returnTemp hi] at hsound ⊢
    exact hd.declared hsound rfl (ScopeTable.adds_declareUnique _ _ (by decide) _).toExtends rfl
      (List.append_nil _).symm
  · rw [run_returnTemp_some hi]
    exact hd

theorem ready_earlyExit (hd : d.Ready v lo) (c : CleanupId) :
    ((onLocals (Locals.earlyExitVar c)).run d).2.Ready v lo := by
  have hgives := gives_earlyExit hd.toSound c
  rcases hi : d.locals.earlyExit? c with _ | s
  · obtain ⟨n, hrun⟩ := run_earlyExit hi
    rw [Gives, hrun] at hgives
    rw [hrun]
    exact hd.declared hgives.2.1 rfl hgives.1.table.toExtends rfl (by simp)
  · rw [run_earlyExit_some hi]
    exact hd

theorem ready_catchParam (hd : d.Ready v lo) :
    ((onLocals Locals.catchParam).run d).2.Ready v lo := by
  have hgives := gives_catchParam hd.toSound
  obtain ⟨sc, t, hrun, -, hadds, -⟩ := run_catchParam d.locals
  rw [run_onLocals, hrun]
  rw [Gives, run_onLocals, hrun] at hgives
  exact ⟨hgives.2.1, hd.nodup, hd.filter_eq hadds.toExtends⟩

end Draft

namespace Meter

/-- Work on a function keeps drafts ready. `Q` says what it makes, by the counts before and
after. -/
def Counts {α : Type} (M : Meter) (lo : Nat) (x : StateM Draft α) (Q : Stats → Stats → α → Prop) :
    Prop :=
  ∀ d : Draft, d.Ready M.vars lo → (x.run d).2.Ready M.vars lo ∧
    Q d.stats (x.run d).2.stats (x.run d).1

variable {α β : Type} {M : Meter} {lo : Nat}

namespace Counts

variable {x : StateM Draft α} {f : α → StateM Draft β} {P P' : Stats → Stats → α → Prop}
  {Q : Stats → Stats → β → Prop}

theorem pure {a : α} (h : ∀ s, P s s a) : M.Counts lo (pure a) P := fun d hd => ⟨hd, h d.stats⟩

theorem bind (hx : M.Counts lo x P)
    (hf : ∀ a, M.Counts lo (f a) fun s₁ s₂ b => ∀ s, P s s₁ a → Q s s₂ b) :
    M.Counts lo (x >>= f) Q := fun d hd => by
  obtain ⟨hd₁, hP⟩ := hx d hd
  obtain ⟨hd₂, hQ⟩ := hf (x.run d).1 (x.run d).2 hd₁
  exact ⟨hd₂, hQ d.stats hP⟩

theorem get_bind {f : Draft → StateM Draft β}
    (h : ∀ d : Draft, d.Ready M.vars lo → M.Counts lo (f d) Q) :
    M.Counts lo (get >>= f) Q := fun d hd => h d hd d hd

theorem mono (hx : M.Counts lo x P) (h : ∀ s s' a, P s s' a → P' s s' a) : M.Counts lo x P' :=
  fun d hd => ⟨(hx d hd).1, h _ _ _ (hx d hd).2⟩

/-- Besides, the result is as `R` says. -/
theorem and {R : α → Prop} (hx : M.Counts lo x P)
    (hR : ∀ d : Draft, d.Ready M.vars lo → R (x.run d).1) :
    M.Counts lo x fun s s' a => P s s' a ∧ R a := fun d hd => ⟨(hx d hd).1, (hx d hd).2, hR d hd⟩

end Counts

/-! ### Variables of the frame -/

theorem not_uses {d : Draft} (hd : d.Ready M.vars lo) {s : SymbolId} (hs : s ∈ d.locals.pending) :
    ¬ M.vars.Uses s :=
  hd.not_uses (hd.pending s hs).1

theorem counts_frameIndex : M.Counts lo frameIndex fun s s' _ => s' = s :=
  fun _ hd => ⟨ready_frameIndex hd, rfl⟩

theorem counts_returnTemp : M.Counts lo (onLocals Locals.returnTempVar) fun s s' x => s' = s ∧
    ¬ M.vars.Uses x := by
  refine fun d hd => ⟨ready_returnTemp hd, rfl, ?_⟩
  obtain ⟨-, hs, h⟩ := gives_returnTemp hd.toSound
  exact not_uses (ready_returnTemp hd) (hs.returnTemp _ (h _ hs (.refl _)))

theorem counts_earlyExit (c : CleanupId) :
    M.Counts lo (onLocals (Locals.earlyExitVar c)) fun s s' x => s' = s ∧ ¬ M.vars.Uses x := by
  refine fun d hd => ⟨ready_earlyExit hd c, rfl, ?_⟩
  obtain ⟨-, hs, h⟩ := gives_earlyExit hd.toSound c
  exact not_uses (ready_earlyExit hd c)
    (hs.earlyExits _ (Locals.mem_of_earlyExit? (h _ hs (.refl _))))

theorem counts_nextCleanup : M.Counts lo (onLocals Locals.nextCleanup) fun s s' _ => s' = s :=
  fun _ hd => ⟨⟨(gives_nextCleanup hd.toSound).2.1, hd.nodup, hd.flags⟩, rfl⟩

theorem counts_catchParam : M.Counts lo (onLocals Locals.catchParam) fun s s' x => s' = s ∧
    ¬ M.vars.Uses x.2 := by
  refine fun d hd => ⟨ready_catchParam hd, rfl, ?_⟩
  obtain ⟨-, hs, h⟩ := gives_catchParam hd.toSound
  exact hs.not_uses (h _ hs (.refl _)).1

theorem counts_count (δ : Stats) : M.Counts lo (count δ) fun s s' _ => s' = s + δ := fun _ hd =>
  ⟨hd.of_locals_eq rfl hd.recorder, rfl⟩

theorem counts_forget : M.Counts lo forget fun s s' _ => s' = s := fun _ hd =>
  ⟨hd.of_locals_eq rfl (gives_forget hd.toSound).2.1.recorder, rfl⟩

/-! ### Expressions -/

theorem tally_note (r : Recorder) (p : Position) : M.tally (r.note p).nodes = 0 := by
  unfold Recorder.note
  split
  · rfl
  · rfl

theorem tally_noteBefore {r : Recorder} (hr : M.vars.location = some r.location) (index : SymbolId)
    (e : Expr) :
    M.tally (r.noteBefore index e).nodes = M.tally e.nodes + ({ locations := 1 }, 0) := by
  have hassign : M.ofNode
      (.expr (.assign e.pos (.index e.pos (.var e.pos r.location) (.var e.pos index))
      (r.note e.pos))) = ({ locations := 1 }, 0) := by
    simp only [ofNode, Node.isNote, Expr.assign, Expr.isNote, hr, beq_self_eq_true]
    rfl
  have hnodes : (r.noteBefore index e).nodes = .expr (r.noteBefore index e) :: (.expr (.assign e.pos
      (.index e.pos (.var e.pos r.location) (.var e.pos index)) (r.note e.pos)) ::
      ((Expr.index e.pos (.var e.pos r.location) (.var e.pos index)).nodes ++
        (r.note e.pos).nodes) ++ e.nodes) := rfl
  have hindex : M.tally (Expr.index e.pos (.var e.pos r.location) (.var e.pos index)).nodes = 0 :=
    rfl
  have hcomma : M.ofNode (.expr (r.noteBefore index e)) = 0 := rfl
  rw [hnodes, tally_cons, hcomma, tally_append, tally_cons, hassign, tally_append, hindex,
    tally_note]
  abel

/-- A note is counted. -/
theorem counts_record (u : Usage) (e : Expr) : M.Counts lo (record u e) fun s₁ s₂ e' =>
    ∀ s a, M.Counted s s₁ a e.nodes → M.Counted s s₂ a e'.nodes := by
  refine .get_bind fun d hd => ?_
  split
  · exact .pure fun _ _ _ => id
  · next r hr =>
    have hlocation := hd.recorder r hr
    split
    · exact .pure fun _ _ _ => id
    · have hmodify : M.Counts lo
          (modify fun d : Draft => { d with recorder := some { r with last := some e.pos } })
          fun s s' _ => s' = s := fun d hd =>
        ⟨hd.of_locals_eq rfl fun r' hr' => Option.some.inj hr' ▸ hlocation, rfl⟩
      refine hmodify.bind fun _ => counts_frameIndex.bind fun index =>
        (counts_count _).bind fun _ => .pure ?_
      rintro _ _ rfl _ rfl _ rfl s a h
      exact h.add (tally_noteBefore hlocation index e)

variable {T : Option Own → List Catch → Option Block → Prop}

/-- The program does not assign to the stack. -/
theorem foreign_of_framed (hbase : M.Apart) {K : Site} (hK : K.base = M.base) {e e' : Expr}
    (h : e.Framed K e') :
    e'.Foreign M.vars := by
  have hlt {e e' : Expr} {s : SymbolId} (h : e.Framed K e')
      (hs : e'.symbol? = some s) : ¬ M.vars.Uses s := fun hu =>
    Nat.not_lt_of_le (hbase s hu) (hK ▸ h.symbol_lt (h.symbol?_eq ▸ hs))
  intro s hs
  cases e' with
  | var p x => exact hlt h hs
  | index p a' i' =>
    cases a' with
    | var q x =>
      cases e with
      | index p' a i =>
        obtain ⟨a₁, i₁, ha | ⟨_, _, _, -, -, -, -, hnote⟩, -, heq⟩ := h
        · obtain ⟨-, rfl, -⟩ := Expr.index.inj heq
          exact hlt ha hs
        · obtain ⟨-, rfl, -⟩ := Expr.index.inj heq
          cases hnote
      | _ => simp [Expr.Framed] at h
    | _ => cases hs
  | _ => cases hs

mutual

theorem counts_located (hbase : M.Apart) :
    ∀ (e : Expr) {e₁ : Expr} (u : Usage), e.Framed ⟨M.toLayout.allowing T, none⟩ e₁ →
    M.Counts lo (e₁.located u) fun s s' e' => M.Counted s s' e₁.nodes e'.nodes
  | .var p x, _, u, ⟨_, rfl⟩ => by
    rw [Expr.located]
    exact (counts_record u _).mono fun s _ _ h => h s _ (.refl _)
  | .bare p n, _, u, rfl => by
    rw [Expr.located]
    exact (counts_record u _).mono fun s _ _ h => h s _ (.refl _)
  | .member p q n, _, u, ⟨_, q₁, hq, rfl⟩ => by
    rw [Expr.located]
    exact (counts_located hbase q .value hq.plain).bind fun q' =>
      (counts_record u _).mono fun _ _ _ h s hq => h s _ (hq.cons rfl)
  | .index p a i, _, u, ⟨a₁, i₁, ha, hi, rfl⟩ => by
    rw [Expr.located]
    exact (counts_located hbase a .value ha.plain).bind fun a' =>
      (counts_located hbase i .value hi.plain).bind fun i' =>
      (counts_record u _).mono fun _ _ _ h _ hi s ha => h s _ ((ha.append hi).cons rfl)
  | .call p f as, _, u, ⟨f₁, as₁, hf, has, rfl⟩ => by
    rw [Expr.located]
    exact (counts_located hbase f .reference hf).bind fun f' =>
      (counts_exprsLocated hbase as has).bind fun as' =>
      (counts_record u _).mono fun _ _ _ h _ has s hf => h s _ ((hf.append has).cons rfl)
  | .new p f as, _, u, ⟨f₁, as₁, hf, has, rfl⟩ => by
    rw [Expr.located]
    exact (counts_located hbase f .value hf.plain).bind fun f' =>
      (counts_exprsLocated hbase as has).bind fun as' =>
      (counts_record u _).mono fun _ _ _ h _ has s hf => h s _ ((hf.append has).cons rfl)
  | .prefixed p op x, _, u, ⟨_, x₁, hx, rfl⟩ => by
    have hx : x.Framed ⟨M.toLayout.allowing T, none⟩ x₁ := by
      split at hx
      · exact hx.plain
      · exact hx
    rw [Expr.located]
    exact (counts_located hbase x op.usage hx).bind fun x' =>
      (counts_record u _).mono fun _ _ _ h s hx => h s _ (hx.cons rfl)
  | .postfixed p op x, _, u, ⟨_, x₁, hx, rfl⟩ => by
    rw [Expr.located]
    exact (counts_located hbase x .target hx).bind fun x' =>
      (counts_record u _).mono fun _ _ _ h s hx => h s _ (hx.cons rfl)
  | .binary p op l r, _, u, ⟨_, l₁, r₁, hl, hr, rfl⟩ => by
    have hl : l.Framed ⟨M.toLayout.allowing T, none⟩ l₁ := by
      split at hl
      · exact hl
      · exact hl.plain
    have hl₁ : M.ofNode (.expr (.binary p op l₁ r₁)) = 0 :=
      ofNode_binary (fun _ => foreign_of_framed hbase rfl hl) r₁
    rw [Expr.located]
    cases ha : op.isAssignment with
    | true =>
      have hforeign (d : Draft) (hd : d.Ready M.vars lo) : ((l₁.located .target).run d).1.Foreign
          M.vars := by
        obtain ⟨-, hs, h⟩ := gives_located (L := M.toLayout) l .target hl hd.toSound
        exact foreign_of_framed hbase rfl (h _ hs (.refl _))
      refine ((counts_located hbase l .target hl).and hforeign).bind fun l' =>
        (counts_located hbase r .value hr.plain).bind fun r' =>
        (counts_record u _).mono fun _ _ _ h _ hr s hl => h s _ ((hl.1.append hr).cons ?_)
      exact (ofNode_binary (fun _ => hl.2) r').trans hl₁.symm
    | false =>
      refine (counts_located hbase l .value hl).bind fun l' =>
        (counts_located hbase r .value hr.plain).bind fun r' =>
        .pure fun _ _ hr s hl =>
          (hl.append hr).cons ((ofNode_binary (fun hop => ?_) r').trans hl₁.symm)
      subst hop
      cases ha
  | .cond p c t f, _, u, ⟨c₁, t₁, f₁, hc, ht, hf, rfl⟩ => by
    rw [Expr.located]
    exact (counts_located hbase c .value hc.plain).bind fun c' =>
      (counts_located hbase t .value ht.plain).bind fun t' =>
      (counts_located hbase f .value hf.plain).bind fun f' => .pure fun _ _ hf _ ht s hc =>
        (hc.append (ht.append hf)).cons rfl
  | .literal p l, _, u, rfl => by
    rw [Expr.located]
    exact .pure fun s => .refl _
  | .array p es, _, u, ⟨es₁, hes, rfl⟩ => by
    rw [Expr.located]
    exact (counts_exprsLocated hbase es hes).bind fun es' => .pure fun _ s hes => hes.cons rfl
  | .object p ps, _, u, ⟨ps₁, hps, rfl⟩ => by
    rw [Expr.located]
    exact (counts_propertiesLocated hbase ps hps).bind fun ps' => .pure fun _ s hps => hps.cons rfl
  | .func p f, _, u, ⟨_, f₁, _, rfl⟩ => by
    rw [Expr.located]
    exact .pure fun s => .refl _

theorem counts_exprsLocated (hbase : M.Apart) :
    ∀ (es : List Expr) {es₁ : List Expr}, exprsFramed ⟨M.toLayout.allowing T, none⟩ es es₁ →
    M.Counts lo (exprsLocated es₁) fun s s' es' => M.Counted s s' (exprsNodes es₁) (exprsNodes es')
  | [], _, rfl => by
    rw [exprsLocated]
    exact .pure fun s => .refl _
  | e :: es, _, ⟨e₁, rest, he, hes, rfl⟩ => by
    rw [exprsLocated]
    exact (counts_located hbase e .value he.plain).bind fun e' =>
      (counts_exprsLocated hbase es hes).bind fun es' => .pure fun _ _ hes s he => he.append hes

theorem counts_propertiesLocated (hbase : M.Apart) : ∀ (ps : List Property) {ps₁ : List Property},
    propertiesFramed ⟨M.toLayout.allowing T, none⟩ ps ps₁ → M.Counts lo (propertiesLocated ps₁)
      fun s s' ps' => M.Counted s s' (propertiesNodes ps₁) (propertiesNodes ps')
  | [], _, rfl => by
    rw [propertiesLocated]
    exact .pure fun s => .refl _
  | ⟨k, e⟩ :: ps, _, ⟨e₁, rest, he, hps, rfl⟩ => by
    rw [propertiesLocated]
    exact (counts_located hbase e .value he.plain).bind fun e' =>
      (counts_propertiesLocated hbase ps hps).bind fun ps' =>
      .pure fun _ _ hps s he => he.append hps

end

theorem counts_locate (hbase : M.Apart) {e e₁ : Expr}
    (he : e.Framed ⟨M.toLayout.allowing T, none⟩ e₁) :
    M.Counts lo (locate e₁) fun s s' e' => M.Counted s s' e₁.nodes e'.nodes := by
  refine .get_bind fun d _ => ?_
  split
  · exact .pure fun s => .refl _
  · exact counts_located hbase e .value he

theorem counts_locate? (hbase : M.Apart) {e e₁ : Option Expr}
    (he : exprFramed? ⟨M.toLayout.allowing T, none⟩ e e₁) :
    M.Counts lo (locate? e₁) fun s s' e' => M.Counted s s' (exprNodes? e₁) (exprNodes? e') := by
  cases e with
  | none =>
    obtain rfl := he
    exact .pure fun s => .refl _
  | some e =>
    obtain ⟨e₁, he, rfl⟩ := he
    exact (counts_locate hbase he.plain).bind fun e' => .pure fun _ s he => he

/-- The same variables are declared. -/
theorem counts_locateDecls (hbase : M.Apart) :
    ∀ {ds ds₁ : List VarDecl}, declsFramed ⟨M.toLayout.allowing T, none⟩ ds ds₁ →
    M.Counts lo (locateDecls ds₁) fun s s' ds' =>
      M.Counted s s' (declsNodes ds₁) (declsNodes ds') ∧ ds'.map (·.name) = ds₁.map (·.name)
  | [], _, rfl => .pure fun s => ⟨.refl _, rfl⟩
  | ⟨x, e, p⟩ :: ds, _, ⟨_, e₁, rest, he, hds, rfl⟩ => by
    rw [locateDecls, List.mapM_cons, bind_assoc]
    refine (counts_locate? hbase he).bind fun e' => ?_
    rw [pure_bind]
    refine (counts_locateDecls hbase hds).bind fun ds' => .pure fun _ _ hds s he =>
      ⟨he.append hds.1, ?_⟩
    exact congrArg (x :: ·) hds.2

/-! ### Statements -/

theorem Counted.single {s s' : Stats} {a : List Node} {x : Stmt} (h : M.Counted s s' a x.nodes) :
    M.Counted s s' a (stmtsNodes [x]) := h.congr (by rw [stmtsNodes, stmtsNodes, List.append_nil])

theorem tally_oneStmt (p : Position) (ss : List Stmt) :
    M.tally (oneStmt p ss).nodes = M.tally (stmtsNodes ss) := by
  unfold oneStmt
  split
  · rw [stmtsNodes, stmtsNodes, List.append_nil]
  · exact (zero_add _).trans (zero_add _)

theorem tally_popCode (index : SymbolId) (p : Position) :
    M.tally (popCode M.vars index p).nodes = ({ pops := 1 }, 0) := by
  have hpop : M.ofNode (.expr (popCode M.vars index p)) = ({ pops := 1 }, 0) := by
    simp only [ofNode, Node.isPop, popCode, Expr.assign, Expr.number, Expr.isPop, beq_self_eq_true]
    rfl
  have hrest : (popCode M.vars index p).nodes =
      .expr (popCode M.vars index p) :: ((Expr.var p M.vars.depth).nodes ++
        (Expr.binary p (.eager (.arith .sub)) (.var p index) (.number p 1)).nodes) := rfl
  rw [hrest, tally_cons, hpop]
  rfl

theorem tally_resetCode (index : SymbolId) (p : Position) :
    M.tally (resetCode M.vars index p).nodes = ({ resets := 1 }, 0) := by
  have hreset : M.ofNode (.expr (.assign p (.var p M.vars.depth) (.var p index))) =
      ({ resets := 1 }, 0) := by
    simp only [ofNode, Node.isReset, Expr.assign, Expr.isReset, beq_self_eq_true]
    rfl
  have hrest : (resetCode M.vars index p).nodes = .stmt (resetCode M.vars index p) ::
    .expr (.assign p (.var p M.vars.depth) (.var p index)) ::
      ((Expr.var p M.vars.depth).nodes ++ (Expr.var p index).nodes) :=
      rfl
  rw [hrest, tally_cons, tally_cons, hreset]
  rfl

/-- Setting a variable of the frame. -/
theorem tally_set {x : SymbolId} (hx : ¬ M.vars.Uses x) (p : Position) (e : Expr) :
    M.tally (Expr.assign p (.var p x) e).nodes = M.tally e.nodes := by
  have hset : M.ofNode (.expr (.assign p (.var p x) e)) = 0 :=
    ofNode_binary (fun _ s hs => Option.some.inj hs ▸ hx) e
  have hnodes : (Expr.assign p (.var p x) e).nodes =
      .expr (.assign p (.var p x) e) :: ((Expr.var p x).nodes ++ e.nodes) :=
    rfl
  have hvar : M.tally (Expr.var p x).nodes = 0 := rfl
  rw [hnodes, tally_cons, hset, tally_append, hvar, zero_add, zero_add]

theorem counts_pop (p : Position) : M.Counts lo (pop M.vars p) fun s s' e =>
    s' = s + { pops := 1 } ∧ M.tally e.nodes = ({ pops := 1 }, 0) :=
  counts_frameIndex.bind fun index => (counts_count _).bind fun _ => .pure fun _ _ h _ hi =>
    ⟨hi ▸ h, tally_popCode index p⟩

theorem counts_resetDepth (p : Position) : M.Counts lo (resetDepth M.vars p) fun s s' x =>
    s' = s + { resets := 1 } ∧ M.tally x.nodes = ({ resets := 1 }, 0) :=
  counts_frameIndex.bind fun index => (counts_count _).bind fun _ => .pure fun _ _ h _ hi =>
    ⟨hi ▸ h, tally_resetCode index p⟩

theorem counts_syntheticCatch (w : SymbolId) (p : Position) :
    M.Counts lo (syntheticCatch M.vars w p) fun s s' cl =>
    s' = s + { resets := 1, syntheticCatches := 1 } ∧
      M.tally (catchesNodes [cl]) = ({ resets := 1 }, 0) := by
  refine counts_catchParam.bind fun x => ?_
  obtain ⟨sc, e⟩ := x
  refine counts_frameIndex.bind fun index => (counts_count _).bind fun _ => .pure ?_
  rintro _ _ rfl _ rfl _ ⟨rfl, he⟩
  refine ⟨rfl, ?_⟩
  have hwrapped : M.tally (Expr.assign p (.var p e) (.call p (.var p w) [.var p e])).nodes = 0 :=
    tally_set he ..
  have hnodes : catchesNodes [rethrowCode M.vars w index e sc p] =
      .block (rethrowCode M.vars w index e sc p).body ::
      (.stmt (.ofExpr (.assign p (.var p e) (.call p (.var p w) [.var p e]))) ::
        (Expr.assign p (.var p e) (.call p (.var p w) [.var p e])).nodes ++
          ((resetCode M.vars index p).nodes ++
          ((Stmt.raise p (.var p e)).nodes ++ []))) ++ [] := rfl
  have hraise : M.tally (Stmt.raise p (.var p e)).nodes = 0 := rfl
  rw [hnodes, List.append_nil, List.append_nil, tally_cons, tally_append, tally_cons, hwrapped,
    tally_append, tally_resetCode, hraise]
  rfl

/-- A `return` through a `finally` block adds nothing that counts. -/
theorem counts_exitThrough (c : CleanupId) (p : Position) (e e₀ : Option Expr) :
    M.Counts lo (exitThrough c p e) fun s₁ s₂ ss => ∀ s a, M.Counted s s₁ a (exprNodes? e) →
      M.Counted s s₂ (.stmt (.ret p e₀) :: a) (stmtsNodes ss) := by
  refine (counts_earlyExit c).bind fun flag => ?_
  cases e with
  | none =>
    refine .pure ?_
    rintro _ _ ⟨rfl, hflag⟩ s a h
    have hset : M.tally (Expr.assign p (.var p flag) (.bool p true)).nodes = 0 := tally_set hflag ..
    have hnodes : stmtsNodes [.ofExpr (.assign p (.var p flag) (.bool p true)), .ret p none] =
      (.stmt (.ofExpr (.assign p (.var p flag) (.bool p true))) ::
        (Expr.assign p (.var p flag) (.bool p true)).nodes) ++ [.stmt (.ret p none)] := rfl
    refine Counted.congr (h.cons rfl) ?_
    rw [hnodes, tally_append, tally_cons, hset]
    rfl
  | some e =>
    refine .pure ?_
    rintro _ _ ⟨rfl, hflag⟩ s a h
    have hset : M.tally (Expr.assign p (.var p flag) (.bool p true)).nodes = 0 := tally_set hflag ..
    refine Counted.single (Counted.congr (b := .stmt (.ret p none) :: e.nodes) (h.cons rfl) ?_)
    have hnodes : (Stmt.ret p (some (.comma p (.assign p (.var p flag) (.bool p true)) e))).nodes =
      .stmt (.ret p (some (.comma p (.assign p (.var p flag) (.bool p true)) e))) ::
        .expr (.comma p (.assign p (.var p flag) (.bool p true)) e) ::
          ((Expr.assign p (.var p flag) (.bool p true)).nodes ++ e.nodes) := rfl
    have hcomma : M.ofNode (.expr (.comma p (.assign p (.var p flag) (.bool p true)) e)) = 0 := rfl
    rw [hnodes, tally_cons, tally_cons, hcomma, tally_append, hset, zero_add, zero_add]
    rfl

theorem tally_ofExpr (e : Expr) : M.tally (Stmt.ofExpr e).nodes = M.tally e.nodes := zero_add _

/-- A `return` that pops. -/
theorem counts_popAndReturn (p : Position) (e e₀ : Option Expr) :
    M.Counts lo (popAndReturn M.vars p e) fun s₁ s₂ ss => ∀ s a, M.Counted s s₁ a (exprNodes? e) →
      M.Counted s s₂ (.stmt (.ret p e₀) :: a) (stmtsNodes ss) := by
  unfold popAndReturn
  split
  · next e he =>
    obtain ⟨rfl, -⟩ := Option.filter_eq_some_iff.1 he
    refine counts_returnTemp.bind fun temp => (counts_pop p).bind fun x => .pure ?_
    rintro _ _ ⟨rfl, hx⟩ _ ⟨rfl, htemp⟩ s a h
    refine Counted.add (b := .stmt (.ret p none) :: e.nodes) (h.cons rfl) ?_
    have hret : M.tally (Stmt.ret p (some (.var p temp))).nodes = 0 := rfl
    have hhead : M.ofNode (.stmt (.ret p none)) = 0 := rfl
    rw [stmtsNodes, stmtsNodes, stmtsNodes, stmtsNodes, tally_append, tally_append, tally_append,
      tally_ofExpr, tally_set htemp, tally_ofExpr, hx, hret, tally_cons, hhead, tally_nil, add_zero,
      add_zero, zero_add]
  · refine (counts_pop p).bind fun x => .pure ?_
    rintro _ _ ⟨rfl, hx⟩ s a h
    refine Counted.add (b := .stmt (.ret p e) :: exprNodes? e) (h.cons rfl) ?_
    rw [stmtsNodes, stmtsNodes, stmtsNodes, tally_append, tally_append, tally_ofExpr, hx, tally_nil,
      add_zero, add_comm]
    rfl

theorem counts_guardCleanup (c : CleanupId) (b : Block) :
    M.Counts lo (guardCleanup M.vars c b) fun s₁ s₂ b' =>
    ∀ s a, M.Counted s s₁ a b.nodes → M.Counted s s₂ a b'.nodes := by
  obtain ⟨ss, q⟩ := b
  refine .get_bind fun d _ => ?_
  split
  · next flag _ =>
    split
    · exact .pure fun _ _ _ => id
    · refine (counts_pop q).bind fun x => .pure ?_
      rintro _ _ ⟨rfl, hx⟩ s a h
      have hguard : M.tally (Stmt.ofExpr (.binary q .and (.var q flag) x)).nodes =
          M.tally x.nodes :=
        (zero_add _).trans ((zero_add _).trans (zero_add _))
      have hblock (ts : List Stmt) : M.tally (Block.nodes ⟨ts, q⟩) = M.tally (stmtsNodes ts) :=
        zero_add _
      refine h.add ?_
      rw [hblock, hblock, stmtsNodes_append, tally_append, stmtsNodes, stmtsNodes, List.append_nil,
        hguard, hx]
  · exact .pure fun _ _ _ => id

section

variable {w : SymbolId} {x : StateM Draft (List Stmt)} {a : List Node}

theorem counts_withReset (r : Region) (s₁ : Stmt)
    (hx : M.Counts lo x fun s s' ss => M.Counted s s' a (stmtsNodes ss)) :
    M.Counts lo (withReset M.vars w r s₁ x) fun s s' ss => M.Counted s s' a (stmtsNodes ss) := by
  refine hx.bind fun ss => ?_
  split
  · refine (counts_resetDepth s₁.pos).bind fun t => .pure ?_
    rintro _ _ ⟨rfl, ht⟩ s h
    refine h.add ?_
    rw [stmtsNodes_append, tally_append, stmtsNodes, stmtsNodes, List.append_nil, ht]
  · exact .pure fun _ _ => id

theorem counts_asBody (r : Region) (s₁ : Stmt)
    (hx : M.Counts lo x fun s s' ss => M.Counted s s' a (stmtsNodes ss)) :
    M.Counts lo (asBody M.vars w r s₁ x) fun s s' t => M.Counted s s' a t.nodes :=
  (counts_withReset r s₁ hx).bind fun _ => .pure fun _ _ h => h.congr (tally_oneStmt ..)

end

theorem ofNode_tryBlock {cs cs' : List Catch} (h : cs'.length = cs.length) {p : Position}
    {b b' : Block} {f f' : Option Block} :
    M.ofNode (.stmt (.tryBlock p b' cs' f')) = M.ofNode (.stmt (.tryBlock p b cs f)) := by
  simp only [ofNode, Node.clauses, h]
  rfl

/-- Clauses are counted with the statement that they are part of. -/
theorem tally_tryBlock (p : Position) (b₀ b f : Block) (cs : List Catch) :
    M.tally (Stmt.tryBlock p b cs (some f)).nodes =
      M.tally (b.nodes ++ ((.stmt (.tryBlock p b₀ cs none) :: catchesNodes cs) ++ f.nodes)) := by
  have hnodes : (Stmt.tryBlock p b cs (some f)).nodes =
    .stmt (.tryBlock p b cs (some f)) :: (b.nodes ++ (catchesNodes cs ++ f.nodes)) := rfl
  have hhead : M.ofNode (.stmt (.tryBlock p b cs (some f))) =
      M.ofNode (.stmt (.tryBlock p b₀ cs none)) :=
    ofNode_tryBlock rfl
  rw [hnodes, tally_cons, hhead]
  simp only [tally_cons, tally_append]
  abel

theorem Counted.block {s s' : Stats} {ss ss' : List Stmt}
    (h : M.Counted s s' (stmtsNodes ss) (stmtsNodes ss')) (q : Position) :
    M.Counted s s' (Block.nodes ⟨ss, q⟩) (Block.nodes ⟨ss', q⟩) := h.cons rfl

/-- An outermost `try` with a `finally` block and no clause gets one. -/
theorem counts_catchesOrRethrow {w : SymbolId} (p : Position) (r : Region) {cs : List Catch}
    (hcs : M.Counts lo (catchesFramed M.vars w cs r) fun s s' cs' =>
      M.Counted s s' (catchesNodes cs) (catchesNodes cs') ∧ cs'.length = cs.length) (b : Block) :
    M.Counts lo (catchesOrRethrow M.vars w p cs r) fun s s' cs' => M.Counted s s'
      (.stmt (.tryBlock p b cs none) :: catchesNodes cs)
        (.stmt (.tryBlock p b cs' none) :: catchesNodes cs') := by
  unfold catchesOrRethrow
  split
  · next hempty =>
    obtain rfl := List.isEmpty_iff.1 hempty
    refine (counts_syntheticCatch w p).bind fun cl => .pure ?_
    rintro _ _ ⟨rfl, hcl⟩
    refine Counted.add (.refl _) ?_
    rw [tally_cons, hcl]
    rfl
  · exact hcs.mono fun _ _ _ h => h.1.cons (ofNode_tryBlock h.2)

theorem counts_forgetIf (b : Bool) : M.Counts lo (forgetIf b) fun s s' _ => s' = s := by
  cases b with
  | true => exact counts_forget
  | false => exact .pure fun _ => rfl

/-- A loop that declares variables declares the same ones. -/
theorem counts_locateInit (hbase : M.Apart) {i i₁ : Option ForInit}
    (h : forInitFramed ⟨M.toLayout.allowing T, none⟩ i i₁) (p : Position) (t₁ n₁ : Option Expr)
    (b₁ : Stmt) : M.Counts lo (locateInit i₁) fun s s' i' =>
      M.Counted s s' (forInitNodes i₁) (forInitNodes i') ∧
        ∀ t n b, M.ofNode (.stmt (.forLoop p i' t n b)) =
          M.ofNode (.stmt (.forLoop p i₁ t₁ n₁ b₁)) := by
  rcases i with _ | ds | e
  · obtain rfl := h
    exact .pure fun s => ⟨.refl _, fun _ _ _ => rfl⟩
  · obtain ⟨ds₁, hds, rfl⟩ := h
    exact (counts_locateDecls hbase hds).bind fun ds' => .pure fun _ _ hds =>
      ⟨hds.1, fun _ _ _ => ofNode_forLoop_congr hds.2⟩
  · obtain ⟨e₁, he, rfl⟩ := h
    exact (counts_locate hbase he.plain).bind fun e' => .pure fun _ _ he => ⟨he, fun _ _ _ => rfl⟩

mutual

theorem counts_framed (hbase : M.Apart) : ∀ (s : Stmt) {s₁ : Stmt} {r₀ : Place} (r : Region),
    s.Framed ⟨M.toLayout.allowing T, none⟩ r₀ [s₁] → M.Counts lo (s₁.framed M.vars M.wrap r)
      fun c c' ss => M.Counted c c' s₁.nodes (stmtsNodes ss)
  | .expr p e, _, _, r, ⟨e₁, he, rfl⟩ => by
    rw [Stmt.framed]
    exact (counts_locate hbase he.plain).bind fun e' => .pure fun _ _ he => .single (he.cons rfl)
  | .vars p ds, _, _, r, ⟨ds₁, hds, rfl⟩ => by
    rw [Stmt.framed]
    exact (counts_locateDecls hbase hds).bind fun ds' => .pure fun _ _ hds =>
      .single (hds.1.cons (ofNode_vars_congr hds.2))
  | .ret p e, _, _, r, ⟨e₁, he, heq⟩ => by
    obtain rfl : _ = Stmt.ret p e₁ := by simpa [Site.Returned] using heq
    rw [Stmt.framed]
    refine (counts_locate? hbase he).bind fun e' => ?_
    split
    · exact (counts_exitThrough _ p e' e₁).mono fun _ _ _ h s he => h s _ he
    · exact (counts_popAndReturn p e' e₁).mono fun _ _ _ h s he => h s _ he
  | .raise p e, _, _, r, ⟨e₁, he, rfl⟩ => by
    rw [Stmt.framed]
    exact (counts_locate hbase he.plain).bind fun e' => .pure fun _ _ he => .single (he.cons rfl)
  | .branch p t yes no, _, _, r, ⟨t₁, yes₁, no₁, ht, hyes, hno, rfl⟩ => by
    rw [Stmt.framed]
    exact (counts_locate hbase ht.plain).bind fun t' =>
      (counts_asBody r yes₁ (counts_framed hbase yes r hyes.plain)).bind
      fun yes' => (counts_stmtFramed? hbase no r hno).bind fun no' =>
        .pure fun _ _ hno _ hyes _ ht => .single ((ht.append (hyes.append hno)).cons rfl)
  | .whileLoop p t b, _, _, r, ⟨t₁, b₁, ht, hb, rfl⟩ => by
    rw [Stmt.framed]
    refine counts_forget.bind fun _ => (counts_locate hbase ht.plain).bind fun t' =>
      (counts_asBody r b₁ (counts_framed hbase b r hb.plain)).bind fun b' => .pure ?_
    rintro _ _ hb _ ht _ rfl
    exact .single ((ht.append hb).cons rfl)
  | .doWhile p b t, _, _, r, ⟨b₁, t₁, hb, ht, rfl⟩ => by
    rw [Stmt.framed]
    exact (counts_asBody r b₁ (counts_framed hbase b r hb.plain)).bind fun b' =>
      (counts_locate hbase ht.plain).bind fun t' =>
      .pure fun _ _ ht _ hb => .single ((hb.append ht).cons rfl)
  | .forLoop p i t n b, _, _, r, ⟨i₁, t₁, n₁, b₁, hi, ht, hn, hb, rfl⟩ => by
    rw [framed_forLoop]
    refine (counts_locateInit hbase hi p t₁ n₁ b₁).bind fun i' =>
      (counts_forgetIf t₁.isSome).bind fun _ =>
      (counts_locate? hbase ht).bind fun t' => (counts_forgetIf n₁.isSome).bind fun _ =>
        (counts_locate? hbase hn).bind fun n' =>
          (counts_asBody r b₁ (counts_framed hbase b r hb.plain)).bind fun b' => .pure ?_
    rintro _ _ hb _ hn _ rfl _ ht _ rfl _ ⟨hi, hhead⟩
    exact .single ((hi.append (ht.append (hn.append hb))).cons (hhead ..))
  | .forIn p k declared o b, _, _, r, ⟨_, o₁, b₁, ho, hb, rfl⟩ => by
    rw [Stmt.framed]
    exact (counts_locate hbase ho.plain).bind fun o' =>
      (counts_asBody r b₁ (counts_framed hbase b r hb.plain)).bind fun b' =>
      .pure fun _ _ hb _ ho => .single ((ho.append hb).cons rfl)
  | .block p ⟨ss, q⟩, _, _, r, ⟨ss₁, hss, rfl⟩ => by
    rw [Stmt.framed]
    exact (counts_stmts hbase ss r hss).bind fun ss' => .pure fun _ _ hss =>
      .single (Counted.cons rfl (hss.block q))
  | .tryBlock p ⟨ss, q⟩ cs none, _, _, r, ⟨_, ss₁, cs₁, hss, hcs, rfl⟩ => by
    rw [Stmt.framed]
    refine (counts_stmts hbase ss r hss).bind fun ss' => (counts_catches hbase cs r hcs).bind
      fun cs' => .pure ?_
    rintro _ _ ⟨hcs, hlength⟩ _ hss
    exact .single
      (Counted.cons (ofNode_tryBlock hlength) ((hss.block q).append (hcs.append (.refl []))))
  | .tryBlock p ⟨ss, q⟩ cs (some ⟨fs, fq⟩), _, _, r, ⟨_, ss₁, cs₁, fs₁, f₁, hfs, heq, hrest⟩ => by
    obtain ⟨hss, hcs, rfl⟩ := hrest
    obtain rfl : _ = Stmt.tryBlock p ⟨ss₁, q⟩ cs₁ (some ⟨fs₁, fq⟩) := by simpa using heq
    rcases hc : r.cleanup with _ | c
    · rw [framed_outermost _ _ _ _ _ _ _ _ hc]
      refine counts_nextCleanup.bind fun c =>
        (counts_stmts hbase ss { r with cleanup := some c } hss).bind fun ss' =>
        (counts_catchesOrRethrow p _ (counts_catches hbase cs { r with cleanup := some c } hcs)
          ⟨[], q⟩).bind fun cs' =>
          (counts_stmts hbase fs r hfs).bind fun fs' => (counts_guardCleanup c ⟨fs', fq⟩).bind
            fun f' => .pure ?_
      rintro _ _ hf _ hfs _ hcs _ hss _ rfl
      exact .single
        (((hss.block q).append (hcs.append (hf _ _ (hfs.block fq)))).of_tally (tally_tryBlock ..)
        (tally_tryBlock ..))
    · rw [Stmt.framed]
      simp only [hc]
      refine (counts_stmts hbase ss r hss).bind fun ss' => (counts_catches hbase cs r hcs).bind
        fun cs' => (counts_stmts hbase fs r hfs).bind fun fs' => .pure ?_
      rintro _ _ hfs _ ⟨hcs, hlength⟩ _ hss
      refine .single (Counted.cons (ofNode_tryBlock hlength) ?_)
      exact (hss.block q).append (hcs.append (hfs.block fq))
  | .labeled p l b, _, _, r, ⟨b₁, hb, rfl⟩ => by
    rw [Stmt.framed]
    exact (counts_asBody r b₁ (counts_framed hbase b r hb.plain)).bind fun b' => .pure fun _ _ hb =>
      .single (hb.cons rfl)
  | .breakTo p l, _, _, r, rfl => by
    rw [Stmt.framed]
    exact .pure fun _ => .single (.refl _)
  | .continueTo p l, _, _, r, rfl => by
    rw [Stmt.framed]
    exact .pure fun _ => .single (.refl _)
  | .switch p x cs, _, _, r, ⟨x₁, cs₁, hx, hcs, rfl⟩ => by
    rw [Stmt.framed]
    exact (counts_locate hbase hx.plain).bind fun x' => (counts_cases hbase cs r hcs).bind
      fun cs' => .pure fun _ _ hcs _ hx => .single ((hx.append hcs).cons rfl)
  | .empty p, _, _, r, rfl => by
    rw [Stmt.framed]
    exact .pure fun _ => .single (.refl _)
termination_by structural s => s

theorem counts_stmts (hbase : M.Apart) :
    ∀ (ss : List Stmt) {ss₁ : List Stmt} {r₀ : Place} (r : Region),
    stmtsFramedAs ⟨M.toLayout.allowing T, none⟩ ss r₀ ss₁ →
    M.Counts lo (stmtsFramed M.vars M.wrap ss₁ r) fun c c' ss' =>
      M.Counted c c' (stmtsNodes ss₁) (stmtsNodes ss')
  | [], _, _, r, rfl => by
    rw [stmtsFramed]
    exact .pure fun _ => .refl _
  | s :: ss, _, r₀, r, ⟨first, rest, hfirst, hrest, heq⟩ => by
    obtain ⟨s₁, rfl, -⟩ := Stmt.Framed.plain hfirst
    subst heq
    rw [List.singleton_append, stmtsFramed]
    refine (counts_withReset r s₁ (counts_framed hbase s r hfirst)).bind fun first =>
      (counts_stmts hbase ss r hrest).bind fun rest => .pure fun _ _ hrest _ hfirst => ?_
    rw [stmtsNodes_append]
    exact hfirst.append hrest
termination_by structural ss => ss

theorem counts_stmtFramed? (hbase : M.Apart) :
    ∀ (s : Option Stmt) {s₁ : Option Stmt} {r₀ : Place} (r : Region),
    stmtFramedAs? ⟨M.toLayout.allowing T, none⟩ s r₀ s₁ →
    M.Counts lo (stmtFramed? M.vars M.wrap s₁ r) fun c c' s' =>
      M.Counted c c' (stmtNodes? s₁) (stmtNodes? s')
  | none, _, _, r, rfl => by
    rw [stmtFramed?]
    exact .pure fun _ => .refl _
  | some s, _, _, r, ⟨s₁, hs, rfl⟩ => by
    rw [stmtFramed?]
    exact (counts_asBody r s₁ (counts_framed hbase s r hs.plain)).bind fun s' => .pure fun _ _ hs =>
      hs
termination_by structural s => s

theorem counts_catches (hbase : M.Apart) :
    ∀ (cs : List Catch) {cs₁ : List Catch} {r₀ : Place} (r : Region),
    catchesFramedAs ⟨M.toLayout.allowing T, none⟩ cs r₀ cs₁ →
      M.Counts lo (catchesFramed M.vars M.wrap cs₁ r) fun c c' cs' =>
        M.Counted c c' (catchesNodes cs₁) (catchesNodes cs') ∧ cs'.length = cs₁.length
  | [], _, _, r, rfl => by
    rw [catchesFramed]
    exact .pure fun _ => ⟨.refl _, rfl⟩
  | ⟨s, sc, ⟨ss, q⟩, p⟩ :: cs, _, _, r, ⟨_, ss₁, rest, hss, hcs, rfl⟩ => by
    rw [catchesFramed]
    exact (counts_stmts hbase ss { r with inCatch := true } hss).bind fun ss' =>
      (counts_catches hbase cs r hcs).bind fun cs' =>
      .pure fun _ _ hcs _ hss => ⟨(hss.block q).append hcs.1, congrArg (· + 1) hcs.2⟩
termination_by structural cs => cs

theorem counts_cases (hbase : M.Apart) :
    ∀ (cs : List SwitchCase) {cs₁ : List SwitchCase} {r₀ : Place} (r : Region),
    casesFramedAs ⟨M.toLayout.allowing T, none⟩ cs r₀ cs₁ →
      M.Counts lo (casesFramed M.vars M.wrap cs₁ r) fun c c' cs' =>
        M.Counted c c' (casesNodes cs₁) (casesNodes cs')
  | [], _, _, r, rfl => by
    rw [casesFramed]
    exact .pure fun _ => .refl _
  | ⟨t, ss⟩ :: cs, _, _, r, ⟨t₁, ss₁, rest, ht, hss, hcs, rfl⟩ => by
    rw [casesFramed]
    exact (counts_locate? hbase ht).bind fun t' => (counts_stmts hbase ss r hss).bind fun ss' =>
      (counts_cases hbase cs r hcs).bind fun cs' => .pure fun _ _ hcs _ hss _ ht =>
        ht.append (hss.append hcs)
termination_by structural cs => cs

end

theorem counts_push (name : Option SymbolId) (p : Position) :
    M.Counts lo (push M.vars name p) fun s s' x => s' = s ∧ M.tally x.nodes = 0 := by
  refine counts_frameIndex.bind fun index => .pure fun _ _ h => ⟨h, ?_⟩
  cases name with
  | none => rfl
  | some => rfl

theorem counts_framedBody (hbase : M.Apart) {f f₁ : Func} {r₀ : Place}
    (hbody : stmtsFramedAs ⟨M.toLayout.allowing T, none⟩ f.body.stmts r₀ f₁.body.stmts) :
    M.Counts lo (f₁.framedBody M.vars M.wrap) fun s s' ss =>
      M.Counted s s' (stmtsNodes f₁.body.stmts) (stmtsNodes ss) := by
  have hentry {entry : Stmt} (h : M.tally entry.nodes = 0) (ss : List Stmt) :
      M.tally (stmtsNodes (afterVars entry ss)) = M.tally (stmtsNodes ss) := by
    obtain ⟨front, back, rfl, heq⟩ := afterVars_eq entry ss
    rw [heq, stmtsNodes_append, stmtsNodes_append, stmtsNodes, tally_append, tally_append,
      tally_append, h, zero_add]
  refine (counts_push f₁.name f₁.pos).bind fun entry => (counts_stmts hbase _ {} hbody).bind
    fun ss => ?_
  dsimp only
  split
  · refine .pure ?_
    rintro _ _ hss _ ⟨rfl, h⟩
    exact hss.congr (hentry h ss)
  · refine (counts_pop f₁.pos).bind fun e => .pure ?_
    rintro _ _ ⟨rfl, he⟩ _ hss _ ⟨rfl, h⟩
    refine Counted.add (hss.congr (hentry h ss)) ?_
    rw [stmtsNodes_append, tally_append, stmtsNodes, stmtsNodes, List.append_nil, tally_ofExpr, he]

/-- What variables count for where they are declared. -/
def flagged (M : Meter) (ss : List SymbolId) : Tally :=
  ({ earlyExitFlags := (ss.filter M.flag).length }, ss.filter M.flag)

theorem ofNode_vars (q : Position) (ds es : List VarDecl) :
    M.ofNode (.stmt (.vars q (ds ++ es))) =
      M.ofNode (.stmt (.vars q ds)) + M.flagged (es.map (·.name)) := by
  simp only [ofNode, flagged, Node.declared, List.map_append, List.filter_append,
    List.length_append]
  rfl

theorem tally_flush (l : Locals) (pos : Position) (ss : List Stmt) :
    M.tally (stmtsNodes (l.flush pos ss)) = M.tally (stmtsNodes ss) + M.flagged l.pending := by
  have hnames : (l.pending.map fun s => (⟨s, none, pos⟩ : VarDecl)).map (·.name) = l.pending := by
    rw [List.map_map]
    exact List.map_id _
  unfold Locals.flush
  split
  · next hempty =>
    rw [List.isEmpty_iff.1 hempty]
    exact (add_zero _).symm
  · obtain ⟨q, es, rest, hmerged, hss⟩ :=
      Program.mergeVars_cases pos (l.pending.map fun s => (⟨s, none, pos⟩ : VarDecl)) ss
    have hvars (ds : List VarDecl) : M.tally (stmtsNodes (.vars q ds :: rest)) =
        M.ofNode (.stmt (.vars q ds)) + (M.tally (declsNodes ds) + M.tally (stmtsNodes rest)) := by
      rw [stmtsNodes, tally_append, ← add_assoc]
      rfl
    have hdecls : M.tally (declsNodes (es ++ l.pending.map fun s => (⟨s, none, pos⟩ : VarDecl))) =
        M.tally (declsNodes es) := by
      rw [declsNodes_append, declsNodes_declared, List.append_nil]
    rw [hmerged, hvars, ofNode_vars, hdecls, hnames, add_right_comm]
    rcases hss with rfl | ⟨rfl, rfl, -⟩
    · rw [hvars]
    · rw [show M.ofNode (.stmt (.vars q [])) = 0 from rfl, declsNodes, tally_nil, zero_add,
        zero_add]

/-- A function that gets a frame is counted, and so is what it gets. Its flags are new. -/
theorem tally_framed (hbase : M.Apart) {f f₁ : Func} {r₀ : Place}
    (hbody : stmtsFramedAs ⟨M.toLayout.allowing T, none⟩ f.body.stmts r₀ f₁.body.stmts)
    {t : ScopeTable} {recorder : Option Recorder}
    (hrecorder : ∀ r, recorder = some r → M.vars.location = some r.location)
    (hvars : ∀ s, M.vars.Uses s → s.index < t.symbols.size)
    (hroots : ∀ x s, t.rootName x = some s → ¬ M.vars.Uses s)
    (hflag : ∀ s : SymbolId, t.symbols.size ≤ s.index →
      s.index < (f₁.framed M.vars M.wrap recorder t).2.2.symbols.size →
        M.flag s = (f₁.framed M.vars M.wrap recorder t).2.2.isFlag s) :
    let y := f₁.framed M.vars M.wrap recorder t
    ∃ F : List SymbolId, F.Nodup ∧
      (∀ s ∈ F, t.symbols.size ≤ s.index ∧ s.index < y.2.2.symbols.size) ∧
      M.tally y.1.nodes + ({ instrumented := 1 }, 0) =
        M.tally f₁.nodes + (y.2.1, (F : Multiset SymbolId)) := by
  obtain ⟨name, params, ⟨ss₁, q⟩, sc, pos⟩ := f₁
  have hready : Draft.Ready M.vars t.symbols.size
      { locals := { table := t, scope := sc }, recorder } :=
    ⟨.start hrecorder hvars hroots sc, List.nodup_nil, rfl⟩
  obtain ⟨hD, hcounted⟩ := counts_framedBody hbase hbody _ hready
  rw [Func.framed] at hflag ⊢
  generalize (Func.framedBody M.vars M.wrap ⟨name, params, ⟨ss₁, q⟩, sc, pos⟩).run
    { locals := { table := t, scope := sc }, recorder } = y
    at hD hcounted hflag
  obtain ⟨ss, D⟩ := y
  have hflags : D.locals.pending.filter M.flag = D.locals.earlyExits.map (·.2) :=
    (List.filter_congr fun s hs => hflag s (hD.pending s hs).1 (hD.pending s hs).2).trans hD.flags
  refine ⟨D.locals.pending.filter M.flag, hD.nodup.filter _, fun s hs => hD.pending s
    (List.mem_of_mem_filter hs), ?_⟩
  have hnodes (ts : List Stmt) : M.tally (Func.nodes ⟨name, params, ⟨ts, q⟩, sc, pos⟩) =
      M.tally (stmtsNodes ts) :=
    (zero_add _).trans (zero_add _)
  have hsum (F : Multiset SymbolId) : ((D.stats, 0) : Tally) +
      (({ earlyExitFlags := D.locals.earlyExits.length } : Stats), F) +
        (({ instrumented := 1 } : Stats), 0) =
        (D.stats + { instrumented := 1, earlyExitFlags := D.locals.earlyExits.length }, F) :=
    Prod.ext rfl ((add_zero _).trans (zero_add _))
  have hss : M.tally (stmtsNodes ss) = M.tally (stmtsNodes ss₁) + (D.stats, 0) :=
    (add_zero _).symm.trans hcounted
  dsimp only
  rw [hnodes, hnodes, tally_flush, flagged, hflags, List.length_map, hss, add_assoc, add_assoc,
    ← add_assoc (D.stats, 0), hsum]

end Meter

end FrameLedger
