import FrameLedger.Proofs.Allotment
import FrameLedger.Proofs.Framed

/-!
# What is added to a function

A function that gets a frame keeps all that it names, and what it names besides is little:
references to the variables of the stack and of its own frame, and catch clauses with a parameter of
their own, in which the exception wrapper is called (`Job.Inserted`). `Job.Makes` says what work on
a draft makes, with regard to the variables there are in the end, and `stmts_makes` what work on the
statements of a body makes.
-/

namespace FrameLedger

open Draft

/-- Work on one function. -/
structure Job where
  vars : StackVars
  wrap : SymbolId
  /-- The table as the work begins. -/
  table : ScopeTable
  /-- The scope of the function. -/
  scope : ScopeId
  /-- The variables there are in the end. -/
  done : Locals
  /-- The function that the code is part of in the end. -/
  func : Option Func
  /-- The scopes in which the code stands, and maybe others. -/
  stands : ScopeId → Prop

namespace Job

variable (J : Job)

/-- The variables of the stack and of the frame. -/
def Uses (s : SymbolId) : Prop := J.vars.Uses s ∨ s ∈ J.done.pending

/-- What may be added to the code. -/
inductive Inserted : Occurrence → Prop
  | reference {sc : ScopeId} {s : SymbolId} (hsc : J.stands sc) (hs : J.Uses s) :
    Inserted ⟨⟨J.func, sc⟩, .reference s⟩
  | clause {sc sc' : ScopeId} {e : SymbolId} (hsc : J.stands sc) (he : J.done.Param J.table sc' e) :
    Inserted ⟨⟨J.func, sc⟩, .clause sc'⟩
  | param {sc : ScopeId} {e : SymbolId} (he : J.done.Param J.table sc e) : Inserted
      ⟨⟨J.func, sc⟩, .binder e⟩
  /-- In a catch clause that was added. -/
  | caught {sc : ScopeId} {e s : SymbolId} (he : J.done.Param J.table sc e)
    (hs : s = e ∨ s = J.wrap ∨ J.Uses s) : Inserted ⟨⟨J.func, sc⟩, .reference s⟩

/-- Catch clauses that stand in the code have their own code in it too. -/
def Opens (os : List Occurrence) : Prop :=
  ∀ o ∈ os, ∀ sc, o.part = .clause sc → J.stands o.stand.scope → J.stands sc

/-- A draft on which the work goes on. -/
structure Tidy (d : Draft) : Prop where
  locals : d.locals.Tidy J.table J.scope
  recorder : ∀ r, d.recorder = some r → J.vars.location = some r.location

variable {α β : Type}

/-- What work on a draft makes, with regard to the variables there are in the end. -/
def Makes (d : Draft) (x : StateM Draft α) (P : α → Prop) : Prop :=
  J.Tidy d → J.Tidy (x.run d).2 ∧ d.locals.Onward (x.run d).2.locals ∧
    ((x.run d).2.locals.Onward J.done → P (x.run d).1)

variable {J} {d : Draft} {x : StateM Draft α} {f : α → StateM Draft β} {P P' : α → Prop}
  {Q : β → Prop}

theorem Opens.left {a b : List Occurrence} (h : J.Opens (a ++ b)) : J.Opens a := fun o ho =>
  h o (List.mem_append_left _ ho)

theorem Opens.right {a b : List Occurrence} (h : J.Opens (a ++ b)) : J.Opens b := fun o ho =>
  h o (List.mem_append_right _ ho)

theorem Opens.tail {o : Occurrence} {os : List Occurrence} (h : J.Opens (o :: os)) : J.Opens os :=
  fun o' ho => h o' (List.mem_cons_of_mem _ ho)

namespace Makes

theorem pure {a : α} (ha : P a) : J.Makes d (pure a) P := fun hd => ⟨hd, .refl _, fun _ => ha⟩

theorem bind (hx : J.Makes d x P) (hf : ∀ a d', J.Makes d' (f a) fun b => P a → Q b) :
    J.Makes d (x >>= f) Q := by
  intro hd
  obtain ⟨hd', honward, hP⟩ := hx hd
  obtain ⟨hd'', honward', hQ⟩ := hf (x.run d).1 (x.run d).2 hd'
  exact ⟨hd'', honward.trans honward', fun h => hQ h (hP (honward'.trans h))⟩

theorem mono (hx : J.Makes d x P) (h : ∀ a, P a → P' a) : J.Makes d x P' := fun hd =>
  ⟨(hx hd).1, (hx hd).2.1, fun ho => h _ ((hx hd).2.2 ho)⟩

theorem get_bind {f : Draft → StateM Draft β} (h : J.Tidy d → J.Makes d (f d) Q) :
    J.Makes d (get >>= f) Q :=
  fun hd => h hd hd

/-- The end is further on than where the work is now. -/
theorem since (hx : J.Makes d x fun a => d.locals.Onward J.done → P a) : J.Makes d x P := fun hd =>
  ⟨(hx hd).1, (hx hd).2.1, fun ho => (hx hd).2.2 ho ((hx hd).2.1.trans ho)⟩

/-- Work that leaves the variables alone. -/
theorem of_locals {g : Draft → Draft} (hlocals : (g d).locals = d.locals)
    (hrecorder : ∀ r, (g d).recorder = some r → J.vars.location = some r.location) :
    J.Makes d (modify g) fun _ => True := fun hd =>
  ⟨⟨show (g d).locals.Tidy _ _ from hlocals ▸ hd.locals, hrecorder⟩,
    show d.locals.Onward (g d).locals from hlocals ▸ .refl _, fun _ => trivial⟩

theorem onLocals {x : StateM Locals α} (h : d.locals.Tidy J.table J.scope →
    (x.run d.locals).2.Tidy J.table J.scope ∧ d.locals.Onward (x.run d.locals).2 ∧
      ((x.run d.locals).2.Onward J.done → P (x.run d.locals).1)) : J.Makes d (onLocals x) P :=
  fun hd => ⟨⟨(h hd.locals).1, hd.recorder⟩, (h hd.locals).2⟩

theorem frameIndex : J.Makes d frameIndex (· ∈ J.done.pending) := onLocals fun hl =>
  ⟨hl.frameIndexVar.1, hl.frameIndexVar.2.1, fun ho => ho.pending _ hl.frameIndexVar.2.2⟩

theorem returnTemp : J.Makes d (Draft.onLocals Locals.returnTempVar) (· ∈ J.done.pending) :=
  onLocals fun hl =>
  ⟨hl.returnTempVar.1, hl.returnTempVar.2.1, fun ho => ho.pending _ hl.returnTempVar.2.2⟩

theorem earlyExit (c : CleanupId) :
    J.Makes d (Draft.onLocals (Locals.earlyExitVar c)) (· ∈ J.done.pending) :=
  onLocals fun hl =>
    ⟨(hl.earlyExitVar c).1, (hl.earlyExitVar c).2.1, fun ho => ho.pending _ (hl.earlyExitVar c).2.2⟩

theorem catchParam : J.Makes d (Draft.onLocals Locals.catchParam) fun x =>
    J.done.Param J.table x.1 x.2 :=
  onLocals fun hl => ⟨hl.catchParam.1, hl.catchParam.2.1, fun ho => hl.catchParam.2.2.onward ho⟩

theorem nextCleanup : J.Makes d (Draft.onLocals Locals.nextCleanup) fun _ => True :=
  onLocals fun hl =>
  ⟨{ hl with added := fun s h h' => (hl.added s h h').imp_right fun ⟨sc, hp⟩ => ⟨sc, { hp with }⟩ },
    ⟨rfl, .refl _, fun _ => id⟩, fun _ => trivial⟩

theorem count (s : Stats) : J.Makes d (count s) fun _ => True := fun hd =>
  of_locals (g := fun d : Draft => { d with stats := d.stats + s }) rfl hd.recorder hd

theorem forget : J.Makes d forget fun _ => True := fun hd =>
  of_locals
    (g := fun d : Draft => { d with recorder := d.recorder.map fun r => { r with last := none } })
    rfl
    (fun r hr => by
      obtain ⟨r', hr', rfl⟩ := Option.map_eq_some_iff.1 hr
      exact hd.recorder r' hr') hd

end Makes

end Job

/-! ## Noting locations -/

section

variable {J : Job} {d : Draft} {sc : ScopeId}

/-- A variable of the stack or of the frame may be referred to anywhere in the code. -/
theorem inserted_references (hsc : J.stands sc) {ss : List SymbolId} (hss : ∀ s ∈ ss, J.Uses s)
    (o : Occurrence) (ho : o ∈ ss.map fun s => ⟨⟨J.func, sc⟩, .reference s⟩) :
    J.Inserted o := by
  obtain ⟨s, hs, rfl⟩ := List.mem_map.1 ho
  exact .reference hsc (hss s hs)

theorem occurrences_noteBefore (r : Recorder) (index : SymbolId) (e : Expr) (w : Stand) :
    (r.noteBefore index e).occurrences w =
      [r.location, index].map (fun s => ⟨w, .reference s⟩) ++ e.occurrences w := by
  have hnote : (r.note e.pos).occurrences w = [] := by
    unfold Recorder.note
    split <;> rfl
  simp only [Recorder.noteBefore, Expr.comma, Expr.assign, Expr.occurrences, hnote]
  rfl

theorem makes_record (hsc : J.stands sc) (u : Usage) (e : Expr) : J.Makes d (record u e) fun e' =>
    Grown J.Inserted (e.occurrences ⟨J.func, sc⟩) (e'.occurrences ⟨J.func, sc⟩) := by
  refine .get_bind fun hd => ?_
  split
  · exact .pure (.refl _)
  · next r hr =>
    split
    · exact .pure (.refl _)
    · have hmodify : J.Makes d
          (modify fun d : Draft => { d with recorder := some { r with last := some e.pos } })
          fun _ => True :=
        .of_locals (g := fun d : Draft => { d with recorder := some { r with last := some e.pos } })
          rfl fun r' hr' => by
          obtain rfl := Option.some.inj hr'
          exact hd.recorder r hr
      refine hmodify.bind fun _ d₁ => Job.Makes.frameIndex.bind fun index d₂ =>
        (Job.Makes.count _).bind fun _ d₃ => .pure fun _ hindex _ => ?_
      rw [occurrences_noteBefore]
      refine .before (inserted_references hsc fun s hs => ?_) _
      rcases List.mem_cons.1 hs with rfl | hs
      · exact .inl (.inr (.inr (hd.recorder r hr)))
      · exact .inr (List.mem_singleton.1 hs ▸ hindex)

mutual

theorem Expr.makes_located (hsc : J.stands sc) :
    ∀ (e : Expr) (u : Usage) (d : Draft), J.Makes d (e.located u) fun e' =>
    Grown J.Inserted (e.occurrences ⟨J.func, sc⟩) (e'.occurrences ⟨J.func, sc⟩)
  | .var p s, u, d => by
    rw [Expr.located]
    exact makes_record hsc u _
  | .bare p n, u, d => by
    rw [Expr.located]
    exact makes_record hsc u _
  | .member p q n, u, d => by
    rw [Expr.located]
    exact (q.makes_located hsc .value d).bind fun q' _ =>
      (makes_record hsc u _).mono fun e' he' hq => ((Grown.refl _).append hq).trans he'
  | .index p a i, u, d => by
    rw [Expr.located]
    exact (a.makes_located hsc .value d).bind fun a' d₁ => (i.makes_located hsc .value d₁).bind
      fun i' _ => (makes_record hsc u _).mono fun e' he' hi ha => (ha.append hi).trans he'
  | .call p f as, u, d => by
    rw [Expr.located]
    exact (f.makes_located hsc .reference d).bind fun f' d₁ =>
      (exprs_makes hsc as d₁).bind fun as' _ =>
      (makes_record hsc u _).mono fun e' he' has hf => (hf.append has).trans he'
  | .new p f as, u, d => by
    rw [Expr.located]
    exact (f.makes_located hsc .value d).bind fun f' d₁ => (exprs_makes hsc as d₁).bind fun as' _ =>
      (makes_record hsc u _).mono fun e' he' has hf => (hf.append has).trans he'
  | .prefixed p op x, u, d => by
    rw [Expr.located]
    exact (x.makes_located hsc op.usage d).bind fun x' _ =>
      (makes_record hsc u _).mono fun e' he' hx => hx.trans he'
  | .postfixed p op x, u, d => by
    rw [Expr.located]
    exact (x.makes_located hsc .target d).bind fun x' _ =>
      (makes_record hsc u _).mono fun e' he' hx => hx.trans he'
  | .binary p op l r, u, d => by
    rw [Expr.located]
    refine (l.makes_located hsc _ d).bind fun l' d₁ => (r.makes_located hsc .value d₁).bind
      fun r' d₂ => ?_
    split
    · exact (makes_record hsc u _).mono fun e' he' hr hl => (hl.append hr).trans he'
    · exact .pure fun hr hl => hl.append hr
  | .cond p c t e, u, d => by
    rw [Expr.located]
    exact (c.makes_located hsc .value d).bind fun c' d₁ => (t.makes_located hsc .value d₁).bind
      fun t' d₂ =>
      (e.makes_located hsc .value d₂).bind fun e' _ => .pure fun he ht hc =>
        hc.append (ht.append he)
  | .array p es, u, d => by
    rw [Expr.located]
    exact (exprs_makes hsc es d).bind fun es' _ => .pure id
  | .object p ps, u, d => by
    rw [Expr.located]
    exact (properties_makes hsc ps d).bind fun ps' _ => .pure id
  | .literal p l, u, d => by
    rw [Expr.located]
    exact .pure (.refl _)
  | .func p f, u, d => by
    rw [Expr.located]
    exact .pure (.refl _)

theorem exprs_makes (hsc : J.stands sc) :
    ∀ (es : List Expr) (d : Draft), J.Makes d (exprsLocated es) fun es' =>
    Grown J.Inserted (exprsOccurrences es ⟨J.func, sc⟩) (exprsOccurrences es' ⟨J.func, sc⟩)
  | [], d => by
    rw [exprsLocated]
    exact .pure (.refl _)
  | e :: es, d => by
    rw [exprsLocated]
    exact (e.makes_located hsc .value d).bind fun e' d₁ => (exprs_makes hsc es d₁).bind fun es' _ =>
      .pure fun hes he => he.append hes

theorem properties_makes (hsc : J.stands sc) :
    ∀ (ps : List Property) (d : Draft), J.Makes d (propertiesLocated ps)
    fun ps' =>
    Grown J.Inserted (propertiesOccurrences ps ⟨J.func, sc⟩)
      (propertiesOccurrences ps' ⟨J.func, sc⟩)
  | [], d => by
    rw [propertiesLocated]
    exact .pure (.refl _)
  | ⟨k, e⟩ :: ps, d => by
    rw [propertiesLocated]
    exact (e.makes_located hsc .value d).bind fun e' d₁ => (properties_makes hsc ps d₁).bind
      fun ps' _ => .pure fun hps he => he.append hps

end

theorem makes_locate (hsc : J.stands sc) (e : Expr) (d : Draft) : J.Makes d (locate e) fun e' =>
    Grown J.Inserted (e.occurrences ⟨J.func, sc⟩) (e'.occurrences ⟨J.func, sc⟩) := by
  refine .get_bind fun _ => ?_
  split
  · exact .pure (.refl _)
  · exact e.makes_located hsc .value d

theorem makes_locate? (hsc : J.stands sc) (e : Option Expr) (d : Draft) :
    J.Makes d (locate? e) fun e' =>
    Grown J.Inserted (exprOccurrences? e ⟨J.func, sc⟩) (exprOccurrences? e' ⟨J.func, sc⟩) := by
  cases e with
  | none => exact .pure (.refl _)
  | some e => exact (makes_locate hsc e d).bind fun e' _ => .pure id

theorem makes_locateDecls (hsc : J.stands sc) :
    ∀ (ds : List VarDecl) (d : Draft), J.Makes d (locateDecls ds) fun ds' =>
    Grown J.Inserted (declsOccurrences ds ⟨J.func, sc⟩) (declsOccurrences ds' ⟨J.func, sc⟩)
  | [], d => .pure (.refl _)
  | ⟨s, e, p⟩ :: ds, d => by
    rw [locateDecls, List.mapM_cons]
    simp only [bind_assoc, pure_bind]
    exact (makes_locate? hsc e d).bind fun e' d₁ => (makes_locateDecls hsc ds d₁).bind fun ds' _ =>
      .pure fun hds he => (he.append hds).cons _

end

/-! ## Frame code -/

section

theorem occurrences_pushCode (v : StackVars) (index : SymbolId) (name : Option SymbolId)
    (p : Position) (w : Stand) :
    (pushCode v index name p).occurrences w =
      [v.stack, index, v.depth].map (fun s => ⟨w, .reference s⟩) ++ name.toList.map fun s =>
        ⟨w, .reference s⟩ := by
  cases name <;> rfl

theorem occurrences_oneStmt (p : Position) (ss : List Stmt) (w : Stand) :
    (oneStmt p ss).occurrences w = stmtsOccurrences ss w := by
  unfold oneStmt
  split
  · simp [stmtsOccurrences]
  · rfl

theorem Grown.one {P : Occurrence → Prop} {os : List Occurrence} {s : Stmt} {w : Stand}
    (h : Grown P os (s.occurrences w)) : Grown P os (stmtsOccurrences [s] w) := by
  rwa [stmtsOccurrences, stmtsOccurrences, List.append_nil]

variable {J : Job} {d : Draft} {sc : ScopeId} (hsc : J.stands sc)

include hsc

/-- The frame is kept by references to the depth and to its index. -/
theorem inserted_depth_index {index : SymbolId} (hindex : index ∈ J.done.pending) (o : Occurrence)
    (ho : o ∈ [J.vars.depth, index].map fun s => ⟨⟨J.func, sc⟩, .reference s⟩) : J.Inserted o := by
  refine inserted_references hsc (fun s hs => ?_) o ho
  rcases List.mem_cons.1 hs with rfl | hs
  · exact .inl (.inr (.inl rfl))
  · exact .inr (List.mem_singleton.1 hs ▸ hindex)

theorem makes_pop (p : Position) : J.Makes d (pop J.vars p) fun e =>
    ∀ o ∈ e.occurrences ⟨J.func, sc⟩, J.Inserted o :=
  Job.Makes.frameIndex.bind fun _ _ => (Job.Makes.count _).bind fun _ _ => .pure fun _ hindex =>
    inserted_depth_index hsc hindex

theorem makes_resetDepth (p : Position) :
    J.Makes d (resetDepth J.vars p) fun s => ∀ o ∈ s.occurrences ⟨J.func, sc⟩, J.Inserted o :=
  Job.Makes.frameIndex.bind fun _ _ => (Job.Makes.count _).bind fun _ _ => .pure fun _ hindex =>
    inserted_depth_index hsc hindex

theorem makes_syntheticCatch (p : Position) : J.Makes d (syntheticCatch J.vars J.wrap p) fun cl =>
    ∀ o ∈ catchesOccurrences [cl] ⟨J.func, sc⟩, J.Inserted o := by
  refine Job.Makes.catchParam.bind fun x _ => Job.Makes.frameIndex.bind fun index _ =>
    (Job.Makes.count _).bind fun _ _ => .pure fun _ hindex he o ho => ?_
  obtain ⟨sc', e⟩ := x
  have hdepth : J.Uses J.vars.depth := .inl (.inr (.inl rfl))
  rcases List.mem_cons.1 ho with rfl | ho
  · exact .clause hsc he
  rcases List.mem_cons.1 ho with rfl | ho
  · exact .param he
  have ho : o ∈ [e, J.wrap, e, J.vars.depth, index, e].map fun s =>
      (⟨⟨J.func, sc'⟩, .reference s⟩ : Occurrence) := by
    simpa [rethrowCode, catchesOccurrences, Block.occurrences, stmtsOccurrences, Stmt.occurrences,
      Stmt.ofExpr, Expr.assign, resetCode, Expr.occurrences, exprsOccurrences] using ho
  obtain ⟨s, hs, rfl⟩ := List.mem_map.1 ho
  refine .caught he ?_
  simp only [List.mem_cons, List.not_mem_nil, or_false] at hs
  rcases hs with rfl | rfl | rfl | rfl | rfl | rfl
  · exact .inl rfl
  · exact .inr (.inl rfl)
  · exact .inl rfl
  · exact .inr (.inr hdepth)
  · exact .inr (.inr (.inr hindex))
  · exact .inl rfl

theorem makes_exitThrough (c : CleanupId) (p : Position) (e : Option Expr) :
    J.Makes d (exitThrough c p e) fun ss =>
    Grown J.Inserted (exprOccurrences? e ⟨J.func, sc⟩) (stmtsOccurrences ss ⟨J.func, sc⟩) := by
  refine (Job.Makes.earlyExit c).bind fun flag _ => ?_
  have hset (h : flag ∈ J.done.pending) (o : Occurrence)
      (ho : o ∈ [(⟨⟨J.func, sc⟩, .reference flag⟩ : Occurrence)]) : J.Inserted o :=
    List.mem_singleton.1 ho ▸ .reference hsc (.inr h)
  cases e with
  | some e =>
    refine .pure fun h => (Grown.before (hset h) _).trans (.of_perm (.of_eq ?_))
    simp [stmtsOccurrences, Stmt.occurrences, exprOccurrences?, Expr.comma, Expr.assign, Expr.bool,
      Expr.occurrences]
  | none => exact .pure fun h => .behind (hset h) []

theorem makes_popAndReturn (p : Position) (e : Option Expr) :
    J.Makes d (popAndReturn J.vars p e) fun ss =>
    Grown J.Inserted (exprOccurrences? e ⟨J.func, sc⟩) (stmtsOccurrences ss ⟨J.func, sc⟩) := by
  unfold popAndReturn
  split
  · next e' he =>
    obtain rfl := (Option.filter_eq_some_iff.1 he).1
    refine Job.Makes.returnTemp.bind fun temp d₁ => (makes_pop hsc p).bind fun pop _ =>
      .pure fun hpop htemp => ?_
    have href : ∀ o ∈ [(⟨⟨J.func, sc⟩, .reference temp⟩ : Occurrence)], J.Inserted o := fun o ho =>
      List.mem_singleton.1 ho ▸ .reference hsc (.inr htemp)
    refine ((Grown.before href _).trans (.behind (List.forall_mem_append.2 ⟨hpop, href⟩) _)).trans
      (.of_perm (.of_eq ?_))
    simp [stmtsOccurrences, Stmt.occurrences, Stmt.ofExpr, exprOccurrences?, Expr.assign,
      Expr.occurrences]
  · refine (makes_pop hsc p).bind fun pop _ => .pure fun hpop =>
      (Grown.before hpop _).trans (.of_perm (.of_eq ?_))
    simp [stmtsOccurrences, Stmt.occurrences, Stmt.ofExpr]

theorem makes_guardCleanup (c : CleanupId) (b : Block) :
    J.Makes d (guardCleanup J.vars c b) fun b' =>
    Grown J.Inserted (b.occurrences ⟨J.func, sc⟩) (b'.occurrences ⟨J.func, sc⟩) := by
  refine .get_bind fun hd => ?_
  split
  · next flag hflag =>
    split
    · exact .pure (.refl _)
    · refine .since ((makes_pop hsc b.pos).bind fun pop _ => .pure fun hpop honward => ?_)
      have hflag : J.Inserted ⟨⟨J.func, sc⟩, .reference flag⟩ :=
        .reference hsc
          (.inr (honward.pending _ (hd.locals.earlyExits _ (Locals.mem_of_earlyExit? hflag))))
      obtain ⟨ss, q⟩ := b
      refine (Grown.behind (List.forall_mem_cons.2 ⟨hflag, hpop⟩) _).trans (.of_perm (.of_eq ?_))
      simp [Block.occurrences, stmtsOccurrences, Stmt.ofExpr, Stmt.occurrences, Expr.occurrences]
  · exact .pure (.refl _)

/-- A reset of the depth may stand behind a statement. -/
theorem makes_withReset (r : Region) (s : Stmt) {x : StateM Draft (List Stmt)}
    {os : List Occurrence}
    (hx : J.Makes d x fun ss => Grown J.Inserted os (stmtsOccurrences ss ⟨J.func, sc⟩)) :
    J.Makes d (withReset J.vars J.wrap r s x) fun ss =>
      Grown J.Inserted os (stmtsOccurrences ss ⟨J.func, sc⟩) := by
  refine hx.bind fun ss d₁ => ?_
  split
  · refine (makes_resetDepth hsc _).bind fun reset _ => .pure fun hreset hss => ?_
    rw [stmtsOccurrences_append]
    exact hss.trans (.behind (by simpa [stmtsOccurrences] using hreset) _)
  · exact .pure id

theorem makes_asBody (r : Region) (s : Stmt) {x : StateM Draft (List Stmt)} {os : List Occurrence}
    (hx : J.Makes d x fun ss => Grown J.Inserted os (stmtsOccurrences ss ⟨J.func, sc⟩)) :
    J.Makes d (asBody J.vars J.wrap r s x) fun s' =>
      Grown J.Inserted os (s'.occurrences ⟨J.func, sc⟩) :=
  (makes_withReset hsc r s hx).bind fun ss _ => .pure fun h => by rwa [occurrences_oneStmt]

end

/-! ## Statements -/

section

variable {J : Job}

theorem makes_forgetIf (b : Bool) (d : Draft) : J.Makes d (forgetIf b) fun _ => True := by
  cases b with
  | true => exact .forget
  | false => exact .pure trivial

theorem makes_locateInit {sc : ScopeId} (hsc : J.stands sc) (i : Option ForInit) (d : Draft) :
    J.Makes d (locateInit i) fun i' =>
      Grown J.Inserted (forInitOccurrences i ⟨J.func, sc⟩)
        (forInitOccurrences i' ⟨J.func, sc⟩) := by
  rcases i with _ | ds | e
  · exact .pure (.refl _)
  · exact (makes_locateDecls hsc ds d).bind fun ds' _ => .pure id
  · exact (makes_locate hsc e d).bind fun e' _ => .pure id

mutual

theorem Stmt.makes_framed : ∀ (s : Stmt) (r : Region) (sc : ScopeId) (d : Draft), J.stands sc →
    J.Opens (s.occurrences ⟨J.func, sc⟩) → J.Makes d (s.framed J.vars J.wrap r) fun ss =>
      Grown J.Inserted (s.occurrences ⟨J.func, sc⟩) (stmtsOccurrences ss ⟨J.func, sc⟩)
  | .expr p e, r, sc, d, hsc, ho => by
    rw [Stmt.framed]
    exact (makes_locate hsc e d).bind fun e' _ => .pure fun he => .one he
  | .vars p ds, r, sc, d, hsc, ho => by
    rw [Stmt.framed]
    exact (makes_locateDecls hsc ds d).bind fun ds' _ => .pure fun hds => .one hds
  | .ret p e, r, sc, d, hsc, ho => by
    rw [Stmt.framed]
    refine (makes_locate? hsc e d).bind fun e' d₁ => ?_
    split
    · exact (makes_exitThrough hsc _ p e').mono fun ss hss he => he.trans hss
    · exact (makes_popAndReturn hsc p e').mono fun ss hss he => he.trans hss
  | .raise p e, r, sc, d, hsc, ho => by
    rw [Stmt.framed]
    exact (makes_locate hsc e d).bind fun e' _ => .pure fun he => .one he
  | .branch p t yes no, r, sc, d, hsc, ho => by
    rw [Stmt.framed]
    exact (makes_locate hsc t d).bind fun t' d₁ =>
      (makes_asBody hsc r yes (yes.makes_framed r sc d₁ hsc ho.right.left)).bind fun yes' d₂ =>
        (stmt?_makes no r sc d₂ hsc ho.right.right).bind fun no' _ =>
          .pure fun hno hyes ht => .one (ht.append (hyes.append hno))
  | .whileLoop p t b, r, sc, d, hsc, ho => by
    rw [Stmt.framed]
    exact Job.Makes.forget.bind fun _ d₁ => (makes_locate hsc t d₁).bind fun t' d₂ =>
      (makes_asBody hsc r b (b.makes_framed r sc d₂ hsc ho.right)).bind fun b' _ =>
        .pure fun hb ht _ => .one (ht.append hb)
  | .doWhile p b t, r, sc, d, hsc, ho => by
    rw [Stmt.framed]
    exact (makes_asBody hsc r b (b.makes_framed r sc d hsc ho.left)).bind fun b' d₁ =>
      (makes_locate hsc t d₁).bind fun t' _ => .pure fun ht hb => .one (hb.append ht)
  | .forLoop p i t n b, r, sc, d, hsc, ho => by
    rw [framed_forLoop]
    exact (makes_locateInit hsc i d).bind fun i' d₁ => (makes_forgetIf t.isSome d₁).bind fun _ d₂ =>
      (makes_locate? hsc t d₂).bind fun t' d₃ => (makes_forgetIf n.isSome d₃).bind fun _ d₄ =>
        (makes_locate? hsc n d₄).bind fun n' d₅ =>
          (makes_asBody hsc r b (b.makes_framed r sc d₅ hsc ho.right.right.right)).bind fun b' _ =>
            .pure fun hb hn _ ht _ hi => .one (hi.append (ht.append (hn.append hb)))
  | .forIn p k declared o b, r, sc, d, hsc, ho => by
    rw [Stmt.framed]
    exact (makes_locate hsc o d).bind fun o' d₁ =>
      (makes_asBody hsc r b (b.makes_framed r sc d₁ hsc ho.tail.right)).bind fun b' _ =>
        .pure fun hb h => .one ((h.append hb).cons _)
  | .block p ⟨ss, q⟩, r, sc, d, hsc, ho => by
    rw [Stmt.framed]
    exact (stmts_makes ss r sc d hsc ho).bind fun ss' _ => .pure fun hss => .one hss
  | .tryBlock p ⟨ss, q⟩ cs none, r, sc, d, hsc, ho => by
    rw [Stmt.framed]
    exact (stmts_makes ss r sc d hsc ho.left).bind fun ss' d₁ =>
      (catches_makes cs r sc d₁ hsc ho.right.left).bind fun cs' _ =>
        .pure fun hcs hss => .one (hss.append (hcs.append (.refl _)))
  | .tryBlock p ⟨ss, q⟩ cs (some ⟨fs, fq⟩), r, sc, d, hsc, ho => by
    rcases hc : r.cleanup with _ | c
    · rw [framed_outermost _ _ _ _ _ _ _ _ hc]
      refine Job.Makes.nextCleanup.bind fun c d₁ =>
        (stmts_makes ss { r with cleanup := some c } sc d₁ hsc ho.left).bind fun ss' d₂ => ?_
      have hcatches : J.Makes d₂ (catchesOrRethrow J.vars J.wrap p cs { r with cleanup := some c })
          fun cs' =>
          Grown J.Inserted (catchesOccurrences cs ⟨J.func, sc⟩)
            (catchesOccurrences cs' ⟨J.func, sc⟩) := by
        rcases cs with _ | ⟨cl, cs⟩
        · exact (makes_syntheticCatch hsc p).bind fun cl _ => .pure fun hcl => .behind hcl []
        · exact catches_makes (cl :: cs) _ sc d₂ hsc ho.right.left
      exact hcatches.bind fun cs' d₃ => (stmts_makes fs r sc d₃ hsc ho.right.right).bind
        fun fs' d₄ =>
        (makes_guardCleanup hsc c ⟨fs', fq⟩).bind fun f' _ => .pure fun hf hfs hcs hss _ =>
          .one (hss.append (hcs.append (hfs.trans hf)))
    · rw [Stmt.framed]
      simp only [hc]
      exact (stmts_makes ss r sc d hsc ho.left).bind fun ss' d₁ =>
        (catches_makes cs r sc d₁ hsc ho.right.left).bind fun cs' d₂ =>
          (stmts_makes fs r sc d₂ hsc ho.right.right).bind fun fs' _ => .pure fun hfs hcs hss =>
            .one (hss.append (hcs.append hfs))
  | .labeled p l b, r, sc, d, hsc, ho => by
    rw [Stmt.framed]
    exact (makes_asBody hsc r b (b.makes_framed r sc d hsc ho)).bind fun b' _ => .pure fun hb =>
      .one hb
  | .breakTo p l, r, sc, d, hsc, ho => by
    rw [Stmt.framed]
    exact .pure (.refl _)
  | .continueTo p l, r, sc, d, hsc, ho => by
    rw [Stmt.framed]
    exact .pure (.refl _)
  | .switch p e cs, r, sc, d, hsc, ho => by
    rw [Stmt.framed]
    exact (makes_locate hsc e d).bind fun e' d₁ => (cases_makes cs r sc d₁ hsc ho.right).bind
      fun cs' _ => .pure fun hcs he => .one (he.append hcs)
  | .empty p, r, sc, d, hsc, ho => by
    rw [Stmt.framed]
    exact .pure (.refl _)

theorem stmts_makes : ∀ (ss : List Stmt) (r : Region) (sc : ScopeId) (d : Draft), J.stands sc →
    J.Opens (stmtsOccurrences ss ⟨J.func, sc⟩) → J.Makes d (stmtsFramed J.vars J.wrap ss r)
      fun ss' =>
      Grown J.Inserted (stmtsOccurrences ss ⟨J.func, sc⟩) (stmtsOccurrences ss' ⟨J.func, sc⟩)
  | [], r, sc, d, hsc, ho => by
    rw [stmtsFramed]
    exact .pure (.refl _)
  | s :: ss, r, sc, d, hsc, ho => by
    rw [stmtsFramed]
    refine (makes_withReset hsc r s (s.makes_framed r sc d hsc ho.left)).bind fun first d₁ =>
      (stmts_makes ss r sc d₁ hsc ho.right).bind fun rest _ => .pure fun hrest hfirst => ?_
    rw [stmtsOccurrences_append]
    exact hfirst.append hrest

theorem stmt?_makes : ∀ (s : Option Stmt) (r : Region) (sc : ScopeId) (d : Draft), J.stands sc →
    J.Opens (stmtOccurrences? s ⟨J.func, sc⟩) → J.Makes d (stmtFramed? J.vars J.wrap s r) fun s' =>
      Grown J.Inserted (stmtOccurrences? s ⟨J.func, sc⟩) (stmtOccurrences? s' ⟨J.func, sc⟩)
  | none, r, sc, d, hsc, ho => by
    rw [stmtFramed?]
    exact .pure (.refl _)
  | some s, r, sc, d, hsc, ho => by
    rw [stmtFramed?]
    exact (makes_asBody hsc r s (s.makes_framed r sc d hsc ho)).bind fun s' _ => .pure id

theorem catches_makes : ∀ (cs : List Catch) (r : Region) (sc : ScopeId) (d : Draft), J.stands sc →
    J.Opens (catchesOccurrences cs ⟨J.func, sc⟩) → J.Makes d (catchesFramed J.vars J.wrap cs r)
      fun cs' =>
      Grown J.Inserted (catchesOccurrences cs ⟨J.func, sc⟩) (catchesOccurrences cs' ⟨J.func, sc⟩)
  | [], r, sc, d, hsc, ho => by
    rw [catchesFramed]
    exact .pure (.refl _)
  | ⟨s, sc', ⟨ss, q⟩, p⟩ :: cs, r, sc, d, hsc, ho => by
    have hsc' : J.stands sc' := ho _ List.mem_cons_self sc' rfl hsc
    rw [catchesFramed]
    exact (stmts_makes ss _ sc' d hsc' ho.tail.tail.left).bind fun ss' d₁ =>
      (catches_makes cs r sc d₁ hsc ho.tail.tail.right).bind fun cs' _ => .pure fun hcs hss =>
        ((hss.append hcs).cons _).cons _

theorem cases_makes : ∀ (cs : List SwitchCase) (r : Region) (sc : ScopeId) (d : Draft),
    J.stands sc →
    J.Opens (casesOccurrences cs ⟨J.func, sc⟩) → J.Makes d (casesFramed J.vars J.wrap cs r)
      fun cs' =>
      Grown J.Inserted (casesOccurrences cs ⟨J.func, sc⟩) (casesOccurrences cs' ⟨J.func, sc⟩)
  | [], r, sc, d, hsc, ho => by
    rw [casesFramed]
    exact .pure (.refl _)
  | ⟨t, ss⟩ :: cs, r, sc, d, hsc, ho => by
    rw [casesFramed]
    exact (makes_locate? hsc t d).bind fun t' d₁ => (stmts_makes ss r sc d₁ hsc ho.right.left).bind
      fun ss' d₂ =>
      (cases_makes cs r sc d₂ hsc ho.right.right).bind fun cs' _ => .pure fun hcs hss ht =>
        ht.append (hss.append hcs)

end

end

/-! ## Functions -/

section

theorem perm_mergeVars (p : Position) (ds : List VarDecl) (ss : List Stmt) (w : Stand) :
    (stmtsOccurrences (mergeVars p ds ss) w).Perm
      (stmtsOccurrences ss w ++ declsOccurrences ds w) := by
  unfold mergeVars
  split
  · simp only [stmtsOccurrences, Stmt.occurrences, declsOccurrences_append, List.append_assoc]
    exact (List.perm_append_comm).append_left _
  · exact List.perm_append_comm

theorem perm_afterVars (entry : Stmt) (ss : List Stmt) (w : Stand) :
    (stmtsOccurrences (afterVars entry ss) w).Perm
      (entry.occurrences w ++ stmtsOccurrences ss w) := by
  unfold afterVars
  split
  · split
    · exact List.perm_append_comm_assoc _ _ _
    · rfl
  · rfl

theorem declsOccurrences_bare (ss : List SymbolId) (p : Position) (w : Stand) :
    declsOccurrences (ss.map fun s => ⟨s, none, p⟩) w = ss.map fun s => ⟨w, .declarator s⟩ := by
  induction ss with
  | nil => rfl
  | cons s ss ih =>
    rw [List.map_cons, declsOccurrences, ih]
    rfl

/-- A leading `var` statement declares the symbol. -/
def Leads (ss : List Stmt) (s : SymbolId) : Prop := ∃ p ds rest, ss = .vars p ds :: rest ∧
    s ∈ ds.map (·.name)

theorem leads_mergeVars (p : Position) {ds : List VarDecl} {s : SymbolId} (hs : s ∈ ds.map (·.name))
    (ss : List Stmt) :
    Leads (mergeVars p ds ss) s := by
  unfold mergeVars
  split
  · refine ⟨_, _, _, rfl, ?_⟩
    rw [List.map_append]
    exact List.mem_append_right _ hs
  · exact ⟨_, _, _, rfl, hs⟩

/-- What may be added to a function: it refers to its own name where it pushes its frame. -/
def Job.Adds (J : Job) (name : Option SymbolId) (o : Occurrence) : Prop :=
  J.Inserted o ∨ ∃ s, name = some s ∧ o = ⟨⟨J.func, J.scope⟩, .reference s⟩

theorem makes_framedBody {J : Job} (f : Func) (hscope : J.stands J.scope)
    (ho : J.Opens (f.body.occurrences ⟨J.func, J.scope⟩)) (d : Draft) :
    J.Makes d (f.framedBody J.vars J.wrap) fun ss => J.done.pending ≠ [] ∧
      Grown (J.Adds f.name) (f.body.occurrences ⟨J.func, J.scope⟩)
        (stmtsOccurrences ss ⟨J.func, J.scope⟩) := by
  obtain ⟨name, ps, ⟨body, q⟩, sc, p⟩ := f
  have hpush (d : Draft) : J.Makes d (push J.vars name p) fun s => J.done.pending ≠ [] ∧
      ∀ o ∈ s.occurrences ⟨J.func, J.scope⟩, J.Adds name o := by
    refine Job.Makes.frameIndex.bind fun index _ => .pure fun hindex =>
      ⟨List.ne_nil_of_mem hindex, fun o h => ?_⟩
    rw [occurrences_pushCode] at h
    rcases List.mem_append.1 h with h | h
    · refine .inl (inserted_references hscope (fun s hs => ?_) o h)
      simp only [List.mem_cons, List.not_mem_nil, or_false] at hs
      rcases hs with rfl | rfl | rfl
      · exact .inl (.inl rfl)
      · exact .inr hindex
      · exact .inl (.inr (.inl rfl))
    · obtain ⟨s, hs, rfl⟩ := List.mem_map.1 h
      exact .inr ⟨s, Option.mem_toList.1 hs, rfl⟩
  refine (hpush d).bind fun entry d₁ =>
    (stmts_makes body {} J.scope d₁ hscope ho).bind fun ss d₂ => ?_
  have hgrown (hentry : ∀ o ∈ entry.occurrences ⟨J.func, J.scope⟩, J.Adds name o)
      (hss : Grown J.Inserted (stmtsOccurrences body ⟨J.func, J.scope⟩)
        (stmtsOccurrences ss ⟨J.func, J.scope⟩)) :
      Grown (J.Adds name) (stmtsOccurrences body ⟨J.func, J.scope⟩)
        (stmtsOccurrences (afterVars entry ss) ⟨J.func, J.scope⟩) :=
    ((hss.mono fun _ => .inl).trans (.before hentry _)).trans (.of_perm (perm_afterVars entry ss _))
  dsimp only
  split
  · exact .pure fun hss ⟨hne, hentry⟩ => ⟨hne, hgrown hentry hss⟩
  · refine (makes_pop hscope p).bind fun pop _ => .pure fun hpop hss ⟨hne, hentry⟩ => ⟨hne, ?_⟩
    rw [stmtsOccurrences_append]
    refine (hgrown hentry hss).trans (.behind (fun o h => .inl (hpop o ?_)) _)
    simpa [stmtsOccurrences, Stmt.ofExpr, Stmt.occurrences] using h

/-- What a function becomes when it gets a frame with these variables. -/
structure Func.Allotted (v : StackVars) (wrap : SymbolId) (t : ScopeTable) (l : Locals)
    (f f' : Func) : Prop where
  tidy : l.Tidy t f.scope
  name : f'.name = f.name
  params : f'.params = f.params
  scope : f'.scope = f.scope
  leads : ∀ s ∈ l.pending, Leads f'.body.stmts s
  grown : ∀ (i : Option Func) (S : ScopeId → Prop), S f.scope →
    Job.Opens ⟨v, wrap, t, f.scope, l, i, S⟩ (f.body.occurrences ⟨i, f.scope⟩) →
      ∃ new, (f'.body.occurrences ⟨i, f.scope⟩).Perm (f.body.occurrences ⟨i, f.scope⟩ ++
        (new ++ l.pending.map fun s => ⟨⟨i, f.scope⟩, .declarator s⟩)) ∧
          ∀ o ∈ new, Job.Adds ⟨v, wrap, t, f.scope, l, i, S⟩ f.name o

theorem Func.allotted_framed (f : Func) {v : StackVars} (wrap : SymbolId)
    {recorder : Option Recorder} {t : ScopeTable} (ht : t.Consistent)
    (hscope : f.scope.index < t.scopes.size)
    (hrecorder : ∀ r, recorder = some r → v.location = some r.location) :
    ∃ l : Locals, l.table = (f.framed v wrap recorder t).2.2 ∧
      f.Allotted v wrap t l (f.framed v wrap recorder t).1 := by
  rcases hrun : (f.framedBody v wrap).run { locals := { table := t, scope := f.scope }, recorder }
    with ⟨ss, d⟩
  have hmakes (i : Option Func) (S : ScopeId → Prop) (hS : S f.scope)
      (ho : Job.Opens ⟨v, wrap, t, f.scope, d.locals, i, S⟩ (f.body.occurrences ⟨i, f.scope⟩)) :=
    makes_framedBody (J := ⟨v, wrap, t, f.scope, d.locals, i, S⟩) f hS ho
      { locals := { table := t, scope := f.scope }, recorder } ⟨.start ht hscope, hrecorder⟩
  simp only [hrun] at hmakes
  obtain ⟨htidy, -, hss⟩ := hmakes none (fun _ => True) trivial fun _ _ _ _ _ => trivial
  have hne : d.locals.pending ≠ [] := (hss (.refl _)).1
  have hframed : (f.framed v wrap recorder t).1 = { f with body := { f.body with
        stmts := mergeVars f.pos (d.locals.pending.map fun s => ⟨s, none, f.pos⟩) ss } } ∧
      (f.framed v wrap recorder t).2.2 = d.locals.table := by
    unfold Func.framed
    rw [hrun]
    simp only [Locals.flush, List.isEmpty_iff, hne, if_false, and_self]
  rw [hframed.1, hframed.2]
  refine ⟨d.locals, rfl, htidy.locals, rfl, rfl, rfl, fun s hs => leads_mergeVars _
    (by simpa using hs) _, fun i S hS ho => ?_⟩
  obtain ⟨new, hperm, hnew⟩ := ((hmakes i S hS ho).2.2 (.refl _)).2
  refine ⟨new, ?_, hnew⟩
  rw [← List.append_assoc, ← declsOccurrences_bare _ f.pos]
  exact (perm_mergeVars _ _ _ _).trans (hperm.append_right _)

end

end FrameLedger
