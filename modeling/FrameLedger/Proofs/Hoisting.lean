import FrameLedger.Proofs.Framing
import FrameLedger.Tree.Declared

/-!
# What framed code declares

Framing code changes none of the names it declares (`stmtsDeclared_framed`), and the functions among
its statements are those it had, each framed (`declarations_framed`). The body of a function that
keeps a frame starts with the variables of the frame and the push (`assembled_eq`).
-/

namespace FrameLedger

theorem stmtsDeclared_append (b a : List Stmt) :
    stmtsDeclared (a ++ b) = stmtsDeclared a ++ stmtsDeclared b := by
  induction a with
  | nil => rfl
  | cons s a ih => simp [stmtsDeclared, ih]

theorem declared_oneStmt (p : Position) (ss : List Stmt) :
    (oneStmt p ss).declared = stmtsDeclared ss := by
  match ss with
  | [] => rfl
  | [s] => simp [oneStmt, stmtsDeclared]
  | s :: t :: rest => rfl

section

variable {K : Site}

theorem declsFramed_names : ∀ {ds ds' : List VarDecl}, declsFramed K ds ds' →
    ds'.map (·.name) = ds.map (·.name) ∧ ∀ t ∈ ds.map (·.name), K.Writes t
  | [], _, rfl => ⟨rfl, by simp⟩
  | ⟨s, e, p⟩ :: ds, _, ⟨hs, e', rest, _, hds, rfl⟩ => by
    obtain ⟨heq, hlt⟩ := declsFramed_names hds
    refine ⟨by simp [heq], ?_⟩
    simpa [hs] using hlt

theorem reset_declared {r : Place} {s : Stmt} {framed : List Stmt → Prop} {ss : List Stmt}
    {names : List SymbolId} (h : K.Reset r s framed ss)
    (hf : ∀ ss, framed ss → stmtsDeclared ss = names) :
    stmtsDeclared ss = names := by
  unfold Site.Reset at h
  split at h
  · exact hf ss h
  · split at h
    · obtain ⟨ss₁, h₁, rfl⟩ := h
      simp [stmtsDeclared_append, hf ss₁ h₁, resetCode, Stmt.ofExpr, stmtsDeclared, Stmt.declared]
    · exact hf ss h

theorem body_declared {r : Place} {s s' : Stmt} {framed : List Stmt → Prop} {names : List SymbolId}
    (h : K.Body r s framed s') (hf : ∀ ss, framed ss → stmtsDeclared ss = names) :
    s'.declared = names := by
  obtain ⟨ss, hss, rfl⟩ := h
  rw [declared_oneStmt]
  exact reset_declared hss hf

mutual

theorem Stmt.declared_framed : ∀ (s : Stmt) (r : Place) (ss : List Stmt), s.Framed K r ss →
    stmtsDeclared ss = s.declared
  | .expr p e, r, _, ⟨e', _, rfl⟩ => rfl
  | .vars p ds, r, _, ⟨ds', hds, rfl⟩ => by
    simp [stmtsDeclared, Stmt.declared, (declsFramed_names hds).1]
  | .ret p e, r, ss, ⟨e', _, hret⟩ => by
    unfold Site.Returned at hret
    split at hret
    · subst hret
      rfl
    · split at hret
      · rcases hret with ⟨_, _, _, _, rfl⟩ | ⟨_, rfl⟩ <;> rfl
      · exact hret.elim
      · rcases hret with ⟨_, ⟨_, _, rfl⟩ | ⟨_, rfl⟩⟩ <;> rfl
  | .raise p e, r, _, ⟨e', _, rfl⟩ => rfl
  | .branch p t yes no, r, _, ⟨t', yes', no', _, hyes, hno, rfl⟩ => by
    simp [stmtsDeclared, Stmt.declared, body_declared hyes (yes.declared_framed r),
      stmtDeclared?_framed no r no' hno]
  | .whileLoop p t b, r, _, ⟨t', b', _, hb, rfl⟩ => by
    simp [stmtsDeclared, Stmt.declared, body_declared hb (b.declared_framed r)]
  | .doWhile p b t, r, _, ⟨b', t', hb, _, rfl⟩ => by
    simp [stmtsDeclared, Stmt.declared, body_declared hb (b.declared_framed r)]
  | .forLoop p init t incr b, r, _, ⟨init', t', incr', b', hinit, _, _, hb, rfl⟩ => by
    match init, init', hinit with
    | none, _, rfl => simp [stmtsDeclared, Stmt.declared, body_declared hb (b.declared_framed r)]
    | some (.vars ds), _, ⟨ds', hds, rfl⟩ =>
      simp [stmtsDeclared, Stmt.declared, body_declared hb (b.declared_framed r),
        (declsFramed_names hds).1]
    | some (.expr e), _, ⟨e', _, rfl⟩ =>
      simp [stmtsDeclared, Stmt.declared, body_declared hb (b.declared_framed r)]
  | .forIn p k d o b, r, _, ⟨_, o', b', _, hb, rfl⟩ => by
    simp [stmtsDeclared, Stmt.declared, body_declared hb (b.declared_framed r)]
  | .block p ⟨ss, q⟩, r, _, ⟨ss', hss, rfl⟩ => by
    simp [stmtsDeclared, Stmt.declared, stmtsDeclared_framed ss r ss' hss]
  | .tryBlock p ⟨ss, q⟩ cs none, r, _, ⟨_, ss', cs', hss, hcs, rfl⟩ => by
    simp [stmtsDeclared, Stmt.declared, stmtsDeclared_framed ss r ss' hss,
      catchesDeclared_framed cs r cs' hcs, blockDeclared?]
  | .tryBlock p ⟨ss, q⟩ cs (some ⟨fs, fq⟩), r, _, ⟨_, ss', cs', fs', f', hfs, rfl, htry⟩ => by
    have hparts : stmtsDeclared ss' = stmtsDeclared ss ∧ catchesDeclared cs' = catchesDeclared cs ∧
        stmtsDeclared f'.stmts = stmtsDeclared fs' := by
      split at htry
      · obtain ⟨flag, hss, hguarded, hcs⟩ := htry
        refine ⟨stmtsDeclared_framed ss _ ss' hss, ?_, ?_⟩
        · cases cs with
          | nil =>
            obtain ⟨e, sc, _, _, _, rfl⟩ := hcs
            rfl
          | cons cl cs => exact catchesDeclared_framed (cl :: cs) _ cs' hcs
        · unfold Site.Guarded at hguarded
          split at hguarded
          · obtain ⟨-, hb⟩ := hguarded
            split at hb <;> subst hb
            · rfl
            · simp [stmtsDeclared_append, stmtsDeclared, Stmt.ofExpr, Stmt.declared]
          · rw [hguarded]
      · obtain ⟨hss, hcs, rfl⟩ := htry
        exact ⟨stmtsDeclared_framed ss r ss' hss, catchesDeclared_framed cs r cs' hcs, rfl⟩
    obtain ⟨fs₁, fq₁⟩ := f'
    obtain ⟨h₁, h₂, h₃⟩ := hparts
    simp only [stmtsDeclared, Stmt.declared, h₁, h₂, blockDeclared?, List.append_nil]
    rw [show stmtsDeclared fs₁ = stmtsDeclared fs' from h₃, stmtsDeclared_framed fs r fs' hfs]
  | .labeled p l b, r, _, ⟨b', hb, rfl⟩ => by
    simp [stmtsDeclared, Stmt.declared, body_declared hb (b.declared_framed r)]
  | .breakTo p l, r, _, rfl => rfl
  | .continueTo p l, r, _, rfl => rfl
  | .switch p d cs, r, _, ⟨d', cs', _, hcs, rfl⟩ => by
    simp [stmtsDeclared, Stmt.declared, casesDeclared_framed cs r cs' hcs]
  | .empty p, r, _, rfl => rfl

theorem stmtsDeclared_framed : ∀ (ss : List Stmt) (r : Place) (ss' : List Stmt),
    stmtsFramedAs K ss r ss' → stmtsDeclared ss' = stmtsDeclared ss
  | [], r, _, rfl => rfl
  | s :: ss, r, _, ⟨first, rest, hfirst, hrest, rfl⟩ => by
    rw [stmtsDeclared_append, reset_declared hfirst (s.declared_framed r),
      stmtsDeclared_framed ss r rest hrest]
    rfl

theorem stmtDeclared?_framed : ∀ (s : Option Stmt) (r : Place) (s' : Option Stmt),
    stmtFramedAs? K s r s' → stmtDeclared? s' = stmtDeclared? s
  | none, _, _, rfl => rfl
  | some s, r, _, ⟨_, hs, rfl⟩ => body_declared hs (s.declared_framed r)

theorem catchesDeclared_framed : ∀ (cs : List Catch) (r : Place) (cs' : List Catch),
    catchesFramedAs K cs r cs' → catchesDeclared cs' = catchesDeclared cs
  | [], r, _, rfl => rfl
  | ⟨s, sc, ⟨ss, q⟩, p⟩ :: cs, r, _, ⟨_, ss', rest, hss, hcs, rfl⟩ => by
    simp [catchesDeclared, stmtsDeclared_framed ss _ ss' hss, catchesDeclared_framed cs r rest hcs]

theorem casesDeclared_framed : ∀ (cs : List SwitchCase) (r : Place) (cs' : List SwitchCase),
    casesFramedAs K cs r cs' → casesDeclared cs' = casesDeclared cs
  | [], r, _, rfl => rfl
  | ⟨t, ss⟩ :: cs, r, _, ⟨t', ss', rest, _, hss, hcs, rfl⟩ => by
    simp [casesDeclared, stmtsDeclared_framed ss r ss' hss, casesDeclared_framed cs r rest hcs]

end

/-! ## Names are the program's own -/

theorem Site.Reset.exists_framed {r : Place} {s : Stmt} {framed : List Stmt → Prop} {ss : List Stmt}
    (h : K.Reset r s framed ss) : ∃ ss, framed ss := by
  unfold Site.Reset at h
  split at h
  · exact ⟨ss, h⟩
  · split at h
    · obtain ⟨ss₁, h₁, -⟩ := h
      exact ⟨ss₁, h₁⟩
    · exact ⟨ss, h⟩

theorem Site.Body.exists_framed {r : Place} {s s' : Stmt} {framed : List Stmt → Prop}
    (h : K.Body r s framed s') : ∃ ss, framed ss :=
  let ⟨_, h, _⟩ := h
  h.exists_framed

mutual

theorem Stmt.declared_writes : ∀ (s : Stmt) (r : Place), (∃ ss, s.Framed K r ss) →
    ∀ t ∈ s.declared, K.Writes t
  | .expr .., _, _ => by simp [Stmt.declared]
  | .vars p ds, _, ⟨_, ds', hds, _⟩ => (declsFramed_names hds).2
  | .ret .., _, _ => by simp [Stmt.declared]
  | .raise .., _, _ => by simp [Stmt.declared]
  | .branch p t yes no, r, ⟨_, _, _, no', _, hyes, hno, _⟩ =>
    List.forall_mem_append.2
      ⟨yes.declared_writes r hyes.exists_framed, stmtDeclared?_writes no r ⟨no', hno⟩⟩
  | .whileLoop p t b, r, ⟨_, _, _, _, hb, _⟩ => b.declared_writes r hb.exists_framed
  | .doWhile p b t, r, ⟨_, _, _, hb, _, _⟩ => b.declared_writes r hb.exists_framed
  | .forLoop p init t incr b, r, ⟨_, init', _, _, _, hinit, _, _, hb, _⟩ => by
    match init, init', hinit with
    | none, _, rfl => exact b.declared_writes r hb.exists_framed
    | some (.vars ds), _, ⟨ds', hds, rfl⟩ =>
      exact List.forall_mem_append.2
        ⟨(declsFramed_names hds).2, b.declared_writes r hb.exists_framed⟩
    | some (.expr e), _, ⟨e', _, rfl⟩ => exact b.declared_writes r hb.exists_framed
  | .forIn p k d o b, r, ⟨_, hk, _, _, _, hb, _⟩ => by
    refine List.forall_mem_append.2 ⟨?_, b.declared_writes r hb.exists_framed⟩
    split <;> simp [hk]
  | .block p ⟨ss, q⟩, r, ⟨_, ss', hss, _⟩ => stmtsDeclared_writes ss r ⟨ss', hss⟩
  | .tryBlock p ⟨ss, q⟩ cs none, r, ⟨_, _, ss', cs', hss, hcs, _⟩ =>
    List.forall_mem_append.2 ⟨stmtsDeclared_writes ss r ⟨ss', hss⟩,
      List.forall_mem_append.2 ⟨catchesDeclared_writes cs r ⟨cs', hcs⟩, by simp [blockDeclared?]⟩⟩
  | .tryBlock p ⟨ss, q⟩ cs (some ⟨fs, fq⟩), r, ⟨_, _, ss', cs', fs', f', hfs, _, htry⟩ => by
    have hparts : (∀ t ∈ stmtsDeclared ss, K.Writes t) ∧ ∀ t ∈ catchesDeclared cs, K.Writes t := by
      split at htry
      · obtain ⟨flag, hss, _, hcs⟩ := htry
        refine ⟨stmtsDeclared_writes ss _ ⟨ss', hss⟩, ?_⟩
        cases cs with
        | nil => simp [catchesDeclared]
        | cons cl cs => exact catchesDeclared_writes (cl :: cs) _ ⟨cs', hcs⟩
      · obtain ⟨hss, hcs, _⟩ := htry
        exact ⟨stmtsDeclared_writes ss r ⟨ss', hss⟩, catchesDeclared_writes cs r ⟨cs', hcs⟩⟩
    exact List.forall_mem_append.2 ⟨hparts.1,
      List.forall_mem_append.2 ⟨hparts.2, stmtsDeclared_writes fs r ⟨fs', hfs⟩⟩⟩
  | .labeled p l b, r, ⟨_, _, hb, _⟩ => b.declared_writes r hb.exists_framed
  | .breakTo .., _, _ => by simp [Stmt.declared]
  | .continueTo .., _, _ => by simp [Stmt.declared]
  | .switch p d cs, r, ⟨_, _, cs', _, hcs, _⟩ => casesDeclared_writes cs r ⟨cs', hcs⟩
  | .empty .., _, _ => by simp [Stmt.declared]

theorem stmtsDeclared_writes : ∀ (ss : List Stmt) (r : Place), (∃ ss', stmtsFramedAs K ss r ss') →
    ∀ t ∈ stmtsDeclared ss, K.Writes t
  | [], _, _ => by simp [stmtsDeclared]
  | s :: ss, r, ⟨_, _, rest, hs, hrest, _⟩ =>
    List.forall_mem_append.2
      ⟨s.declared_writes r hs.exists_framed, stmtsDeclared_writes ss r ⟨rest, hrest⟩⟩

theorem stmtDeclared?_writes : ∀ (s : Option Stmt) (r : Place), (∃ s', stmtFramedAs? K s r s') →
    ∀ t ∈ stmtDeclared? s, K.Writes t
  | none, _, _ => by simp [stmtDeclared?]
  | some s, r, ⟨_, _, hs, _⟩ => s.declared_writes r hs.exists_framed

theorem catchesDeclared_writes :
    ∀ (cs : List Catch) (r : Place), (∃ cs', catchesFramedAs K cs r cs') →
    ∀ t ∈ catchesDeclared cs, K.Writes t
  | [], _, _ => by simp [catchesDeclared]
  | ⟨s, sc, ⟨ss, q⟩, p⟩ :: cs, r, ⟨_, _, ss', rest, hss, hcs, _⟩ =>
    List.forall_mem_append.2
      ⟨stmtsDeclared_writes ss _ ⟨ss', hss⟩, catchesDeclared_writes cs r ⟨rest, hcs⟩⟩

theorem casesDeclared_writes :
    ∀ (cs : List SwitchCase) (r : Place), (∃ cs', casesFramedAs K cs r cs') →
    ∀ t ∈ casesDeclared cs, K.Writes t
  | [], _, _ => by simp [casesDeclared]
  | ⟨t, ss⟩ :: cs, r, ⟨_, _, ss', rest, _, hss, hcs, _⟩ =>
    List.forall_mem_append.2
      ⟨stmtsDeclared_writes ss r ⟨ss', hss⟩, casesDeclared_writes cs r ⟨rest, hcs⟩⟩

end

/-! ## Functions among the statements -/

/-- What a function that is declared became. -/
def DeclaredAs (L : Layout) (d d' : SymbolId × Func) : Prop :=
  d'.1 = d.1 ∧ L.pairs d.2 d'.2 ∧ d'.2.name = some d'.1 ∧ L.Writes d'.1

theorem Expr.Framed.declaration? {p : Position} {e e' : Expr} (he : e.Framed K e') :
    (∃ q f f', e = .func q f ∧ e' = .func q f' ∧ K.pairs f f' ∧ ∀ s, f.name = some s → K.Writes s) ∨
      (Stmt.expr p e).declaration? = none ∧ (Stmt.expr p e').declaration? = none := by
  cases e with
  | func q f =>
    obtain ⟨hs, f', hf, rfl⟩ := he
    exact .inl ⟨q, f, f', rfl, rfl, hf, hs⟩
  | _ =>
    refine .inr ⟨rfl, ?_⟩
    cases e' with
    | func q f' => simp [Expr.Framed] at he
    | _ => rfl

theorem declaration_framed (hname : ∀ f f', K.pairs f f' → f'.name = f.name) {s : Stmt} {r : Place}
    {ss : List Stmt} (h : s.Framed K r ss) : List.Forall₂ (DeclaredAs K.toLayout)
      ([s].filterMap Stmt.declaration?) (ss.filterMap Stmt.declaration?) := by
  have hnone {s : Stmt} (hs : s.declaration? = none) : [s].filterMap Stmt.declaration? = [] := by
    simp [hs]
  cases s with
  | expr p e =>
    obtain ⟨e', he, rfl⟩ := h
    rcases he with he | ⟨own, r, e₁, _, _, he, hd, rfl⟩
    · rcases he.declaration? (p := p) with ⟨q, f, f', rfl, rfl, hf, hw⟩ | ⟨h₁, h₂⟩
      · have hn := hname f f' hf
        rcases hs : f.name with _ | s
        · simp [Stmt.declaration?, hs, hn]
        · simp [Stmt.declaration?, hs, hn, DeclaredAs, hf, hw s hs]
      · rw [hnone h₁, hnone h₂]
        exact .nil
    · rcases he.declaration? (p := p) with ⟨q, f, f', rfl, rfl, hf, _⟩ | ⟨h₁, _⟩
      · rw [hnone (by simpa [Stmt.declaration?, Expr.isDeclaration, hname f f' hf] using hd)]
        exact .nil
      · rw [hnone h₁]
        exact .nil
  | ret p e =>
    obtain ⟨e', _, hret⟩ := h
    unfold Site.Returned at hret
    split at hret
    · subst hret
      exact .nil
    · split at hret
      · rcases hret with ⟨_, _, _, _, rfl⟩ | ⟨_, rfl⟩ <;> exact .nil
      · exact hret.elim
      · rcases hret with ⟨_, ⟨_, _, rfl⟩ | ⟨_, rfl⟩⟩ <;> exact .nil
  | tryBlock p b cs f =>
    obtain ⟨bs, q⟩ := b
    rcases f with _ | ⟨fs, fq⟩
    · obtain ⟨_, _, _, _, _, rfl⟩ := h
      exact .nil
    · obtain ⟨_, _, _, _, _, _, rfl, _⟩ := h
      exact .nil
  | block p b =>
    obtain ⟨bs, q⟩ := b
    obtain ⟨_, _, rfl⟩ := h
    exact .nil
  | _ =>
    simp only [Stmt.Framed] at h
    have hss : ss.filterMap Stmt.declaration? = [] := by grind [Stmt.declaration?]
    rw [hss]
    exact .nil

/-- The functions a body declares are those it had, each framed. -/
theorem declarations_framed (hname : ∀ f f', K.pairs f f' → f'.name = f.name) :
    ∀ (ss : List Stmt) (r : Place) (ss' : List Stmt), stmtsFramedAs K ss r ss' →
      List.Forall₂ (DeclaredAs K.toLayout) (ss.filterMap Stmt.declaration?)
        (ss'.filterMap Stmt.declaration?)
  | [], _, _, rfl => .nil
  | s :: ss, r, _, ⟨first, rest, hfirst, hrest, rfl⟩ => by
    have hchunk : List.Forall₂ (DeclaredAs K.toLayout) ([s].filterMap Stmt.declaration?)
        (first.filterMap Stmt.declaration?) := by
      unfold Site.Reset at hfirst
      split at hfirst
      · exact declaration_framed hname hfirst
      · split at hfirst
        · obtain ⟨ss₁, h₁, rfl⟩ := hfirst
          rw [List.filterMap_append]
          exact (List.append_nil _).symm ▸ declaration_framed hname h₁
        · exact declaration_framed hname hfirst
    rw [← List.singleton_append, List.filterMap_append, List.filterMap_append]
    exact List.rel_append hchunk (declarations_framed hname ss r rest hrest)

/-! ## The body of a function that keeps a frame -/

theorem not_isVars_of_framed {s : Stmt} {r : Place} {ss : List Stmt} (h : s.Framed K r ss)
    (hs : s.isVars = false) : ss ≠ [] ∧ ∀ x ∈ ss, x.isVars = false := by
  cases s with
  | vars p ds => exact absurd hs (by simp [Stmt.isVars])
  | ret p e =>
    obtain ⟨e', _, hret⟩ := h
    unfold Site.Returned at hret
    split at hret
    · subst hret
      simp [Stmt.isVars]
    · split at hret
      · rcases hret with ⟨_, _, _, _, rfl⟩ | ⟨_, rfl⟩ <;> simp [Stmt.isVars, Stmt.ofExpr]
      · exact hret.elim
      · rcases hret with ⟨_, ⟨_, _, rfl⟩ | ⟨_, rfl⟩⟩ <;> simp [Stmt.isVars, Stmt.ofExpr]
  | tryBlock p b cs f =>
    obtain ⟨bs, q⟩ := b
    rcases f with _ | ⟨fs, fq⟩
    · obtain ⟨_, _, _, _, _, rfl⟩ := h
      simp [Stmt.isVars]
    · obtain ⟨_, _, _, _, _, _, rfl, _⟩ := h
      simp [Stmt.isVars]
  | block p b =>
    obtain ⟨bs, q⟩ := b
    obtain ⟨_, _, rfl⟩ := h
    simp [Stmt.isVars]
  | _ =>
    simp only [Stmt.Framed] at h
    grind [Stmt.isVars]

theorem not_isVars_of_reset {s : Stmt} {r : Place} {ss : List Stmt}
    (h : K.Reset r s (s.Framed K r) ss) (hs : s.isVars = false) :
    ss ≠ [] ∧ ∀ x ∈ ss, x.isVars = false := by
  unfold Site.Reset at h
  split at h
  · exact not_isVars_of_framed h hs
  · split at h
    · obtain ⟨ss₁, h₁, rfl⟩ := h
      exact ⟨by simp, List.forall_mem_append.2
        ⟨(not_isVars_of_framed h₁ hs).2, by simp [resetCode, Stmt.ofExpr, Stmt.isVars]⟩⟩
    · exact not_isVars_of_framed h hs

theorem afterVars_of_not_isVars {entry : Stmt} {ss : List Stmt}
    (h : ∀ x, ss.head? = some x → x.isVars = false) :
    afterVars entry ss = entry :: ss := by
  cases ss with
  | nil => rfl
  | cons s ss => simp [afterVars, h s rfl]

/-- The declarators of a leading `var` statement come first, then the variables of the frame, the
push and the other statements. -/
theorem assembled_eq (v : StackVars) (f : Func) (index : SymbolId) (declared : List SymbolId)
    {r : Place} {ss ss' : List Stmt} (hss : stmtsFramedAs K ss r ss') :
    ∃ q ds ds' tail rest,
      (ss = .vars q ds :: tail ∨ ds = [] ∧ ss = tail) ∧ declsFramed K ds ds' ∧
        stmtsFramedAs K tail r rest ∧
      assembled v f index declared ss' =
        .vars q (ds' ++ declared.map fun s => ⟨s, none, f.pos⟩) :: pushCode v index f.name f.pos ::
          (rest ++ if Block.endsWithExit ⟨rest, f.body.pos⟩ then []
            else [.ofExpr (popCode v index f.pos)]) := by
  have hexit (x : Stmt) (hx : x.isExit = false) (rest : List Stmt) :
      Block.endsWithExit ⟨x :: rest, f.body.pos⟩ = Block.endsWithExit ⟨rest, f.body.pos⟩ := by
    cases rest with
    | nil => simp [Block.endsWithExit, hx]
    | cons y ys => simp [Block.endsWithExit]
  by_cases hvars : ∃ q ds tail, ss = .vars q ds :: tail
  · obtain ⟨q, ds, tail, rfl⟩ := hvars
    obtain ⟨first, rest, hfirst, hrest, rfl⟩ := hss
    have hfirst : (Stmt.vars q ds).Framed K r first := by
      unfold Site.Reset at hfirst
      split at hfirst
      · exact hfirst
      · simpa [Stmt.assignsWrapped] using hfirst
    obtain ⟨ds', hds, rfl⟩ := hfirst
    refine ⟨q, ds, ds', tail, rest, .inl rfl, hds, hrest, ?_⟩
    simp only [assembled, List.singleton_append, afterVars, Stmt.isVars, if_true,
      hexit (.vars q ds') rfl, hexit (pushCode v index f.name f.pos) rfl]
    split <;> simp [mergeVars]
  · have hhead (x : Stmt) (hx : ss'.head? = some x) : x.isVars = false := by
      cases ss with
      | nil =>
        obtain rfl := hss
        simp at hx
      | cons s ss =>
        obtain ⟨first, rest, hfirst, _, rfl⟩ := hss
        have hs : s.isVars = false := by
          cases s with
          | vars q ds => exact absurd ⟨q, ds, ss, rfl⟩ hvars
          | _ => rfl
        obtain ⟨hne, hall⟩ := not_isVars_of_reset hfirst hs
        obtain ⟨y, ys, rfl⟩ := List.exists_cons_of_ne_nil hne
        obtain rfl : y = x := by simpa using hx
        exact hall y List.mem_cons_self
    refine ⟨f.pos, [], [], ss, ss', .inr ⟨rfl, rfl⟩, rfl, hss, ?_⟩
    simp only [assembled, afterVars_of_not_isVars hhead, hexit (pushCode v index f.name f.pos) rfl]
    split <;> simp [mergeVars, pushCode, Stmt.ofExpr]

end

end FrameLedger
