import FrameLedger.Proofs.Recovered

/-!
# What framed code refers to

Framed code refers to what the code it was made from refers to, to functions by their names and,
where a frame is kept, to the symbols the frame takes (`Continues.vars`). A loop over keys keeps its
variable, whatever that is (`Continues.loops`). The induction is on the program's code, functions
included (`Func.continues`).
-/

namespace FrameLedger

/-- The variable of a loop over keys, and whether the loop declares it. -/
def Node.loop? : Node → Option (SymbolId × Bool)
  | .stmt (.forIn _ k declared _ _) => some (k, declared)
  | _ => none

/-- What the nodes `b` have to do with the nodes `a` that they were made from, if symbols in `Q` may
be added. -/
structure Continues (Q : SymbolId → Prop) (a b : List Node) : Prop where
  vars : ∀ s ∈ b.filterMap Node.var?, s ∈ a.filterMap Node.var? ∨
    (∃ f, .func f ∈ a ∧ f.name = some s) ∨ Q s
  loops : b.filterMap Node.loop? = a.filterMap Node.loop?

/-- Nodes that may be added. -/
def Addable (Q : SymbolId → Prop) (c : List Node) : Prop :=
  ∀ n ∈ c, n.loop? = none ∧ ∀ s, n.var? = some s → Q s

section Lists

variable {Q : SymbolId → Prop} {a a' b b' c : List Node} {n n' : Node}

theorem Addable.append {c' : List Node} (h : Addable Q c) (h' : Addable Q c') :
    Addable Q (c ++ c') :=
  List.forall_mem_append.2 ⟨h, h'⟩

theorem Addable.nil : Addable Q [] := fun _ h => by cases h

theorem Addable.cons (hloop : n.loop? = none) (hvar : ∀ s, n.var? = some s → Q s)
    (h : Addable Q c) :
    Addable Q (n :: c) :=
  List.forall_mem_cons.2 ⟨⟨hloop, hvar⟩, h⟩

/-- A node that names no variable. -/
theorem Addable.other (hloop : n.loop? = none) (hvar : n.var? = none) (h : Addable Q c) :
    Addable Q (n :: c) :=
  h.cons hloop fun s hs => by rw [hvar] at hs; cases hs

theorem Addable.var {s : SymbolId} (hs : Q s) (p : Position) : Addable Q (Expr.var p s).nodes :=
  .cons rfl (fun _ ht => Option.some.inj ht ▸ hs) .nil

namespace Continues

theorem nil : Continues Q [] [] := ⟨(fun _ h => by cases h), rfl⟩

theorem append (h : Continues Q a b) (h' : Continues Q a' b') :
    Continues Q (a ++ a') (b ++ b') where
  vars s hs := by
    rw [List.filterMap_append, List.mem_append] at hs ⊢
    rcases hs with hs | hs
    · exact (h.vars s hs).imp .inl
        (.imp_left fun ⟨f, hf, hname⟩ => ⟨f, List.mem_append_left _ hf, hname⟩)
    · exact (h'.vars s hs).imp .inr
        (.imp_left fun ⟨f, hf, hname⟩ => ⟨f, List.mem_append_right _ hf, hname⟩)
  loops := by rw [List.filterMap_append, List.filterMap_append, h.loops, h'.loops]

/-- One node became one node. -/
theorem single (hvar : n'.var? = n.var?) (hloop : n'.loop? = n.loop?) : Continues Q [n] [n'] where
  vars s hs := .inl (by simpa only [List.filterMap_cons, List.filterMap_nil, hvar] using hs)
  loops := by simp only [List.filterMap_cons, List.filterMap_nil, hloop]

theorem cons (hvar : n'.var? = n.var?) (hloop : n'.loop? = n.loop?) (h : Continues Q a b) :
    Continues Q (n :: a) (n' :: b) :=
  append (single hvar hloop) h

theorem added (h : Addable Q c) : Continues Q [] c where
  vars s hs := by
    obtain ⟨n, hn, hs⟩ := List.mem_filterMap.1 hs
    exact .inr (.inr ((h n hn).2 s hs))
  loops := List.filterMap_eq_nil_iff.2 fun n hn => (h n hn).1

theorem behind (hc : Addable Q c) (h : Continues Q a b) : Continues Q a (c ++ b) :=
  append (added hc) h

theorem before (hc : Addable Q c) (h : Continues Q a b) : Continues Q a (b ++ c) :=
  a.append_nil ▸ append h (added hc)

/-- Something that stands for one node may be put anywhere. -/
theorem insert (hloop : n.loop? = none) (hc : Continues Q [n] c) (h : Continues Q a (b ++ b')) :
    Continues Q (n :: a) (b ++ (c ++ b')) where
  vars s hs := by
    have hall : s ∈ (c ++ (b ++ b')).filterMap Node.var? := by
      simp only [List.filterMap_append, List.mem_append] at hs ⊢
      tauto
    exact (hc.append h).vars s hall
  loops := by
    have hnone := hc.loops
    have hall := h.loops
    rw [List.filterMap_cons_none hloop] at hnone ⊢
    rw [List.filterMap_append] at hall
    rw [List.filterMap_append, List.filterMap_append, hnone, ← hall]
    rfl

theorem congr (hvar : b'.filterMap Node.var? = b.filterMap Node.var?)
    (hloop : b'.filterMap Node.loop? = b.filterMap Node.loop?) (h : Continues Q a b) :
    Continues Q a b' :=
  ⟨hvar ▸ h.vars, hloop.trans h.loops⟩

/-- A node that went names no variable of a loop. -/
theorem gone (hloop : n.loop? = none) (h : Continues Q a b) : Continues Q (n :: a) b where
  vars s hs := by
    refine (h.vars s hs).imp (fun hs => ?_)
      (.imp_left fun ⟨f, hf, hname⟩ => ⟨f, List.mem_cons_of_mem _ hf, hname⟩)
    obtain ⟨m, hm, hs⟩ := List.mem_filterMap.1 hs
    exact List.mem_filterMap.2 ⟨m, List.mem_cons_of_mem _ hm, hs⟩
  loops := by rw [h.loops, List.filterMap_cons_none hloop]

end Continues

theorem stmtsNodes_append (ts ss : List Stmt) :
    stmtsNodes (ss ++ ts) = stmtsNodes ss ++ stmtsNodes ts := by
  induction ss with
  | nil => rfl
  | cons s ss ih => rw [List.cons_append, stmtsNodes, stmtsNodes, ih, List.append_assoc]

theorem declsNodes_append (es ds : List VarDecl) :
    declsNodes (ds ++ es) = declsNodes ds ++ declsNodes es := by
  induction ds with
  | nil => rfl
  | cons d ds ih =>
    obtain ⟨s, e, p⟩ := d
    rw [List.cons_append, declsNodes, declsNodes, ih, List.append_assoc]

theorem declsNodes_declared (p : Position) :
    ∀ ss : List SymbolId, declsNodes (ss.map (VarDecl.mk · none p)) = []
  | [] => rfl
  | _ :: ss => declsNodes_declared p ss

/-- The entry code stands somewhere. -/
theorem afterVars_eq (entry : Stmt) (ss : List Stmt) :
    ∃ front back, ss = front ++ back ∧ afterVars entry ss = front ++ entry :: back := by
  rcases ss with _ | ⟨s, ss⟩
  · exact ⟨[], [], rfl, rfl⟩
  · rw [afterVars]
    split
    · exact ⟨[s], ss, rfl, rfl⟩
    · exact ⟨[], s :: ss, rfl, rfl⟩

/-- Declarators without initial values add nothing but a `var` statement. -/
theorem filterMap_mergeVars {β : Type} {g : Node → Option β}
    (hg : ∀ q ds, g (.stmt (.vars q ds)) = none) (p : Position) (declared : List SymbolId)
    (ss : List Stmt) :
    (stmtsNodes (mergeVars p (declared.map (VarDecl.mk · none p)) ss)).filterMap g =
      (stmtsNodes ss).filterMap g := by
  obtain ⟨q, es, rest, hmerged, rfl | ⟨rfl, rfl, -⟩⟩ :=
    Program.mergeVars_cases p (declared.map (VarDecl.mk · none p)) ss
  · rw [hmerged]
    simp only [stmtsNodes, Stmt.nodes, declsNodes_append, declsNodes_declared, List.append_nil,
      List.cons_append, List.filterMap_cons_none (hg _ _)]
  · rw [hmerged]
    simp only [stmtsNodes, Stmt.nodes, List.nil_append, declsNodes_declared, List.cons_append,
      List.filterMap_cons_none (hg _ _)]

end Lists

/-! ## Frame code -/

/-- The symbols that the code of a site may add are in `Q`. -/
structure Layout.Grants (L : Layout) (own : Option Own) (Q : SymbolId → Prop) : Prop where
  vars : ∀ s, L.vars.Uses s → Q s
  wrap : Q L.wrap
  fresh : ∀ s : SymbolId, L.base ≤ s.index → Q s
  own : ∀ o s, own = some o → o.Uses s → Q s

/-- The symbols of a frame are new. -/
theorem Layout.Grants.of_apart {L : Layout} {Q : SymbolId → Prop} (hQ : L.Grants none Q) {o : Own}
    {declared : List SymbolId} (ho : o.Apart L.vars L.base declared) : L.Grants (some o) Q :=
  { hQ with own := fun _ s h hs => hQ.fresh s (ho.fresh s (ho.mem s (Option.some.inj h ▸ hs))).1 }

section FrameCode

variable {L : Layout} {own : Option Own} {Q : SymbolId → Prop} {o : Own} (hQ : L.Grants (some o) Q)
  (p : Position)
include hQ

theorem Layout.Grants.depth : Q L.vars.depth := hQ.vars _ (.inr (.inl rfl))

theorem Layout.Grants.index : Q o.index := hQ.own o _ rfl (.inl rfl)

theorem addable_pop : Addable Q (popCode L.vars o.index p).nodes :=
  .other rfl rfl ((Addable.var hQ.depth p).append
    (.other rfl rfl ((Addable.var hQ.index p).append (.other rfl rfl .nil))))

theorem addable_popStmt : Addable Q (Stmt.ofExpr (popCode L.vars o.index p)).nodes :=
  .other rfl rfl (addable_pop hQ p)

theorem addable_reset : Addable Q (resetCode L.vars o.index p).nodes :=
  .other rfl rfl (.other rfl rfl ((Addable.var hQ.depth p).append (.var hQ.index p)))

omit hQ in
theorem addable_set {flag : SymbolId} (hflag : Q flag) :
    Addable Q (Expr.assign p (.var p flag) (.bool p true)).nodes :=
  .other rfl rfl ((Addable.var hflag p).append (.other rfl rfl .nil))

theorem addable_rethrow {e : SymbolId} (he : Q e) (sc : ScopeId) :
    Addable Q (catchesNodes [rethrowCode L.vars L.wrap o.index e sc p]) := by
  have hwrapped : Addable Q
      (Stmt.ofExpr (.assign p (.var p e) (.call p (.var p L.wrap) [.var p e]))).nodes :=
    .other rfl rfl (.other rfl rfl ((Addable.var he p).append
      (.other rfl rfl ((Addable.var hQ.wrap p).append ((Addable.var he p).append .nil)))))
  exact .append (.other rfl rfl (hwrapped.append ((addable_reset hQ p).append
    (.append (.other rfl rfl (.var he p)) .nil)))) .nil

/-- The push refers to the function by its name. -/
theorem continues_push (f : Func) :
    Continues Q [.func f] (pushCode L.vars o.index f.name p).nodes := by
  have hslot : Addable Q (Expr.index p (.var p L.vars.stack)
      (.assign p (.var p o.index) (.prefixed p .inc (.var p L.vars.depth)))).nodes :=
    .other rfl rfl ((Addable.var (hQ.vars _ (.inl rfl)) p).append
      (.other rfl rfl ((Addable.var hQ.index p).append (.other rfl rfl (.var hQ.depth p)))))
  have hname : Continues Q [.func f] (f.name.elim (Expr.null p) (.var p)).nodes := by
    cases hf : f.name with
    | none => exact .gone rfl (.added (.other rfl rfl .nil))
    | some s =>
      exact ⟨fun t ht => .inr
        (.inl ⟨f, List.mem_singleton_self _, by
          simpa [hf, Node.var?, Expr.symbol?, Expr.nodes, eq_comm] using ht⟩), rfl⟩
  exact .behind (.other (c := []) rfl rfl .nil)
    (.behind (.other (c := []) rfl rfl .nil) (.behind hslot hname))

end FrameCode

section Continued

variable {L : Layout} {own : Option Own} {Q : SymbolId → Prop}

theorem Site.Noted.continues (hQ : L.Grants own Q) {e e' : Expr}
    (h : Site.Noted ⟨L, own⟩ (e.Framed ⟨L, own⟩) e')
    (hframed : ∀ {e'}, e.Framed ⟨L, own⟩ e' → Continues Q e.nodes e'.nodes) :
    Continues Q e.nodes e'.nodes := by
  rcases h with h | ⟨o, r, e', ho, hlocation, h, -, rfl⟩
  · exact hframed h
  · have hnote : Addable Q (r.note e'.pos).nodes := by
      unfold Recorder.note
      split
      · exact .other rfl rfl (.append (.other rfl rfl .nil) (.other rfl rfl .nil))
      · exact .other rfl rfl .nil
    refine .behind (c := _ :: (Expr.assign _ _ _).nodes) ?_ (hframed h)
    exact .other rfl rfl
      (.other rfl rfl
      (.append (.other rfl rfl ((Addable.var (hQ.vars _ (.inr (.inr hlocation))) _).append
      (.var (hQ.own o _ ho (.inl rfl)) _))) hnote))

theorem Continues.returned (hQ : L.Grants own Q) {r : Place} {p : Position} {e e' : Option Expr}
    {ss : List Stmt} (he : Continues Q (exprNodes? e) (exprNodes? e'))
    (h : Site.Returned ⟨L, own⟩ r p e' ss) :
    Continues Q (Stmt.ret p e).nodes (stmtsNodes ss) := by
  rcases own with _ | o
  · obtain rfl := h
    exact .cons rfl rfl (.before .nil he)
  · rcases hexit : r.exit with _ | _ | flag <;> simp only [Site.Returned, hexit] at h
    · rcases h with ⟨e₁, temp, rfl, htemp, rfl⟩ | ⟨-, rfl⟩
      · have hvar := hQ.own o temp rfl (.inr (.inl htemp))
        refine .gone rfl (.behind (c := [_, _, _]) ?_ (.before ?_ he))
        · exact .other rfl rfl (.other rfl rfl (.var hvar p))
        · exact (addable_popStmt hQ p).append (.append (.other rfl rfl (.var hvar p)) .nil)
      · exact .behind (addable_popStmt hQ p) (.cons rfl rfl (.before .nil he))
    · obtain ⟨hflag, ⟨e₁, rfl, rfl⟩ | ⟨rfl, rfl⟩⟩ := h
      · have hset := addable_set p (hQ.own o flag rfl (.inr (.inr hflag)))
        exact .cons rfl rfl
          (.behind (c := [_]) (.other rfl rfl .nil) (.behind hset (.before .nil he)))
      · have hset := addable_set p (hQ.own o flag rfl (.inr (.inr hflag)))
        exact .behind (c := _ :: _) (.other rfl rfl hset) (.cons rfl rfl he)

theorem Site.Reset.continues (hQ : L.Grants own Q) {r : Place} {s : Stmt} {ss : List Stmt}
    (h : Site.Reset ⟨L, own⟩ r s (s.Framed ⟨L, own⟩ r) ss)
    (hframed : ∀ {ss}, s.Framed ⟨L, own⟩ r ss → Continues Q s.nodes (stmtsNodes ss)) :
    Continues Q s.nodes (stmtsNodes ss) := by
  rcases own with _ | o
  · exact hframed h
  · simp only [Site.Reset] at h
    split at h
    · obtain ⟨ss₁, h, rfl⟩ := h
      rw [stmtsNodes_append]
      exact .before ((addable_reset hQ s.pos).append .nil) (hframed h)
    · exact hframed h

/-- A statement of which only one fits becomes a block, or stays the one. -/
theorem Site.Body.continues (hQ : L.Grants own Q) {r : Place} {s s' : Stmt}
    (h : Site.Body ⟨L, own⟩ r s (s.Framed ⟨L, own⟩ r) s')
    (hframed : ∀ {ss}, s.Framed ⟨L, own⟩ r ss → Continues Q s.nodes (stmtsNodes ss)) :
    Continues Q s.nodes s'.nodes := by
  obtain ⟨ss, h, rfl⟩ := h
  replace h := h.continues hQ hframed
  rcases ss with _ | ⟨x, _ | ⟨y, ys⟩⟩
  · exact .behind (c := [_, _]) (.other rfl rfl (.other rfl rfl .nil)) h
  · rwa [stmtsNodes, stmtsNodes, List.append_nil] at h
  · exact .behind (c := [_, _]) (.other rfl rfl (.other rfl rfl .nil)) h

theorem Site.Guarded.continues {o : Own} (hQ : L.Grants (some o) Q) {flag : Option SymbolId}
    {fs fs' : List Stmt} {fq : Position} {f' : Block}
    (hfs : Continues Q (stmtsNodes fs) (stmtsNodes fs'))
    (h : Site.Guarded ⟨L, some o⟩ flag ⟨fs', fq⟩ f') :
    Continues Q (Block.nodes ⟨fs, fq⟩) f'.nodes := by
  rcases flag with _ | flag
  · obtain rfl := h
    exact .cons rfl rfl hfs
  · obtain ⟨hflag, h⟩ := h
    split at h
    · obtain rfl := h
      exact .cons rfl rfl hfs
    · obtain rfl := h
      refine .cons rfl rfl ?_
      rw [stmtsNodes_append]
      refine .before
        (.append (.other rfl rfl (.other rfl rfl (.append ?_ (addable_pop hQ fq)))) .nil) hfs
      exact .var (hQ.own o flag rfl (.inr (.inr hflag))) fq

/-- The variables of a frame are declared in front, and the frame is pushed once and popped. -/
theorem continues_assembled {o : Own} (hQ : L.Grants (some o) Q) {f : Func}
    {declared : List SymbolId} {a : List Node} {ss' : List Stmt}
    (h : Continues Q a (stmtsNodes ss')) :
    Continues Q (.func f :: a) (stmtsNodes (assembled L.vars f o.index declared ss')) := by
  obtain ⟨tail, htail, hassembled⟩ : ∃ tail, Addable Q (stmtsNodes tail) ∧
      assembled L.vars f o.index declared ss' =
        mergeVars f.pos (declared.map (VarDecl.mk · none f.pos))
        (afterVars (pushCode L.vars o.index f.name f.pos) ss' ++ tail) := by
    unfold assembled
    dsimp only
    split
    · exact ⟨[], .nil, by rw [List.append_nil]⟩
    · exact ⟨[_], (addable_popStmt hQ f.pos).append .nil, rfl⟩
  obtain ⟨front, back, rfl, hafter⟩ := afterVars_eq (pushCode L.vars o.index f.name f.pos) ss'
  rw [hassembled, hafter]
  refine .congr (filterMap_mergeVars (fun _ _ => rfl) ..)
    (filterMap_mergeVars (fun _ _ => rfl) ..) ?_
  rw [stmtsNodes_append] at h
  rw [stmtsNodes_append, stmtsNodes_append]
  exact .before htail (.insert rfl (continues_push hQ f.pos f) h)

variable {p : Program}

mutual

theorem Expr.continues (hL : L.Rewrites p) (hQ : L.Grants none Q) :
    ∀ (e : Expr) {own : Option Own} {e' : Expr}, L.Grants own Q → e.Framed ⟨L, own⟩ e' →
    Continues Q e.nodes e'.nodes
  | .var p s, _, _, _, ⟨_, rfl⟩ => .single rfl rfl
  | .bare p n, _, _, _, rfl => .single rfl rfl
  | .member p q n, _, _, hG, ⟨_, q', hq, rfl⟩ =>
    .cons rfl rfl (hq.continues hG (q.continues hL hQ hG))
  | .index p a i, _, _, hG, ⟨a', i', ha, hi, rfl⟩ =>
    .cons rfl rfl
      ((ha.continues hG (a.continues hL hQ hG)).append (hi.continues hG (i.continues hL hQ hG)))
  | .call p f as, _, _, hG, ⟨f', as', hf, has, rfl⟩ =>
    .cons rfl rfl ((f.continues hL hQ hG hf).append (exprs_continue hL hQ as hG has))
  | .new p f as, _, _, hG, ⟨f', as', hf, has, rfl⟩ =>
    .cons rfl rfl ((hf.continues hG (f.continues hL hQ hG)).append (exprs_continue hL hQ as hG has))
  | .prefixed p op x, _, _, hG, ⟨_, x', hx, rfl⟩ => by
    refine .cons rfl rfl ?_
    split at hx
    · exact hx.continues hG (x.continues hL hQ hG)
    · exact x.continues hL hQ hG hx
  | .postfixed p op x, _, _, hG, ⟨_, x', hx, rfl⟩ => .cons rfl rfl (x.continues hL hQ hG hx)
  | .binary q op l r, _, _, hG, ⟨_, l', r', hl, hr, rfl⟩ => by
    refine .cons rfl rfl (.append ?_ (hr.continues hG (r.continues hL hQ hG)))
    split at hl
    · exact l.continues hL hQ hG hl
    · exact hl.continues hG (l.continues hL hQ hG)
  | .cond p c t f, _, _, hG, ⟨c', t', f', hc, ht, hf, rfl⟩ =>
    .cons rfl rfl ((hc.continues hG (c.continues hL hQ hG)).append
      ((ht.continues hG (t.continues hL hQ hG)).append (hf.continues hG (f.continues hL hQ hG))))
  | .literal p l, _, _, _, rfl => .single rfl rfl
  | .array p es, _, _, hG, ⟨es', hes, rfl⟩ => .cons rfl rfl (exprs_continue hL hQ es hG hes)
  | .object p ps, _, _, hG, ⟨ps', hps, rfl⟩ => .cons rfl rfl (properties_continue hL hQ ps hG hps)
  | .func q f, _, _, _, ⟨_, f', hf, rfl⟩ => .cons rfl rfl (f.continues hL hQ hf)
termination_by structural e => e

theorem exprs_continue (hL : L.Rewrites p) (hQ : L.Grants none Q) :
    ∀ (es : List Expr) {own : Option Own} {es' : List Expr}, L.Grants own Q →
    exprsFramed ⟨L, own⟩ es es' → Continues Q (exprsNodes es) (exprsNodes es')
  | [], _, _, _, rfl => .nil
  | e :: es, _, _, hG, ⟨e', rest, he, hes, rfl⟩ =>
    (he.continues hG (e.continues hL hQ hG)).append (exprs_continue hL hQ es hG hes)
termination_by structural es => es

theorem properties_continue (hL : L.Rewrites p) (hQ : L.Grants none Q) :
    ∀ (ps : List Property) {own : Option Own} {ps' : List Property}, L.Grants own Q →
    propertiesFramed ⟨L, own⟩ ps ps' → Continues Q (propertiesNodes ps) (propertiesNodes ps')
  | [], _, _, _, rfl => .nil
  | ⟨k, e⟩ :: ps, _, _, hG, ⟨e', rest, he, hps, rfl⟩ =>
    (he.continues hG (e.continues hL hQ hG)).append (properties_continue hL hQ ps hG hps)
termination_by structural ps => ps

theorem expr?_continues (hL : L.Rewrites p) (hQ : L.Grants none Q) :
    ∀ (e : Option Expr) {own : Option Own} {e' : Option Expr}, L.Grants own Q →
    exprFramed? ⟨L, own⟩ e e' → Continues Q (exprNodes? e) (exprNodes? e')
  | none, _, _, _, rfl => .nil
  | some e, _, _, hG, ⟨e', he, rfl⟩ => he.continues hG (e.continues hL hQ hG)
termination_by structural e => e

theorem decls_continue (hL : L.Rewrites p) (hQ : L.Grants none Q) :
    ∀ (ds : List VarDecl) {own : Option Own} {ds' : List VarDecl}, L.Grants own Q →
    declsFramed ⟨L, own⟩ ds ds' → Continues Q (declsNodes ds) (declsNodes ds')
  | [], _, _, _, rfl => .nil
  | ⟨s, e, q⟩ :: ds, _, _, hG, ⟨_, e', rest, he, hds, rfl⟩ =>
    (expr?_continues hL hQ e hG he).append (decls_continue hL hQ ds hG hds)
termination_by structural ds => ds

theorem forInit_continues (hL : L.Rewrites p) (hQ : L.Grants none Q) :
    ∀ (i : Option ForInit) {own : Option Own} {i' : Option ForInit}, L.Grants own Q →
    forInitFramed ⟨L, own⟩ i i' → Continues Q (forInitNodes i) (forInitNodes i')
  | none, _, _, _, rfl => .nil
  | some (.vars ds), _, _, hG, ⟨ds', hds, rfl⟩ => decls_continue hL hQ ds hG hds
  | some (.expr e), _, _, hG, ⟨e', he, rfl⟩ => he.continues hG (e.continues hL hQ hG)
termination_by structural i => i

theorem Stmt.continues (hL : L.Rewrites p) (hQ : L.Grants none Q) :
    ∀ (s : Stmt) {own : Option Own} {r : Place} {ss' : List Stmt}, L.Grants own Q →
    s.Framed ⟨L, own⟩ r ss' → Continues Q s.nodes (stmtsNodes ss')
  | .expr q e, _, _, _, hG, ⟨e', he, rfl⟩ =>
    .cons rfl rfl (.before .nil (he.continues hG (e.continues hL hQ hG)))
  | .vars q ds, _, _, _, hG, ⟨ds', hds, rfl⟩ =>
    .cons rfl rfl (.before .nil (decls_continue hL hQ ds hG hds))
  | .ret q e, _, _, _, hG, ⟨e', he, h⟩ => .returned hG (expr?_continues hL hQ e hG he) h
  | .raise q e, _, _, _, hG, ⟨e', he, rfl⟩ =>
    .cons rfl rfl (.before .nil (he.continues hG (e.continues hL hQ hG)))
  | .branch q t yes no, _, _, _, hG, ⟨t', yes', no', ht, hyes, hno, rfl⟩ =>
    .cons rfl rfl (.before .nil ((ht.continues hG (t.continues hL hQ hG)).append
      ((hyes.continues hG (yes.continues hL hQ hG)).append (stmt?_continues hL hQ no hG hno))))
  | .whileLoop q t b, _, _, _, hG, ⟨t', b', ht, hb, rfl⟩ =>
    .cons rfl rfl
      (.before .nil
      ((ht.continues hG (t.continues hL hQ hG)).append (hb.continues hG (b.continues hL hQ hG))))
  | .doWhile q b t, _, _, _, hG, ⟨b', t', hb, ht, rfl⟩ =>
    .cons rfl rfl
      (.before .nil
      ((hb.continues hG (b.continues hL hQ hG)).append (ht.continues hG (t.continues hL hQ hG))))
  | .forLoop q i t n b, _, _, _, hG, ⟨i', t', n', b', hi, ht, hn, hb, rfl⟩ =>
    .cons rfl rfl
      (.before .nil
      ((forInit_continues hL hQ i hG hi).append ((expr?_continues hL hQ t hG ht).append
      ((expr?_continues hL hQ n hG hn).append (hb.continues hG (b.continues hL hQ hG))))))
  | .forIn q k declared o b, _, _, _, hG, ⟨_, o', b', ho, hb, rfl⟩ =>
    .cons rfl rfl
      (.before .nil
      ((ho.continues hG (o.continues hL hQ hG)).append (hb.continues hG (b.continues hL hQ hG))))
  | .block q ⟨ss, bq⟩, _, _, _, hG, ⟨ss', hss, rfl⟩ =>
    .cons rfl rfl (.before .nil (.cons rfl rfl (stmts_continue hL hQ ss hG hss)))
  | .tryBlock q ⟨ss, bq⟩ cs none, _, _, _, hG, ⟨_, ss', cs', hss, hcs, rfl⟩ =>
    .cons rfl rfl (.before .nil (.append (.cons rfl rfl (stmts_continue hL hQ ss hG hss))
      (.append (catches_continue hL hQ cs hG hcs) .nil)))
  | .tryBlock q ⟨ss, bq⟩ cs (some ⟨fs, fq⟩), own, r, _, hG,
      ⟨_, ss', cs', fs', f', hfs, rfl, h⟩ => by
    suffices hparts : Continues Q (stmtsNodes ss) (stmtsNodes ss') ∧
        Continues Q (catchesNodes cs) (catchesNodes cs') ∧
        Continues Q (Block.nodes ⟨fs, fq⟩) f'.nodes from
      .cons rfl rfl (.before .nil (.append (.cons rfl rfl hparts.1) (hparts.2.1.append hparts.2.2)))
    have hlast := stmts_continue hL hQ fs hG hfs
    rcases own with _ | o
    · obtain ⟨hss, hcs, rfl⟩ := h
      exact ⟨stmts_continue hL hQ ss hG hss, catches_continue hL hQ cs hG hcs, .cons rfl rfl hlast⟩
    · rcases hexit : r.exit with _ | flag <;> simp only [hexit] at h
      · obtain ⟨flag, hss, hf, hcs⟩ := h
        refine ⟨stmts_continue hL hQ ss hG hss, ?_, hf.continues hG hlast⟩
        cases cs with
        | nil =>
          obtain ⟨e, sc, he, -, -, rfl⟩ := hcs
          exact .added (addable_rethrow hG q (hG.fresh e he) sc)
        | cons c cs => exact catches_continue hL hQ (c :: cs) hG hcs
      · obtain ⟨hss, hcs, rfl⟩ := h
        exact ⟨stmts_continue hL hQ ss hG hss, catches_continue hL hQ cs hG hcs,
          .cons rfl rfl hlast⟩
  | .labeled q l b, _, _, _, hG, ⟨b', hb, rfl⟩ =>
    .cons rfl rfl (.before .nil (hb.continues hG (b.continues hL hQ hG)))
  | .breakTo q l, _, _, _, _, rfl => .single rfl rfl
  | .continueTo q l, _, _, _, _, rfl => .single rfl rfl
  | .switch q d cs, _, _, _, hG, ⟨d', cs', hd, hcs, rfl⟩ =>
    .cons rfl rfl
      (.before .nil
      ((hd.continues hG (d.continues hL hQ hG)).append (cases_continue hL hQ cs hG hcs)))
  | .empty q, _, _, _, _, rfl => .single rfl rfl
termination_by structural s => s

theorem stmts_continue (hL : L.Rewrites p) (hQ : L.Grants none Q) :
    ∀ (ss : List Stmt) {own : Option Own} {r : Place} {ss' : List Stmt}, L.Grants own Q →
    stmtsFramedAs ⟨L, own⟩ ss r ss' → Continues Q (stmtsNodes ss) (stmtsNodes ss')
  | [], _, _, _, _, rfl => .nil
  | s :: ss, _, _, _, hG, ⟨first, rest, hfirst, hrest, rfl⟩ => by
    rw [stmtsNodes_append]
    exact (hfirst.continues hG (s.continues hL hQ hG)).append (stmts_continue hL hQ ss hG hrest)
termination_by structural ss => ss

theorem stmt?_continues (hL : L.Rewrites p) (hQ : L.Grants none Q) :
    ∀ (s : Option Stmt) {own : Option Own} {r : Place} {s' : Option Stmt}, L.Grants own Q →
    stmtFramedAs? ⟨L, own⟩ s r s' → Continues Q (stmtNodes? s) (stmtNodes? s')
  | none, _, _, _, _, rfl => .nil
  | some s, _, _, _, hG, ⟨s', hs, rfl⟩ => hs.continues hG (s.continues hL hQ hG)
termination_by structural s => s

theorem catches_continue (hL : L.Rewrites p) (hQ : L.Grants none Q) :
    ∀ (cs : List Catch) {own : Option Own} {r : Place} {cs' : List Catch}, L.Grants own Q →
    catchesFramedAs ⟨L, own⟩ cs r cs' → Continues Q (catchesNodes cs) (catchesNodes cs')
  | [], _, _, _, _, rfl => .nil
  | ⟨s, sc, ⟨ss, q⟩, pos⟩ :: cs, _, _, _, hG, ⟨_, ss', rest, hss, hcs, rfl⟩ =>
    .append (.cons rfl rfl (stmts_continue hL hQ ss hG hss)) (catches_continue hL hQ cs hG hcs)
termination_by structural cs => cs

theorem cases_continue (hL : L.Rewrites p) (hQ : L.Grants none Q) :
    ∀ (cs : List SwitchCase) {own : Option Own} {r : Place} {cs' : List SwitchCase},
    L.Grants own Q → casesFramedAs ⟨L, own⟩ cs r cs' → Continues Q (casesNodes cs) (casesNodes cs')
  | [], _, _, _, _, rfl => .nil
  | ⟨t, ss⟩ :: cs, _, _, _, hG, ⟨t', ss', rest, ht, hss, hcs, rfl⟩ =>
    (expr?_continues hL hQ t hG ht).append
      ((stmts_continue hL hQ ss hG hss).append (cases_continue hL hQ cs hG hcs))
termination_by structural cs => cs

theorem Func.continues (hL : L.Rewrites p) (hQ : L.Grants none Q) :
    ∀ (f : Func) {f' : Func}, L.pairs f f' → Continues Q f.nodes f'.nodes
  | ⟨n, ps, ⟨ss, q⟩, sc, pos⟩, ⟨_, _, ⟨ss', _⟩, _, _⟩, h => by
    rcases (hL _ _ h).body with ⟨-, hplain⟩ | ⟨-, own, declared, ss₁, hown, hframed, hss'⟩
    · exact .cons rfl rfl (.cons rfl rfl (stmts_continue hL hQ ss hQ hplain))
    · have hG := hQ.of_apart hown
      obtain rfl : ss' = _ := hss'
      exact .behind (c := [_, _]) (.other rfl rfl (.other rfl rfl .nil))
        (continues_assembled hG (.gone rfl (stmts_continue hL hQ ss hG hframed)))
termination_by structural f => f

end

end Continued

end FrameLedger
