import FrameLedger.Proofs.Drafting

/-!
# What becomes of a function

A function is worked on once the functions inside it are done. Its body then differs from the
program's in nothing but these, so it stands to it as code without a frame does. `gives_stmts`: what
is made of the body stands to the program's as code with a frame. `Func.framedAs_framed` says so of
the whole function.
-/

namespace FrameLedger

open Draft

/-- The same layout where other `try` statements may stand. -/
def Layout.allowing (L : Layout) (T : Option Own → List Catch → Option Block → Prop) : Layout :=
  { L with tries := T }

/-! ## Code whose functions alone have changed -/

section Plain

variable {L : Layout} {K : Site} {T : Option Own → List Catch → Option Block → Prop}

theorem Site.Noted.plain {framed : Expr → Prop} {e' : Expr} (h : Site.Noted ⟨L, none⟩ framed e') :
    framed e' := by
  rcases h with h | ⟨_, _, _, ho, _⟩
  · exact h
  · nomatch ho

/-- Wrapping an exception is still recognised. -/
theorem Expr.Framed.assignsWrapped {p : Position} {e e' : Expr} (h : e.Framed ⟨L, none⟩ e')
    (w : SymbolId) :
    (Stmt.expr p e').assignsWrapped w = (Stmt.expr p e).assignsWrapped w := by
  cases e with
  | binary q op l r =>
    obtain ⟨-, l', r', -, hr, rfl⟩ := h
    replace hr := hr.plain
    cases op with
    | assign =>
      cases r with
      | call q' f as =>
        obtain ⟨f', as', hf, -, rfl⟩ := hr
        simp only [Stmt.assignsWrapped, hf.symbol?_eq]
      | _ =>
        cases r' with
        | call => simp [Expr.Framed] at hr
        | _ => rfl
    | _ => rfl
  | _ =>
    cases e' with
    | binary => simp [Expr.Framed] at h
    | _ => rfl

/-- A statement becomes one statement. -/
theorem Stmt.Framed.plain {s : Stmt} {r : Place} {ss : List Stmt} (h : s.Framed ⟨L, none⟩ r ss) :
    ∃ s', ss = [s'] ∧ s'.pos = s.pos ∧ ∀ w, s'.assignsWrapped w = s.assignsWrapped w := by
  cases s with
  | expr p e =>
    obtain ⟨e', he, rfl⟩ := h
    exact ⟨_, rfl, rfl, fun w => he.plain.assignsWrapped w⟩
  | ret p e =>
    obtain ⟨e', -, rfl⟩ := h
    exact ⟨_, rfl, rfl, fun _ => rfl⟩
  | block p b =>
    obtain ⟨bs, q⟩ := b
    obtain ⟨_, -, rfl⟩ := h
    exact ⟨_, rfl, rfl, fun _ => rfl⟩
  | tryBlock p b cs f =>
    obtain ⟨bs, q⟩ := b
    rcases f with _ | ⟨fs, fq⟩
    · obtain ⟨-, _, _, -, -, rfl⟩ := h
      exact ⟨_, rfl, rfl, fun _ => rfl⟩
    · obtain ⟨-, _, _, _, _, -, rfl, -⟩ := h
      exact ⟨_, rfl, rfl, fun _ => rfl⟩
  | _ =>
    simp only [Stmt.Framed] at h
    grind [Stmt.assignsWrapped, Stmt.pos]

theorem Site.Body.plain {s s' : Stmt} {r : Place}
    (h : Site.Body ⟨L, none⟩ r s (s.Framed ⟨L, none⟩ r) s') :
    s.Framed ⟨L, none⟩ r [s'] := by
  obtain ⟨ss, hss, rfl⟩ := h
  obtain ⟨s', rfl, -⟩ := Stmt.Framed.plain hss
  exact hss

mutual

/-- An expression in which no location is noted stands for the same one where some might be. -/
theorem exprFramed_of_plain : ∀ (e : Expr) {e' : Expr}, e.Framed ⟨K.toLayout.allowing T, none⟩ e' →
    e.Framed K e'
  | .var _ _, _, h => h
  | .bare _ _, _, h => h
  | .member _ q _, _, ⟨hn, q', hq, h⟩ => ⟨hn, q', .inl (exprFramed_of_plain q hq.plain), h⟩
  | .index _ a i, _, ⟨a', i', ha, hi, h⟩ =>
    ⟨a', i', .inl (exprFramed_of_plain a ha.plain), .inl (exprFramed_of_plain i hi.plain), h⟩
  | .call _ f as, _, ⟨f', as', hf, has, h⟩ =>
    ⟨f', as', exprFramed_of_plain f hf, exprsFramed_of_plain as has, h⟩
  | .new _ f as, _, ⟨f', as', hf, has, h⟩ =>
    ⟨f', as', .inl (exprFramed_of_plain f hf.plain), exprsFramed_of_plain as has, h⟩
  | .prefixed _ op x, _, ⟨ht, x', hx, h⟩ => by
    refine ⟨ht, x', ?_, h⟩
    split at hx
    · next hu =>
      rw [if_pos hu]
      exact .inl (exprFramed_of_plain x hx.plain)
    · next hu =>
      rw [if_neg hu]
      exact exprFramed_of_plain x hx
  | .postfixed _ _ x, _, ⟨ht, x', hx, h⟩ => ⟨ht, x', exprFramed_of_plain x hx, h⟩
  | .binary _ op l r, _, ⟨ht, l', r', hl, hr, h⟩ => by
    refine ⟨ht, l', r', ?_, .inl (exprFramed_of_plain r hr.plain), h⟩
    split at hl
    · next ha =>
      rw [if_pos ha]
      exact exprFramed_of_plain l hl
    · next ha =>
      rw [if_neg ha]
      exact .inl (exprFramed_of_plain l hl.plain)
  | .cond _ c t f, _, ⟨c', t', f', hc, ht, hf, h⟩ =>
    ⟨c', t', f', .inl (exprFramed_of_plain c hc.plain), .inl (exprFramed_of_plain t ht.plain),
      .inl (exprFramed_of_plain f hf.plain), h⟩
  | .literal _ _, _, h => h
  | .array _ es, _, ⟨es', hes, h⟩ => ⟨es', exprsFramed_of_plain es hes, h⟩
  | .object _ ps, _, ⟨ps', hps, h⟩ => ⟨ps', propertiesFramed_of_plain ps hps, h⟩
  | .func _ _, _, h => h

theorem exprsFramed_of_plain : ∀ (es : List Expr) {es' : List Expr},
    exprsFramed ⟨K.toLayout.allowing T, none⟩ es es' → exprsFramed K es es'
  | [], _, h => h
  | e :: es, _, ⟨e', rest, he, hes, h⟩ =>
    ⟨e', rest, .inl (exprFramed_of_plain e he.plain), exprsFramed_of_plain es hes, h⟩

theorem propertiesFramed_of_plain : ∀ (ps : List Property) {ps' : List Property},
    propertiesFramed ⟨K.toLayout.allowing T, none⟩ ps ps' → propertiesFramed K ps ps'
  | [], _, h => h
  | ⟨_, e⟩ :: ps, _, ⟨e', rest, he, hps, h⟩ =>
    ⟨e', rest, .inl (exprFramed_of_plain e he.plain), propertiesFramed_of_plain ps hps, h⟩

end

end Plain

/-! ## Expressions -/

section Expressions

variable {L : Layout} {T : Option Own → List Catch → Option Block → Prop} {lo : Nat} {d : Draft}

mutual

theorem gives_located : ∀ (e : Expr) {e₁ : Expr} (u : Usage) {d : Draft},
    e.Framed ⟨L.allowing T, none⟩ e₁ →
    d.Sound L.vars lo → d.Gives L.vars lo (e₁.located u) fun _ D e' =>
      Site.Used ⟨L, some D.own⟩ u (e.Framed ⟨L, some D.own⟩) e'
  | .var p s, _, u, d, ⟨hs, rfl⟩, hd => by
    rw [Expr.located]
    exact (gives_record hd L rfl u rfl).mono fun _ D e' _ _ _ h => h _ ⟨hs, rfl⟩
  | .bare p n, _, u, d, rfl, hd => by
    rw [Expr.located]
    exact (gives_record hd L rfl u rfl).mono fun _ D e' _ _ _ h => h _ rfl
  | .member p q n, _, u, d, ⟨hn, q₁, hq, rfl⟩, hd => by
    rw [Expr.located]
    refine (gives_located q .value hq.plain hd).bind fun q' d₁ hd₁ => ?_
    exact (gives_record hd₁ L rfl u rfl).mono fun _ D e' _ _ _ h _ hq' => h _ ⟨hn, q', hq', rfl⟩
  | .index p a i, _, u, d, ⟨a₁, i₁, ha, hi, rfl⟩, hd => by
    rw [Expr.located]
    refine (gives_located a .value ha.plain hd).bind fun a' d₁ hd₁ =>
      (gives_located i .value hi.plain hd₁).bind fun i' d₂ hd₂ => ?_
    exact (gives_record hd₂ L rfl u rfl).mono fun _ D e' _ _ _ h _ hi' _ ha' =>
      h _ ⟨a', i', ha', hi', rfl⟩
  | .call p f as, _, u, d, ⟨f₁, as₁, hf, has, rfl⟩, hd => by
    rw [Expr.located]
    refine (gives_located f .reference hf hd).bind fun f' d₁ hd₁ =>
      (gives_exprsLocated as has hd₁).bind fun as' d₂ hd₂ => ?_
    exact (gives_record hd₂ L rfl u rfl).mono fun _ D e' _ _ _ h _ has' _ hf' =>
      h _ ⟨f', as', hf', has', rfl⟩
  | .new p f as, _, u, d, ⟨f₁, as₁, hf, has, rfl⟩, hd => by
    rw [Expr.located]
    refine (gives_located f .value hf.plain hd).bind fun f' d₁ hd₁ =>
      (gives_exprsLocated as has hd₁).bind fun as' d₂ hd₂ => ?_
    exact (gives_record hd₂ L rfl u rfl).mono fun _ D e' _ _ _ h _ has' _ hf' =>
      h _ ⟨f', as', hf', has', rfl⟩
  | .prefixed p op x, _, u, d, ⟨ht, x₁, hx, rfl⟩, hd => by
    have hx : x.Framed ⟨L.allowing T, none⟩ x₁ := by
      split at hx
      · exact hx.plain
      · exact hx
    rw [Expr.located]
    refine (gives_located x op.usage hx hd).bind fun x' d₁ hd₁ => ?_
    refine (gives_record hd₁ L rfl u rfl).mono fun _ D e' _ _ _ h _ hx' => h _ ⟨ht, x', ?_, rfl⟩
    generalize op.usage = w at hx'
    cases w with
    | value => exact hx'
    | target | reference => exact hx'
  | .postfixed p op x, _, u, d, ⟨ht, x₁, hx, rfl⟩, hd => by
    rw [Expr.located]
    refine (gives_located x .target hx hd).bind fun x' d₁ hd₁ => ?_
    exact (gives_record hd₁ L rfl u rfl).mono fun _ D e' _ _ _ h _ hx' => h _ ⟨ht, x', hx', rfl⟩
  | .binary p op l r, _, u, d, ⟨ht, l₁, r₁, hl, hr, rfl⟩, hd => by
    have hl : l.Framed ⟨L.allowing T, none⟩ l₁ := by
      split at hl
      · exact hl
      · exact hl.plain
    rw [Expr.located]
    cases ha : op.isAssignment with
    | true =>
      refine (gives_located l .target hl hd).bind fun l' d₁ hd₁ =>
        (gives_located r .value hr.plain hd₁).bind fun r' d₂ hd₂ => ?_
      refine (gives_record hd₂ L rfl u rfl).mono fun _ D e' _ _ _ h _ hr' _ hl' =>
        h _ ⟨ht, l', r', ?_, hr', rfl⟩
      rwa [if_pos ha]
    | false =>
      refine (gives_located l .value hl hd).bind fun l' d₁ hd₁ =>
        (gives_located r .value hr.plain hd₁).bind fun r' d₂ hd₂ => ?_
      refine .pure hd₂ fun D _ _ _ hr' _ hl' => .of_framed u ⟨ht, l', r', ?_, hr', rfl⟩
      rwa [if_neg (by simp [ha])]
  | .cond p c t f, _, u, d, ⟨c₁, t₁, f₁, hc, ht, hf, rfl⟩, hd => by
    rw [Expr.located]
    refine (gives_located c .value hc.plain hd).bind fun c' d₁ hd₁ =>
      (gives_located t .value ht.plain hd₁).bind fun t' d₂ hd₂ =>
        (gives_located f .value hf.plain hd₂).bind fun f' d₃ hd₃ => ?_
    exact .pure hd₃ fun D _ _ _ hf' _ ht' _ hc' => .of_framed u ⟨c', t', f', hc', ht', hf', rfl⟩
  | .literal p l, _, u, d, rfl, hd => by
    rw [Expr.located]
    exact .pure hd fun D _ _ => .of_framed u rfl
  | .array p es, _, u, d, ⟨es₁, hes, rfl⟩, hd => by
    rw [Expr.located]
    refine (gives_exprsLocated es hes hd).bind fun es' d₁ hd₁ => ?_
    exact .pure hd₁ fun D _ _ _ hes' => .of_framed u ⟨es', hes', rfl⟩
  | .object p ps, _, u, d, ⟨ps₁, hps, rfl⟩, hd => by
    rw [Expr.located]
    refine (gives_propertiesLocated ps hps hd).bind fun ps' d₁ hd₁ => ?_
    exact .pure hd₁ fun D _ _ _ hps' => .of_framed u ⟨ps', hps', rfl⟩
  | .func p f, _, u, d, ⟨hn, f₁, hf, rfl⟩, hd => by
    rw [Expr.located]
    exact .pure hd fun D _ _ => .of_framed u ⟨hn, f₁, hf, rfl⟩

theorem gives_exprsLocated : ∀ (es : List Expr) {es₁ : List Expr} {d : Draft},
    exprsFramed ⟨L.allowing T, none⟩ es es₁ → d.Sound L.vars lo →
      d.Gives L.vars lo (exprsLocated es₁) fun _ D es' => exprsFramed ⟨L, some D.own⟩ es es'
  | [], _, d, rfl, hd => by
    rw [exprsLocated]
    exact .pure hd fun D _ _ => rfl
  | e :: es, _, d, ⟨e₁, rest, he, hes, rfl⟩, hd => by
    rw [exprsLocated]
    refine (gives_located e .value he.plain hd).bind fun e' d₁ hd₁ =>
      (gives_exprsLocated es hes hd₁).bind fun es' d₂ hd₂ => ?_
    exact .pure hd₂ fun D _ _ _ hes' _ he' => ⟨e', es', he', hes', rfl⟩

theorem gives_propertiesLocated : ∀ (ps : List Property) {ps₁ : List Property} {d : Draft},
    propertiesFramed ⟨L.allowing T, none⟩ ps ps₁ → d.Sound L.vars lo →
      d.Gives L.vars lo (propertiesLocated ps₁) fun _ D ps' =>
        propertiesFramed ⟨L, some D.own⟩ ps ps'
  | [], _, d, rfl, hd => by
    rw [propertiesLocated]
    exact .pure hd fun D _ _ => rfl
  | ⟨k, e⟩ :: ps, _, d, ⟨e₁, rest, he, hps, rfl⟩, hd => by
    rw [propertiesLocated]
    refine (gives_located e .value he.plain hd).bind fun e' d₁ hd₁ =>
      (gives_propertiesLocated ps hps hd₁).bind fun ps' d₂ hd₂ => ?_
    exact .pure hd₂ fun D _ _ _ hps' _ he' => ⟨e', ps', he', hps', rfl⟩

end

theorem gives_locate {e e₁ : Expr} (he : e.Framed ⟨L.allowing T, none⟩ e₁)
    (hd : d.Sound L.vars lo) :
    d.Gives L.vars lo (locate e₁) fun _ D e' =>
      Site.Noted ⟨L, some D.own⟩ (e.Framed ⟨L, some D.own⟩) e' := by
  refine .get_bind ?_
  split
  · exact .pure hd fun D _ _ => .inl (exprFramed_of_plain e he)
  · exact gives_located e .value he hd

theorem gives_locate? {e e₁ : Option Expr} (he : exprFramed? ⟨L.allowing T, none⟩ e e₁)
    (hd : d.Sound L.vars lo) :
    d.Gives L.vars lo (locate? e₁) fun _ D e' => exprFramed? ⟨L, some D.own⟩ e e' := by
  cases e with
  | none =>
    obtain rfl := he
    exact .pure hd fun D _ _ => rfl
  | some e =>
    obtain ⟨e₁, he, rfl⟩ := he
    exact (gives_locate he.plain hd).bind fun e' d₁ hd₁ => .pure hd₁ fun D _ _ _ he' =>
      ⟨e', he', rfl⟩

theorem gives_locateDecls :
    ∀ {ds ds₁ : List VarDecl} {d : Draft}, declsFramed ⟨L.allowing T, none⟩ ds ds₁ →
    d.Sound L.vars lo → d.Gives L.vars lo (locateDecls ds₁) fun _ D ds' =>
      declsFramed ⟨L, some D.own⟩ ds ds'
  | [], _, d, rfl, hd => .pure hd fun D _ _ => rfl
  | ⟨s, e, p⟩ :: ds, _, d, ⟨hs, e₁, rest, he, hds, rfl⟩, hd => by
    rw [locateDecls, List.mapM_cons]
    refine Gives.bind
      ((gives_locate? he hd).bind
        (Q := fun _ D x => ∃ e', exprFramed? ⟨L, some D.own⟩ e e' ∧ x = ⟨s, e', p⟩)
        fun e' d₁ hd₁ => .pure hd₁ fun D _ _ _ he' => ⟨e', he', rfl⟩)
      fun x d₁ hd₁ => ?_
    refine (gives_locateDecls hds hd₁).bind fun ds' d₂ hd₂ => .pure hd₂ fun D _ _ _ hds' _ hx => ?_
    obtain ⟨e', he', rfl⟩ := hx
    exact ⟨hs, e', ds', he', hds', rfl⟩

end Expressions

/-! ## Statements -/

/-- A place is where a region says, and its exit is the one known so far. -/
structure Region.Fits (r : Region) (d : Draft) (pl : Place) : Prop where
  inCatch : pl.inCatch = r.inCatch
  outside : r.cleanup = none → pl.exit = none
  inside : ∀ c, r.cleanup = some c → ∃ flag, pl.exit = some flag ∧
    ∀ s, d.locals.earlyExit? c = some s → flag = some s

theorem Region.Fits.earlier {r : Region} {d d' : Draft} {pl : Place} (h : r.Fits d' pl)
    (hext : d.Extends d') :
    r.Fits d pl where
  inCatch := h.inCatch
  outside := h.outside
  inside c hc := by
    obtain ⟨flag, hflag, heq⟩ := h.inside c hc
    exact ⟨flag, hflag, fun s hs => heq s (hext.earlyExit c s hs)⟩

theorem Region.Fits.intoCatch {r : Region} {d : Draft} {pl : Place} (h : r.Fits d pl) :
    Region.Fits { r with inCatch := true } d { pl with inCatch := true } :=
  ⟨rfl, h.outside, h.inside⟩

section Statements

variable {L : Layout} {T : Option Own → List Catch → Option Block → Prop} {lo : Nat} {d : Draft}

theorem gives_pop (hd : d.Sound L.vars lo) (p : Position) :
    d.Gives L.vars lo (pop L.vars p) fun _ D e => e = popCode L.vars D.own.index p := by
  refine (gives_frameIndex hd).bind fun index d₁ hd₁ => (gives_count hd₁ _).bind fun _ d₂ hd₂ => ?_
  exact .pure hd₂ fun D _ _ _ _ _ hi => by rw [own_index hi]

theorem gives_resetDepth (hd : d.Sound L.vars lo) (p : Position) :
    d.Gives L.vars lo (resetDepth L.vars p) fun _ D s => s = resetCode L.vars D.own.index p := by
  refine (gives_frameIndex hd).bind fun index d₁ hd₁ => (gives_count hd₁ _).bind fun _ d₂ hd₂ => ?_
  exact .pure hd₂ fun D _ _ _ _ _ hi => by rw [own_index hi]

theorem gives_push (hd : d.Sound L.vars lo) (name : Option SymbolId) (p : Position) :
    d.Gives L.vars lo (push L.vars name p) fun _ D s =>
      ∃ i, D.locals.frameIndex = some i ∧ s = pushCode L.vars i name p :=
  (gives_frameIndex hd).bind fun i _ hd₁ => .pure hd₁ fun _ _ _ _ hi => ⟨i, hi, rfl⟩

/-- What a frame uses was handed out. -/
theorem Draft.Sound.mem_pending {v : StackVars} {D : Draft} (hD : D.Sound v lo) {i s : SymbolId}
    (hi : D.locals.frameIndex = some i) (hs : D.own.Uses s) : s ∈ D.locals.pending := by
  rcases hs with rfl | hs | hs
  · rw [own_index hi]
    exact hD.frameIndex i hi
  · exact hD.returnTemp s hs
  · obtain ⟨e, he, rfl⟩ := List.mem_map.1 hs
    exact hD.earlyExits e he

/-- The parameter of an added catch clause is none of the symbols that are used otherwise. -/
theorem gives_syntheticCatch (hbase : L.base ≤ lo) (hd : d.Sound L.vars lo) (p : Position) :
    d.Gives L.vars lo (syntheticCatch L.vars L.wrap p) fun _ D cl =>
      ∃ e sc, L.base ≤ e.index ∧ ¬ L.vars.Uses e ∧ ¬ D.own.Uses e
        ∧ cl = rethrowCode L.vars L.wrap D.own.index e sc p := by
  refine (gives_catchParam hd).bind fun x d₁ hd₁ => ?_
  obtain ⟨sc, e⟩ := x
  refine (gives_frameIndex hd₁).bind fun index d₂ hd₂ => (gives_count hd₂ _).bind fun _ d₃ hd₃ => ?_
  refine .pure hd₃ fun D hD _ _ _ _ hi _ he =>
    ⟨e, sc, ?_, fun hu => ?_, fun hu => ?_, by rw [own_index hi]⟩
  · exact Nat.le_trans hbase he.1
  · exact hd.not_uses he.1 hu
  · exact he.2 (hD.mem_pending hi hu)

theorem mem_flags {D : Draft} {c : CleanupId} {s : SymbolId} (h : D.locals.earlyExit? c = some s) :
    s ∈ D.own.flags := List.mem_map.2 ⟨_, Locals.mem_of_earlyExit? h, rfl⟩

/-- A `return` through a `finally` block. -/
theorem gives_exitThrough {r : Region} {c : CleanupId} (hc : r.cleanup = some c)
    (hd : d.Sound L.vars lo) (p : Position) (e : Option Expr) :
    d.Gives L.vars lo (exitThrough c p e) fun d' D ss => ∀ pl, r.Fits d' pl →
      Site.Returned ⟨L, some D.own⟩ pl p e ss := by
  refine (gives_earlyExit hd c).bind fun flag d₁ hd₁ => ?_
  have hreturned {d' D : Draft} (hext : d'.Extends D) (hext₁ : d₁.Extends d')
      (hflag : d₁.locals.earlyExit? c = some flag) {pl : Place} (hpl : r.Fits d' pl) :
      pl.exit = some (some flag) ∧ flag ∈ D.own.flags := by
    obtain ⟨flag', hexit, heq⟩ := hpl.inside c hc
    rw [hexit, heq flag (hext₁.earlyExit c flag hflag)]
    exact ⟨rfl, mem_flags (hext.earlyExit c flag (hext₁.earlyExit c flag hflag))⟩
  cases e with
  | none =>
    refine .pure hd₁ fun D _ hext hext₁ hflag pl hpl => ?_
    obtain ⟨hexit, hmem⟩ := hreturned hext hext₁ hflag hpl
    simp [Site.Returned, hexit, hmem]
  | some e =>
    refine .pure hd₁ fun D _ hext hext₁ hflag pl hpl => ?_
    obtain ⟨hexit, hmem⟩ := hreturned hext hext₁ hflag hpl
    simp [Site.Returned, hexit, hmem]

/-- A `return` that pops. -/
theorem gives_popAndReturn {r : Region} (hc : r.cleanup = none) (hd : d.Sound L.vars lo)
    (p : Position) (e : Option Expr) :
    d.Gives L.vars lo (popAndReturn L.vars p e) fun d' D ss =>
      ∀ pl, r.Fits d' pl → Site.Returned ⟨L, some D.own⟩ pl p e ss := by
  unfold popAndReturn
  split
  · next e₁ he =>
    obtain ⟨rfl, -⟩ := Option.filter_eq_some_iff.1 he
    refine (gives_returnTemp hd).bind fun temp d₁ hd₁ => (gives_pop hd₁ p).bind fun e' d₂ hd₂ => ?_
    refine .pure hd₂ fun D _ _ _ hpop _ htemp pl hpl => ?_
    simp only [Site.Returned, hpl.outside hc]
    exact .inl ⟨e₁, temp, rfl, htemp, by rw [hpop]⟩
  · next he =>
    refine (gives_pop hd p).bind fun e' d₂ hd₂ => .pure hd₂ fun D _ _ _ hpop pl hpl => ?_
    simp only [Site.Returned, hpl.outside hc]
    refine .inr ⟨fun e₁ h => ?_, by rw [hpop]⟩
    subst h
    simpa using he

/-- The `finally` block ahead of a region pops if some `return` in it set the flag. -/
theorem gives_guardCleanup (hd : d.Sound L.vars lo) (c : CleanupId) (b : Block) :
    d.Gives L.vars lo (guardCleanup L.vars c b) fun d' D b' =>
      Site.Guarded ⟨L, some D.own⟩ (d'.locals.earlyExit? c) b b' := by
  refine .get_bind ?_
  split
  · next flag hflag =>
    have hmem {d' D : Draft} (hext : d.Extends d') (hext' : d'.Extends D) :
        d'.locals.earlyExit? c = some flag ∧ flag ∈ D.own.flags :=
      ⟨hext.earlyExit c flag hflag,
        mem_flags (hext'.earlyExit c flag (hext.earlyExit c flag hflag))⟩
    split
    · next hexit =>
      refine .pure hd fun D _ hext => ?_
      obtain ⟨hflag, hmem⟩ := hmem (.refl d) hext
      simp only [Site.Guarded, hflag, hexit, if_true]
      exact ⟨hmem, trivial⟩
    · next hexit =>
      refine (gives_pop hd b.pos).bind_since fun e d₁ hext₁ hd₁ =>
        .pure hd₁ fun D _ hext _ hpop => ?_
      obtain ⟨hflag, hmem⟩ := hmem hext₁ hext
      simp only [Site.Guarded, hflag, if_neg hexit]
      exact ⟨hmem, by rw [hpop]⟩
  · next hflag =>
    refine .pure hd fun D _ _ => ?_
    simp only [Site.Guarded, hflag]

/-- A reset goes behind what a statement becomes. -/
theorem gives_withReset {r : Region} {s s₁ : Stmt} (hpos : s₁.pos = s.pos)
    (hwraps : s₁.assignsWrapped L.wrap = s.assignsWrapped L.wrap) {x : StateM Draft (List Stmt)}
    {framed : Draft → Place → List Stmt → Prop}
    (hx : d.Gives L.vars lo x fun d' D ss => ∀ pl, r.Fits d' pl → framed D pl ss) :
    d.Gives L.vars lo (withReset L.vars L.wrap r s₁ x) fun d' D ss => ∀ pl, r.Fits d' pl →
      Site.Reset ⟨L, some D.own⟩ pl s (framed D pl) ss := by
  refine hx.bind fun ss d₁ hd₁ => ?_
  rw [hwraps]
  split
  · next hcond =>
    refine (gives_resetDepth hd₁ s₁.pos).bind fun t d₂ hd₂ =>
      .pure hd₂ fun D _ _ hext ht hext' hss pl hpl => ?_
    simp only [Site.Reset, hpl.inCatch]
    rw [if_pos hcond]
    exact ⟨ss, hss pl (hpl.earlier hext'), by rw [ht, hpos]⟩
  · next hcond =>
    refine .pure hd₁ fun D _ _ hext hss pl hpl => ?_
    simp only [Site.Reset, hpl.inCatch]
    rw [if_neg hcond]
    exact hss pl hpl

theorem gives_asBody {r : Region} {s s₁ : Stmt} (hpos : s₁.pos = s.pos)
    (hwraps : s₁.assignsWrapped L.wrap = s.assignsWrapped L.wrap) {x : StateM Draft (List Stmt)}
    {framed : Draft → Place → List Stmt → Prop}
    (hx : d.Gives L.vars lo x fun d' D ss => ∀ pl, r.Fits d' pl → framed D pl ss) :
    d.Gives L.vars lo (asBody L.vars L.wrap r s₁ x) fun d' D s' => ∀ pl, r.Fits d' pl →
      Site.Body ⟨L, some D.own⟩ pl s (framed D pl) s' := by
  refine (gives_withReset hpos hwraps hx).bind fun ss d₁ hd₁ =>
    .pure hd₁ fun D _ _ _ hss pl hpl => ?_
  exact ⟨ss, hss pl hpl, by rw [hpos]⟩

/-- What a `for` loop starts with. -/
def locateInit : Option ForInit → StateM Draft (Option ForInit)
  | none => return none
  | some (.vars ds) => return some (.vars (← locateDecls ds))
  | some (.expr e) => return some (.expr (← locate e))

theorem gives_locateInit {i i₁ : Option ForInit} (h : forInitFramed ⟨L.allowing T, none⟩ i i₁)
    (hd : d.Sound L.vars lo) : d.Gives L.vars lo (locateInit i₁) fun _ D i' =>
      forInitFramed ⟨L, some D.own⟩ i i' := by
  rcases i with _ | ds | e
  · obtain rfl := h
    exact .pure hd fun D _ _ => rfl
  · obtain ⟨ds₁, hds, rfl⟩ := h
    exact (gives_locateDecls hds hd).bind fun ds' d₁ hd₁ => .pure hd₁ fun D _ _ _ hds' =>
      ⟨ds', hds', rfl⟩
  · obtain ⟨e₁, he, rfl⟩ := h
    exact (gives_locate he.plain hd).bind fun e' d₁ hd₁ => .pure hd₁ fun D _ _ _ he' =>
      ⟨e', he', rfl⟩

def forgetIf (b : Bool) : StateM Draft Unit := if b then forget else return

theorem gives_forgetIf (hd : d.Sound L.vars lo) (b : Bool) :
    d.Gives L.vars lo (forgetIf b) fun _ _ _ => True := by
  cases b with
  | true => exact gives_forget hd
  | false => exact .pure hd fun _ _ _ => trivial

theorem framed_forLoop (v : StackVars) (w : SymbolId) (p : Position) (i : Option ForInit)
    (t n : Option Expr) (b : Stmt) (r : Region) :
    (Stmt.forLoop p i t n b).framed v w r = (do
      let i ← locateInit i
      forgetIf t.isSome
      let t ← locate? t
      forgetIf n.isSome
      let n ← locate? n
      let b ← asBody v w r b (b.framed v w r)
      return [.forLoop p i t n b]) := by
  rcases i with _ | ds | e <;> cases t <;> cases n <;> rfl

/-- The catch clauses of an outermost `try` with a `finally` block. -/
def catchesOrRethrow (v : StackVars) (w : SymbolId) (p : Position) (cs : List Catch) (r : Region) :
    StateM Draft (List Catch) :=
  if cs.isEmpty then return [← syntheticCatch v w p] else catchesFramed v w cs r

theorem framed_outermost (v : StackVars) (w : SymbolId) (p q fq : Position) (ss fs : List Stmt)
    (cs : List Catch) {r : Region} (hr : r.cleanup = none) :
    (Stmt.tryBlock p ⟨ss, q⟩ cs (some ⟨fs, fq⟩)).framed v w r = (do
      let c ← onLocals Locals.nextCleanup
      let ss ← stmtsFramed v w ss { r with cleanup := some c }
      let cs ← catchesOrRethrow v w p cs { r with cleanup := some c }
      let fs ← stmtsFramed v w fs r
      let f ← guardCleanup v c ⟨fs, fq⟩
      return [.tryBlock p ⟨ss, q⟩ cs (some f)]) := by
  obtain ⟨_, inCatch⟩ := r
  obtain rfl := hr
  cases cs <;> rfl

/-- What is known of one statement is known of it where only one fits. -/
theorem gives_body {s s₁ : Stmt} {r₀ : Place} {r : Region}
    (h : Site.Body ⟨L.allowing T, none⟩ r₀ s (s.Framed ⟨L.allowing T, none⟩ r₀) s₁)
    (ih : s.Framed ⟨L.allowing T, none⟩ r₀ [s₁] → d.Gives L.vars lo (s₁.framed L.vars L.wrap r)
      fun d' D ss => ∀ pl, r.Fits d' pl → s.Framed ⟨L, some D.own⟩ pl ss) :
    d.Gives L.vars lo (asBody L.vars L.wrap r s₁ (s₁.framed L.vars L.wrap r)) fun d' D s' =>
      ∀ pl, r.Fits d' pl → Site.Body ⟨L, some D.own⟩ pl s (s.Framed ⟨L, some D.own⟩ pl) s' := by
  obtain ⟨s', heq, hpos, hwraps⟩ := h.plain.plain
  obtain rfl : s₁ = s' := by simpa using heq
  exact gives_asBody hpos (hwraps _) (ih h.plain)

/-- A layout for frames whose symbols come in from `lo` on: what may be tried without a frame may be
tried with one. -/
structure Layout.Takes (L : Layout) (T : Option Own → List Catch → Option Block → Prop) (lo : Nat) :
    Prop where
  base_le : L.base ≤ lo
  tries : ∀ own cs f, T none cs f → L.tries (some own) cs f

mutual

theorem gives_framed (hL : L.Takes T lo) :
    ∀ (s : Stmt) {s₁ : Stmt} {r₀ : Place} (r : Region) {d : Draft}, s.Framed ⟨L.allowing T, none⟩ r₀
    [s₁] → d.Sound L.vars lo →
      d.Gives L.vars lo (s₁.framed L.vars L.wrap r) fun d' D ss => ∀ pl, r.Fits d' pl →
        s.Framed ⟨L, some D.own⟩ pl ss
  | .expr p e, _, _, r, d, ⟨e₁, he, rfl⟩, hd => by
    rw [Stmt.framed]
    exact (gives_locate he.plain hd).bind fun e' d₁ hd₁ => .pure hd₁ fun D _ _ _ he' _ _ =>
      ⟨e', he', rfl⟩
  | .vars p ds, _, _, r, d, ⟨ds₁, hds, rfl⟩, hd => by
    rw [Stmt.framed]
    exact (gives_locateDecls hds hd).bind fun ds' d₁ hd₁ => .pure hd₁ fun D _ _ _ hds' _ _ =>
      ⟨ds', hds', rfl⟩
  | .ret p e, _, _, r, d, ⟨e₁, he, heq⟩, hd => by
    obtain rfl : _ = Stmt.ret p e₁ := by simpa [Site.Returned] using heq
    rw [Stmt.framed]
    refine (gives_locate? he hd).bind fun e' d₁ hd₁ => ?_
    split
    · next c hc =>
      exact (gives_exitThrough hc hd₁ p e').mono fun _ D ss _ _ _ hss _ he' pl hpl =>
        ⟨e', he', hss pl hpl⟩
    · next hc =>
      exact (gives_popAndReturn hc hd₁ p e').mono fun _ D ss _ _ _ hss _ he' pl hpl =>
        ⟨e', he', hss pl hpl⟩
  | .raise p e, _, _, r, d, ⟨e₁, he, rfl⟩, hd => by
    rw [Stmt.framed]
    exact (gives_locate he.plain hd).bind fun e' d₁ hd₁ => .pure hd₁ fun D _ _ _ he' _ _ =>
      ⟨e', he', rfl⟩
  | .branch p t yes no, _, _, r, d, ⟨t₁, yes₁, no₁, ht, hyes, hno, rfl⟩, hd => by
    rw [Stmt.framed]
    refine (gives_locate ht.plain hd).bind fun t' d₁ hd₁ =>
      (gives_body hyes fun h => gives_framed hL yes r h hd₁).bind fun yes' d₂ hd₂ =>
      (gives_stmtFramed? hL no r hno hd₂).bind fun no' d₃ hd₃ => ?_
    refine .pure hd₃ fun D _ _ _ hno' hext hyes' _ ht' pl hpl => ?_
    exact ⟨t', yes', no', ht', hyes' pl (hpl.earlier hext), hno' pl hpl, rfl⟩
  | .whileLoop p t b, _, _, r, d, ⟨t₁, b₁, ht, hb, rfl⟩, hd => by
    rw [Stmt.framed]
    refine (gives_forget hd).bind fun _ d₁ hd₁ => (gives_locate ht.plain hd₁).bind fun t' d₂ hd₂ =>
      (gives_body hb fun h => gives_framed hL b r h hd₂).bind fun b' d₃ hd₃ => ?_
    exact .pure hd₃ fun D _ _ _ hb' _ ht' _ _ pl hpl => ⟨t', b', ht', hb' pl hpl, rfl⟩
  | .doWhile p b t, _, _, r, d, ⟨b₁, t₁, hb, ht, rfl⟩, hd => by
    rw [Stmt.framed]
    refine (gives_body hb fun h => gives_framed hL b r h hd).bind fun b' d₁ hd₁ =>
      (gives_locate ht.plain hd₁).bind fun t' d₂ hd₂ => ?_
    exact .pure hd₂ fun D _ _ _ ht' hext hb' pl hpl => ⟨b', t', hb' pl (hpl.earlier hext), ht', rfl⟩
  | .forLoop p i t n b, _, _, r, d, ⟨i₁, t₁, n₁, b₁, hi, ht, hn, hb, rfl⟩, hd => by
    rw [framed_forLoop]
    refine (gives_locateInit hi hd).bind fun i' d₁ hd₁ => (gives_forgetIf hd₁ t₁.isSome).bind
      fun _ d₂ hd₂ =>
      (gives_locate? ht hd₂).bind fun t' d₃ hd₃ => (gives_forgetIf hd₃ n₁.isSome).bind
        fun _ d₄ hd₄ =>
        (gives_locate? hn hd₄).bind fun n' d₅ hd₅ =>
          (gives_body hb fun h => gives_framed hL b r h hd₅).bind fun b' d₆ hd₆ => ?_
    exact .pure hd₆ fun D _ _ _ hb' _ hn' _ _ _ ht' _ _ _ hi' pl hpl =>
      ⟨i', t', n', b', hi', ht', hn', hb' pl hpl, rfl⟩
  | .forIn p k declared o b, _, _, r, d, ⟨hk, o₁, b₁, ho, hb, rfl⟩, hd => by
    rw [Stmt.framed]
    refine (gives_locate ho.plain hd).bind fun o' d₁ hd₁ =>
      (gives_body hb fun h => gives_framed hL b r h hd₁).bind fun b' d₂ hd₂ => ?_
    exact .pure hd₂ fun D _ _ _ hb' _ ho' pl hpl => ⟨hk, o', b', ho', hb' pl hpl, rfl⟩
  | .block p ⟨ss, q⟩, _, _, r, d, ⟨ss₁, hss, rfl⟩, hd => by
    rw [Stmt.framed]
    refine (gives_stmts hL ss r hss hd).bind fun ss' d₁ hd₁ => ?_
    exact .pure hd₁ fun D _ _ _ hss' pl hpl => ⟨ss', hss' pl hpl, rfl⟩
  | .tryBlock p ⟨ss, q⟩ cs none, _, _, r, d, ⟨hT, ss₁, cs₁, hss, hcs, rfl⟩, hd => by
    rw [Stmt.framed]
    refine (gives_stmts hL ss r hss hd).bind fun ss' d₁ hd₁ => (gives_catches hL cs r hcs hd₁).bind
      fun cs' d₂ hd₂ => ?_
    refine .pure hd₂ fun D _ _ _ hcs' hext hss' pl hpl => ?_
    exact ⟨hL.tries _ cs none hT, ss', cs', hss' pl (hpl.earlier hext), hcs' pl hpl, rfl⟩
  | .tryBlock p ⟨ss, q⟩ cs (some ⟨fs, fq⟩), _, _, r, d, ⟨hT, ss₁, cs₁, fs₁, f₁, hfs, heq, hrest⟩,
      hd => by
    obtain ⟨hss, hcs, rfl⟩ := hrest
    obtain rfl : _ = Stmt.tryBlock p ⟨ss₁, q⟩ cs₁ (some ⟨fs₁, fq⟩) := by simpa using heq
    rcases hc : r.cleanup with _ | c
    · rw [framed_outermost _ _ _ _ _ _ _ _ hc]
      refine (gives_nextCleanup hd).bind fun c d₁ hd₁ =>
        (gives_stmts hL ss { r with cleanup := some c } hss hd₁).bind fun ss' d₂ hd₂ => ?_
      have hcatches : d₂.Gives L.vars lo
          (catchesOrRethrow L.vars L.wrap p cs₁ { r with cleanup := some c })
          fun d' D cs' => ∀ pl, Region.Fits { r with cleanup := some c } d' pl →
            (cs = [] → ∃ e sc, L.base ≤ e.index ∧ ¬ L.vars.Uses e ∧ ¬ D.own.Uses e
              ∧ cs' = [rethrowCode L.vars L.wrap D.own.index e sc p])
            ∧ (cs ≠ [] → catchesFramedAs ⟨L, some D.own⟩ cs pl cs') := by
        rcases cs with _ | ⟨cl, cs⟩
        · obtain rfl := hcs
          refine (gives_syntheticCatch hL.base_le hd₂ p).bind fun cl d₃ hd₃ =>
            .pure hd₃ fun D _ _ _ hcl _ _ => ?_
          obtain ⟨e, sc, he, hu, hown, rfl⟩ := hcl
          exact ⟨fun _ => ⟨e, sc, he, hu, hown, rfl⟩, fun h => absurd rfl h⟩
        · have hne : cs₁.isEmpty = false := by
            obtain ⟨s, sc, ⟨bs, bq⟩, cp⟩ := cl
            obtain ⟨_, _, _, _, _, rfl⟩ := hcs
            rfl
          rw [catchesOrRethrow, hne]
          exact (gives_catches hL (cl :: cs) _ hcs hd₂).mono fun _ D cs' _ _ _ h pl hpl =>
            ⟨(fun h => nomatch h), fun _ => h pl hpl⟩
      refine hcatches.bind fun cs' d₃ hd₃ => (gives_stmts hL fs r hfs hd₃).bind fun fs' d₄ hd₄ =>
        (gives_guardCleanup hd₄ c ⟨fs', fq⟩).bind fun f' d₅ hd₅ => ?_
      refine .pure hd₅ fun D _ _ _ hf' h₄ hfs' h₃ hcs' h₂ hss' _ _ pl hpl => ?_
      -- The flag is the one known when the `finally` block is done: no later `return` is inside.
      have hin : Region.Fits { r with cleanup := some c } d₅
          { pl with exit := some (d₅.locals.earlyExit? c) } :=
        ⟨hpl.inCatch, (fun h => nomatch h), fun c' hc' => ⟨_, rfl, fun s hs => by
          obtain rfl := Option.some.inj hc'
          exact hs⟩⟩
      refine ⟨hL.tries _ cs _ hT, ss', cs', fs', f', hfs' pl (hpl.earlier h₄), rfl, ?_⟩
      simp only [hpl.outside hc]
      refine ⟨d₅.locals.earlyExit? c, hss' _ (hin.earlier h₂), hf', ?_⟩
      obtain ⟨hnil, hcons⟩ := hcs' _ (hin.earlier h₃)
      cases cs with
      | nil => exact hnil rfl
      | cons cl cs => exact hcons (List.cons_ne_nil _ _)
    · rw [Stmt.framed]
      simp only [hc]
      refine (gives_stmts hL ss r hss hd).bind fun ss' d₁ hd₁ =>
        (gives_catches hL cs r hcs hd₁).bind fun cs' d₂ hd₂ =>
        (gives_stmts hL fs r hfs hd₂).bind fun fs' d₃ hd₃ => ?_
      refine .pure hd₃ fun D _ _ _ hfs' hext hcs' hext' hss' pl hpl => ?_
      refine ⟨hL.tries _ cs _ hT, ss', cs', fs', ⟨fs', fq⟩, hfs' pl hpl, rfl, ?_⟩
      obtain ⟨flag, hflag, -⟩ := hpl.inside c hc
      simp only [hflag]
      exact ⟨hss' pl (hpl.earlier hext'), hcs' pl (hpl.earlier hext), trivial⟩
  | .labeled p l b, _, _, r, d, ⟨b₁, hb, rfl⟩, hd => by
    rw [Stmt.framed]
    refine (gives_body hb fun h => gives_framed hL b r h hd).bind fun b' d₁ hd₁ =>
      .pure hd₁ fun D _ _ _ hb' pl hpl => ?_
    exact ⟨b', hb' pl hpl, rfl⟩
  | .breakTo p l, _, _, r, d, rfl, hd => by
    rw [Stmt.framed]
    exact .pure hd fun D _ _ pl _ => rfl
  | .continueTo p l, _, _, r, d, rfl, hd => by
    rw [Stmt.framed]
    exact .pure hd fun D _ _ pl _ => rfl
  | .switch p v cs, _, _, r, d, ⟨v₁, cs₁, hv, hcs, rfl⟩, hd => by
    rw [Stmt.framed]
    refine (gives_locate hv.plain hd).bind fun v' d₁ hd₁ => (gives_cases hL cs r hcs hd₁).bind
      fun cs' d₂ hd₂ => ?_
    exact .pure hd₂ fun D _ _ _ hcs' _ hv' pl hpl => ⟨v', cs', hv', hcs' pl hpl, rfl⟩
  | .empty p, _, _, r, d, rfl, hd => by
    rw [Stmt.framed]
    exact .pure hd fun D _ _ pl _ => rfl
termination_by structural s => s

theorem gives_stmts (hL : L.Takes T lo) :
    ∀ (ss : List Stmt) {ss₁ : List Stmt} {r₀ : Place} (r : Region) {d : Draft},
    stmtsFramedAs ⟨L.allowing T, none⟩ ss r₀ ss₁ → d.Sound L.vars lo →
      d.Gives L.vars lo (stmtsFramed L.vars L.wrap ss₁ r) fun d' D ss' => ∀ pl, r.Fits d' pl →
        stmtsFramedAs ⟨L, some D.own⟩ ss pl ss'
  | [], _, _, r, d, rfl, hd => by
    rw [stmtsFramed]
    exact .pure hd fun D _ _ pl _ => rfl
  | s :: ss, _, r₀, r, d, ⟨first, rest, hfirst, hrest, heq⟩, hd => by
    obtain ⟨s₁, rfl, hpos, hwraps⟩ := Stmt.Framed.plain hfirst
    subst heq
    rw [List.singleton_append, stmtsFramed]
    refine (gives_withReset hpos (hwraps _) (gives_framed hL s r hfirst hd)).bind
      fun first d₁ hd₁ => (gives_stmts hL ss r hrest hd₁).bind fun rest d₂ hd₂ => ?_
    refine .pure hd₂ fun D _ _ _ hrest' hext hfirst' pl hpl => ?_
    exact ⟨first, rest, hfirst' pl (hpl.earlier hext), hrest' pl hpl, rfl⟩
termination_by structural ss => ss

theorem gives_stmtFramed? (hL : L.Takes T lo) :
    ∀ (s : Option Stmt) {s₁ : Option Stmt} {r₀ : Place} (r : Region) {d : Draft},
    stmtFramedAs? ⟨L.allowing T, none⟩ s r₀ s₁ → d.Sound L.vars lo →
      d.Gives L.vars lo (stmtFramed? L.vars L.wrap s₁ r) fun d' D s' => ∀ pl, r.Fits d' pl →
        stmtFramedAs? ⟨L, some D.own⟩ s pl s'
  | none, _, _, r, d, rfl, hd => by
    rw [stmtFramed?]
    exact .pure hd fun D _ _ pl _ => rfl
  | some s, _, _, r, d, ⟨s₁, hs, rfl⟩, hd => by
    rw [stmtFramed?]
    refine (gives_body hs fun h => gives_framed hL s r h hd).bind fun s' d₁ hd₁ =>
      .pure hd₁ fun D _ _ _ hs' pl hpl => ?_
    exact ⟨s', hs' pl hpl, rfl⟩
termination_by structural s => s

theorem gives_catches (hL : L.Takes T lo) :
    ∀ (cs : List Catch) {cs₁ : List Catch} {r₀ : Place} (r : Region) {d : Draft},
    catchesFramedAs ⟨L.allowing T, none⟩ cs r₀ cs₁ → d.Sound L.vars lo →
      d.Gives L.vars lo (catchesFramed L.vars L.wrap cs₁ r) fun d' D cs' => ∀ pl, r.Fits d' pl →
        catchesFramedAs ⟨L, some D.own⟩ cs pl cs'
  | [], _, _, r, d, rfl, hd => by
    rw [catchesFramed]
    exact .pure hd fun D _ _ pl _ => rfl
  | ⟨s, sc, ⟨ss, q⟩, p⟩ :: cs, _, _, r, d, ⟨hs, ss₁, rest, hss, hcs, rfl⟩, hd => by
    rw [catchesFramed]
    refine (gives_stmts hL ss { r with inCatch := true } hss hd).bind fun ss' d₁ hd₁ =>
      (gives_catches hL cs r hcs hd₁).bind fun cs' d₂ hd₂ =>
        .pure hd₂ fun D _ _ _ hcs' hext hss' pl hpl => ?_
    exact ⟨hs, ss', cs', hss' _ (hpl.earlier hext).intoCatch, hcs' pl hpl, rfl⟩
termination_by structural cs => cs

theorem gives_cases (hL : L.Takes T lo) :
    ∀ (cs : List SwitchCase) {cs₁ : List SwitchCase} {r₀ : Place} (r : Region) {d : Draft},
    casesFramedAs ⟨L.allowing T, none⟩ cs r₀ cs₁ → d.Sound L.vars lo →
      d.Gives L.vars lo (casesFramed L.vars L.wrap cs₁ r) fun d' D cs' => ∀ pl, r.Fits d' pl →
        casesFramedAs ⟨L, some D.own⟩ cs pl cs'
  | [], _, _, r, d, rfl, hd => by
    rw [casesFramed]
    exact .pure hd fun D _ _ pl _ => rfl
  | ⟨t, ss⟩ :: cs, _, _, r, d, ⟨t₁, ss₁, rest, ht, hss, hcs, rfl⟩, hd => by
    rw [casesFramed]
    refine (gives_locate? ht hd).bind fun t' d₁ hd₁ => (gives_stmts hL ss r hss hd₁).bind
      fun ss' d₂ hd₂ =>
      (gives_cases hL cs r hcs hd₂).bind fun cs' d₃ hd₃ =>
        .pure hd₃ fun D _ _ _ hcs' hext hss' _ ht' pl hpl => ?_
    exact ⟨t', ss', cs', ht', hss' pl (hpl.earlier hext), hcs' pl hpl, rfl⟩
termination_by structural cs => cs

end

/-- The body before its variables are declared in front. -/
theorem gives_framedBody (hL : L.Takes T lo) {f f₁ : Func} (hname : f₁.name = f.name)
    (hpos : f₁.pos = f.pos) (hbpos : f₁.body.pos = f.body.pos) {r₀ : Place}
    (hbody : stmtsFramedAs ⟨L.allowing T, none⟩ f.body.stmts r₀ f₁.body.stmts)
    (hd : d.Sound L.vars lo) :
    d.Gives L.vars lo (f₁.framedBody L.vars L.wrap) fun _ D ss' =>
      (∃ i, D.locals.frameIndex = some i) ∧ ∃ ss, stmtsFramedAs ⟨L, some D.own⟩ f.body.stmts {} ss ∧
      ∀ declared,
        assembled L.vars f D.own.index declared ss =
          mergeVars f.pos (declared.map fun s => ⟨s, none, f.pos⟩) ss' := by
  refine (gives_push hd f₁.name f₁.pos).bind fun entry d₁ hd₁ =>
    (gives_stmts hL _ {} hbody hd₁).bind fun ss d₂ hd₂ => ?_
  have hfits (d : Draft) : Region.Fits {} d {} := ⟨rfl, fun _ => rfl, fun _ h => nomatch h⟩
  dsimp only
  split
  · next hexit =>
    refine .pure hd₂ fun D _ _ _ hss _ hentry => ?_
    obtain ⟨i, hi, rfl⟩ := hentry
    refine ⟨⟨i, hi⟩, ss, hss _ (hfits _), fun declared => ?_⟩
    rw [hname, hpos, hbpos] at hexit
    simp only [assembled, own_index hi, hexit, if_true, hname, hpos]
  · next hexit =>
    refine (gives_pop hd₂ f₁.pos).bind fun e d₃ hd₃ =>
      .pure hd₃ fun D _ _ _ hpop hext hss _ hentry => ?_
    obtain ⟨i, hi, rfl⟩ := hentry
    refine ⟨⟨i, hi⟩, ss, hss _ (hfits _), fun declared => ?_⟩
    rw [hname, hpos, hbpos] at hexit
    simp only [assembled, own_index hi, hexit, hname, hpos, hpop]
    rfl

/-- A function that gets a frame. Names are only added, and no name of the root scope is one of the
stack's. -/
theorem Func.framedAs_framed (hL : L.Takes T lo) {f f₁ : Func} {t : ScopeTable}
    (ht : lo = t.symbols.size) {recorder : Option Recorder}
    (hrecorder : ∀ r, recorder = some r → L.vars.location = some r.location)
    (hvars : ∀ s, L.vars.Uses s → s.index < t.symbols.size)
    (hroots : ∀ x s, t.rootName x = some s → ¬ L.vars.Uses s) (hname : f₁.name = f.name)
    (hparams : f₁.params = f.params) (hpos : f₁.pos = f.pos) (hbpos : f₁.body.pos = f.body.pos)
    {r₀ : Place} (hbody : stmtsFramedAs ⟨L.allowing T, none⟩ f.body.stmts r₀ f₁.body.stmts)
    (hname_lt : ∀ s, f.name = some s → s.index < L.base)
    (hparams_write : ∀ s ∈ f.params, L.Writes s) :
    let y := f₁.framed L.vars L.wrap recorder t
    f.FramedAs L y.1 ∧ t.Adds y.2.2 ∧ ∀ x s, y.2.2.rootName x = some s → ¬ L.vars.Uses s := by
  subst ht
  obtain ⟨hext, hD, hgives⟩ := gives_framedBody hL hname hpos hbpos hbody
    (.start hrecorder hvars hroots f₁.scope)
  obtain ⟨⟨i, hi⟩, ss, hss, hassembled⟩ := hgives _ hD (.refl _)
  refine ⟨?_, hext.table, hD.roots⟩
  rw [Func.framed]
  generalize (f₁.framedBody L.vars L.wrap).run
    { locals := { table := t, scope := f₁.scope }, recorder } = y at hD hi hss hassembled
  obtain ⟨ss', D⟩ := y
  refine ⟨hname, hparams, hname_lt, hparams_write, .inr ⟨D.own, D.locals.pending, ss, ?_, hss, ?_⟩⟩
  · exact {
      mem := fun s hs => hD.mem_pending hi hs
      fresh :=
        fun s hs => ⟨Nat.le_trans hL.base_le (hD.pending s hs).1, hD.not_uses (hD.pending s hs).1⟩
      temp_ne := fun h => hD.temp_ne _ h (by rw [own_index hi]; exact hi)
      index_not_mem := fun h => by
        obtain ⟨e, he, heq⟩ := List.mem_map.1 h
        exact hD.index_ne _ (by rw [own_index hi]; exact hi) e he heq
      temp_not_mem := fun s hs h => by
        obtain ⟨e, he, heq⟩ := List.mem_map.1 h
        exact hD.temp_not_flag s hs e he heq }
  · have hne : D.locals.pending.isEmpty = false := by
      rcases hp : D.locals.pending with _ | _
      · exact absurd (hD.frameIndex i hi) (by simp [hp])
      · rfl
    rw [hassembled]
    simp only [Locals.flush, hne, hpos]
    rfl

end Statements

end FrameLedger
