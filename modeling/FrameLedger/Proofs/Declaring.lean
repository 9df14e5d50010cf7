import FrameLedger.Proofs.Lookup

/-!
# Tables under every operation

A table that is made by opening scopes and declaring names, in whatever order, is in order
(`ScopeTable.Sound`): its scopes find exactly its symbols, each under its own identifier, and every
scope comes behind the one around it. So looking a name up ends at the nearest scope that declares
it, and the search for a free identifier ends at the first: `ScopeTable.Made.in_order`.
-/

namespace FrameLedger

namespace ScopeTable

/-- The table is made from the first one by operations on scopes that are there. -/
inductive Made : ScopeTable → Prop where
  | initial : Made initial
  | newScope {t : ScopeTable} (h : Made t) (k : ScopeKind) {parent : ScopeId}
    (hparent : parent.index < t.scopes.size) : Made (t.newScope k parent).2
  | declare {t : ScopeTable} (h : Made t) {sc : ScopeId} (hsc : sc.index < t.scopes.size)
      (x : String) :
    Made (t.declare sc x).2
  | declareUnique {t : ScopeTable} (h : Made t) {sc : ScopeId} (hsc : sc.index < t.scopes.size)
      (x short : String) :
    Made (t.declareUnique sc x short).2

/-- A scope finds its symbols, under their identifiers, and nothing else, and comes behind the scope
around it. -/
structure Sound (t : ScopeTable) : Prop where
  found_iff : ∀ sc x s, t.findIn sc x = some s ↔ ∃ r, t.symbol? s = some r ∧ r.ident = x ∧
    r.scope = sc
  descends : t.Descends

/-- The table `t'` has one symbol more than `t`, which is found in its scope, and is `t` apart from
that. -/
structure Gains (t t' : ScopeTable) (s : SymbolId) (r : Symbol) : Prop where
  new : t.symbol? s = none
  symbol : ∀ s', t'.symbol? s' = if s' = s then some r else t.symbol? s'
  findIn : ∀ sc x, t'.findIn sc x = if sc = r.scope ∧ x = r.ident then some s else t.findIn sc x
  kind : ∀ sc, t'.kind? sc = t.kind? sc
  parent : ∀ sc, t'.parent? sc = t.parent? sc

/-- The identifier `y` is `x` if that is free in the scope, else the first of `x_1`, `x_2`, … that
is. -/
def FirstFree (t : ScopeTable) (sc : ScopeId) (x y : String) : Prop :=
  t.findIn sc x = none ∧ y = x ∨ t.findIn sc x ≠ none ∧
    ∃ k, y = x ++ "_" ++ toString k ∧
      IsLeast {k | 1 ≤ k ∧ t.findIn sc (x ++ "_" ++ toString k) = none} k

/-- Names are looked up by a walk outward that ends, and the symbol of the nearest scope that
declares the identifier is found. -/
structure Searched (t : ScopeTable) : Prop where
  ends : WellFounded fun outer inner => t.parent? inner = some outer
  step : ∀ sc x, t.lookup sc x = (t.findIn sc x).or ((t.parent? sc).bind (t.lookup · x))
  nearest : ∀ sc x s, t.lookup sc x = some s ↔
    ∃ home, t.Reaches sc home ∧ t.findIn home x = some s ∧ ∀ c, t.Passes sc home c →
      t.findIn c x = none
  missing : ∀ sc x, t.lookup sc x = none ↔ ∀ home, t.Reaches sc home → t.findIn home x = none

section

variable {t t' : ScopeTable} {r : Symbol} {sc : ScopeId} {s : SymbolId}

/-! ## What the operations do -/

theorem gains_addSymbol (h : r.scope.index < t.scopes.size) :
    t.Gains (t.addSymbol r).2 (t.addSymbol r).1 r where
  new := Array.getElem?_eq_none (Nat.le_refl _)
  symbol s' := by
    rw [symbol?, addSymbol, Array.getElem?_push]
    exact if_congr ⟨SymbolId.eq_of_index, congrArg SymbolId.index⟩ rfl rfl
  findIn sc x := by
    split
    · next heq =>
      obtain ⟨rfl, rfl⟩ := heq
      exact findIn_addSymbol_self h
    · next hne => exact findIn_addSymbol_of_ne (by rwa [← not_and_or])
  kind := kind?_addSymbol t r
  parent := parent?_addSymbol t r

theorem declare_of_findIn {x : String} (h : t.findIn sc x = some s) : t.declare sc x = (s, t) := by
  rw [declare, h]

theorem declare_of_free {x : String} (h : t.findIn sc x = none) :
    t.declare sc x = t.addSymbol ⟨x, x, sc, true⟩ := by
  rw [declare, h]

theorem FirstFree.findIn {x y : String} (h : t.FirstFree sc x y) : t.findIn sc y = none := by
  rcases h with ⟨hfree, rfl⟩ | ⟨-, k, rfl, hleast⟩
  · exact hfree
  · exact hleast.1.2

/-- The search for an identifier ends at the first one that is free. -/
theorem firstFree_freshIdent (t : ScopeTable) (sc : ScopeId) (x : String) :
    t.FirstFree sc x (freshIdent (t.namesIn sc) x) := by
  obtain ⟨k, hk, hfree, hleast⟩ := freshIdent_isLeast (t.namesIn sc) x
  rw [hk]
  cases k with
  | zero => exact .inl ⟨hfree, rfl⟩
  | succ k =>
    refine .inr ⟨fun hx => absurd (hleast hx : k + 1 ≤ 0) (Nat.not_succ_le_zero k), k + 1, rfl,
      ⟨Nat.succ_pos k, hfree⟩, ?_⟩
    rintro (_ | j) ⟨hj, hfree⟩
    · cases hj
    · exact hleast hfree

theorem gains_declareUnique (h : sc.index < t.scopes.size) (x short : String) :
    ∃ y, t.FirstFree sc x y ∧
    t.Gains (t.declareUnique sc x short).2 (t.declareUnique sc x short).1 ⟨y, short, sc, true⟩ :=
  ⟨_, t.firstFree_freshIdent sc x, gains_addSymbol h⟩

/-! ## What they keep -/

/-- A symbol under a free identifier leaves the other symbols where they are found. -/
theorem Sound.gains (ht : t.Sound) (h : t.Gains t' s r) (hfree : t.findIn r.scope r.ident = none) :
    t'.Sound where
  found_iff sc x s' := by
    rw [h.findIn, h.symbol]
    split_ifs with hname hs hs
    · obtain ⟨rfl, rfl⟩ := hname
      exact ⟨fun _ => ⟨r, rfl, rfl, rfl⟩, fun _ => congrArg some hs.symm⟩
    · refine ⟨fun heq => absurd (Option.some.inj heq).symm hs, fun hfound => ?_⟩
      rw [hname.1, hname.2, ← ht.found_iff, hfree] at hfound
      cases hfound
    · rw [ht.found_iff, hs]
      refine ⟨fun ⟨r', hr', _⟩ => ?_, fun ⟨r', hr', hx, hsc⟩ => absurd ?_ hname⟩
      · rw [h.new] at hr'
        cases hr'
      · obtain rfl := Option.some.inj hr'
        exact ⟨hsc.symm, hx.symm⟩
    · exact ht.found_iff sc x s'
  descends a b hab := ht.descends a b (h.parent a ▸ hab)

theorem Sound.newScope (ht : t.Sound) (k : ScopeKind) {parent : ScopeId}
    (hparent : parent.index < t.scopes.size) :
    (t.newScope k parent).2.Sound where
  found_iff sc x s := by
    rw [findIn_newScope]
    exact ht.found_iff sc x s
  descends a b hab := by
    rw [parent?_newScope] at hab
    split at hab
    · next ha =>
      obtain rfl := Option.some.inj hab
      rwa [ha]
    · exact ht.descends a b hab

/-- Names that are declared one after the other, each of them once. -/
theorem Sound.addNames {names : List String} (ht : t.Sound) (hsc : sc.index < t.scopes.size)
    (hnodup : names.Nodup) (hfree : ∀ x ∈ names, t.findIn sc x = none) :
    (names.foldl (fun t x => (t.addSymbol ⟨x, x, sc, false⟩).2) t).Sound ∧
      (names.foldl (fun t x => (t.addSymbol ⟨x, x, sc, false⟩).2) t).scopes.size =
        t.scopes.size := by
  induction names generalizing t with
  | nil => exact ⟨ht, rfl⟩
  | cons x names ih =>
    obtain ⟨hx, hnodup⟩ := List.nodup_cons.1 hnodup
    have hgains := gains_addSymbol (r := ⟨x, x, sc, false⟩) hsc
    have hsize : (t.addSymbol ⟨x, x, sc, false⟩).2.scopes.size = t.scopes.size := Array.size_modify
    obtain ⟨hsound, hsizes⟩ :=
      ih (ht.gains hgains (hfree x List.mem_cons_self)) (hsize ▸ hsc) hnodup fun y hy => by
      have hne : y ≠ x := ne_of_mem_of_not_mem hy hx
      rw [hgains.findIn, if_neg (hne ·.2)]
      exact hfree y (List.mem_cons_of_mem x hy)
    exact ⟨hsound, hsizes.trans hsize⟩

theorem sound_root : (empty.addScope .root none).2.Sound := by
  have hscope (sc : ScopeId) : (empty.addScope .root none).2.scope? sc = none ∨
      (empty.addScope .root none).2.scope? sc = some ⟨.root, none, ∅⟩ := by
    rcases sc with ⟨_ | i⟩
    · exact .inr rfl
    · exact .inl rfl
  constructor
  · intro sc x s
    have hfind : (empty.addScope .root none).2.findIn sc x = none := by
      rw [ScopeTable.findIn, namesIn]
      rcases hscope sc with h | h <;> rw [h] <;> rfl
    rw [hfind]
    constructor
    · intro h
      cases h
    · rintro ⟨r, hr, -⟩
      cases hr
  · intro a b hab
    rw [parent?] at hab
    rcases hscope a with h | h <;> rw [h] at hab <;> cases hab

theorem sound_initial : initial.Sound := by
  have hroot : root.index < (empty.addScope .root none).2.scopes.size := Nat.zero_lt_one
  have hnodup : rootNames.Nodup := by decide
  obtain ⟨hsound, hsize⟩ := sound_root.addNames hroot hnodup fun _ _ => rfl
  exact hsound.newScope .program (hsize ▸ hroot)

theorem Made.sound (h : t.Made) : t.Sound := by
  induction h with
  | initial => exact sound_initial
  | newScope _ k hparent ht => exact ht.newScope k hparent
  | @declare t _ sc hsc x ht =>
    rcases hfind : t.findIn sc x with _ | s
    · rw [declare_of_free hfind]
      exact ht.gains (gains_addSymbol hsc) hfind
    · rwa [declare_of_findIn hfind]
  | @declareUnique t _ sc hsc x short ht =>
    obtain ⟨y, hfirst, hgains⟩ := gains_declareUnique hsc x short
    exact ht.gains hgains hfirst.findIn

/-! ## What follows -/

/-- A symbol is found in one scope only, and under one identifier. -/
theorem Sound.found_once (ht : t.Sound) {sc' : ScopeId} {x x' : String} (h : t.findIn sc x = some s)
    (h' : t.findIn sc' x' = some s) : sc = sc' ∧ x = x' := by
  obtain ⟨r, hr, rfl, rfl⟩ := (ht.found_iff sc x s).1 h
  obtain ⟨r', hr', rfl, rfl⟩ := (ht.found_iff sc' x' s).1 h'
  obtain rfl := Option.some.inj (hr.symm.trans hr')
  exact ⟨rfl, rfl⟩

theorem Descends.searched (ht : t.Descends) : t.Searched where
  ends := Subrelation.wf (ht _ _) (measure ScopeId.index).wf
  step := ht.lookup_eq
  nearest _ _ _ := ht.lookup_eq_some_iff
  missing sc x := by
    constructor
    · intro h home hreach
      induction hreach using Relation.ReflTransGen.head_induction_on with
      | refl =>
        rw [ht.lookup_eq, Option.or_eq_none_iff] at h
        exact h.1
      | @head a b hp _ ih =>
        rw [ht.lookup_eq, Option.or_eq_none_iff, hp] at h
        exact ih h.2
    · intro h
      rcases hlookup : t.lookup sc x with _ | s
      · rfl
      · obtain ⟨home, hreach, hfind, -⟩ := ht.lookup_eq_some_iff.1 hlookup
        rw [h home hreach] at hfind
        cases hfind

/-- In every table that is made: a scope finds its symbols under their identifiers, each under one,
and comes behind the scope around it; a name is looked up from a scope outward; `declare` gives the
symbol that is there or adds one; and `declareUnique` adds one, under the first of `x`, `x_1`,
`x_2`, … that is free. -/
theorem Made.in_order (h : t.Made) :
    t.Sound ∧ (∀ sc x x' s, t.findIn sc x = some s → t.findIn sc x' = some s → x = x') ∧
      t.Searched ∧
    ∀ sc, sc.index < t.scopes.size → ∀ x,
      (∀ s, t.findIn sc x = some s → t.declare sc x = (s, t)) ∧
      (t.findIn sc x = none → t.Gains (t.declare sc x).2 (t.declare sc x).1 ⟨x, x, sc, true⟩) ∧
      ∀ short, ∃ y, t.FirstFree sc x y ∧
        t.Gains (t.declareUnique sc x short).2 (t.declareUnique sc x short).1
          ⟨y, short, sc, true⟩ := by
  have ht := h.sound
  refine ⟨ht, fun sc x x' s hx hx' => (ht.found_once hx hx').2, ht.descends.searched,
    fun sc hsc x => ⟨fun s => declare_of_findIn, fun hfree => ?_, gains_declareUnique hsc x⟩⟩
  rw [declare_of_free hfree]
  exact gains_addSymbol hsc

end

/-- The program scope declares `x` and `x_1`, and a function in it, which holds a catch clause, has
an `x` of its own. -/
def namesakes : ScopeTable :=
  let t := ((initial.declare program "x").2.declare program "x_1").2
  let t := ((t.newScope .function program).2.newScope .catch ⟨2⟩).2
  (t.declareUnique ⟨2⟩ "x" "a").2

theorem made_namesakes : namesakes.Made :=
  ((((Made.initial.declare (by decide) "x").declare (by decide) "x_1").newScope .function
    (by decide)).newScope .catch (by decide)).declareUnique (by decide) "x" "a"

theorem Made.in_order_namesakes : namesakes.Made ∧ namesakes.Sound ∧ namesakes.Searched ∧
    namesakes.lookup ⟨3⟩ "x" = some ⟨9⟩ ∧ namesakes.lookup ⟨3⟩ "x_1" = some ⟨8⟩ ∧
    namesakes.declare program "x_1" = (⟨8⟩, namesakes) ∧
    (namesakes.declareUnique program "x" "b").2.ident? ⟨10⟩ = some "x_2" ∧
    ∃ y, namesakes.FirstFree program "x" y ∧
      namesakes.Gains (namesakes.declareUnique program "x" "b").2
        (namesakes.declareUnique program "x" "b").1 ⟨y, "b", program, true⟩ := by
  obtain ⟨hsound, -, hsearched, hdeclare⟩ := made_namesakes.in_order
  exact ⟨made_namesakes, hsound, hsearched, by decide +kernel, by decide +kernel,
    (hdeclare program (by decide +kernel) "x_1").1 ⟨8⟩ (by decide +kernel), by decide +kernel,
    (hdeclare program (by decide +kernel) "x").2.2 "b"⟩

end ScopeTable

end FrameLedger
