import FrameLedger.Proofs.Tables

/-!
# Looking names up

`lookup` goes outward from a scope and takes the symbol of the nearest scope that declares the
identifier: `Descends.lookup_eq_some_iff`. So a symbol is found from a scope inside its own unless a
scope on the way declares the same identifier: `Descends.resolves_iff_free`.
-/

namespace FrameLedger

namespace ScopeTable

/-- The scope `b` is `a` or around it. -/
def Reaches (t : ScopeTable) : ScopeId → ScopeId → Prop := Relation.ReflTransGen fun a b =>
    t.parent? a = some b

/-- Scopes come behind those around them. -/
def Descends (t : ScopeTable) : Prop := ∀ a b, t.parent? a = some b → b.index < a.index

/-- The scope `c` is passed on the way from `a` out to `b`. -/
def Passes (t : ScopeTable) (a b c : ScopeId) : Prop := t.Reaches a c ∧ t.Reaches c b ∧ c ≠ b

/-- The symbol stands in a scope that is `sc` or around it. -/
def Homes (t : ScopeTable) (sc : ScopeId) (s : SymbolId) : Prop :=
  ∃ home, t.Placed home s ∧ t.Reaches sc home

/-- Looking up the identifier of the symbol from `sc` finds the symbol. -/
def Resolves (t : ScopeTable) (sc : ScopeId) (s : SymbolId) : Prop :=
  ∃ r, t.symbol? s = some r ∧ t.lookup sc r.ident = some s

section

variable {t t' : ScopeTable} {a b c sc : ScopeId} {s : SymbolId} {x : String}

theorem lt_of_parent? (h : t.parent? a = some b) : a.index < t.scopes.size := by
  rw [parent?, scope?] at h
  obtain ⟨_, hc, -⟩ := Option.bind_eq_some_iff.1 h
  exact (Array.getElem?_eq_some_iff.1 hc).1

theorem Reaches.extends (h : t.Reaches a b) (ht : t.Extends t') : t'.Reaches a b :=
  Relation.ReflTransGen.mono (fun a _ hab => (ht.parent a (lt_of_parent? hab)).trans hab) _ _ h

theorem Homes.extends (h : t.Homes sc s) (ht : t.Extends t') : t'.Homes sc s := by
  obtain ⟨home, hplaced, hreach⟩ := h
  exact ⟨home, hplaced.extends ht, hreach.extends ht⟩

theorem Homes.inside (h : t.Homes sc s) (hreach : t.Reaches a sc) : t.Homes a s := by
  obtain ⟨home, hplaced, hhome⟩ := h
  exact ⟨home, hplaced, hreach.trans hhome⟩

theorem Descends.le_of_reaches (ht : t.Descends) (h : t.Reaches a b) : b.index ≤ a.index := by
  induction h with
  | refl => exact Nat.le_refl _
  | tail _ hbc ih => exact Nat.le_trans (Nat.le_of_lt (ht _ _ hbc)) ih

/-- There is one way out. -/
theorem Reaches.of_parent? (h : t.Reaches a c) (hp : t.parent? a = some b) :
    c = a ∨ t.Reaches b c := by
  rcases Relation.ReflTransGen.cases_head h with rfl | ⟨b', hb', h⟩
  · exact .inl rfl
  · obtain rfl := Option.some.inj (hp.symm.trans hb')
    exact .inr h

/-- More steps than there are scopes left are not taken. -/
theorem Descends.lookupWithin_succ (ht : t.Descends) (x : String) :
    ∀ (n : Nat) (sc : ScopeId), sc.index < n → t.lookupWithin x (n + 1) sc = t.lookupWithin x n sc
  | 0, _, h => absurd h (Nat.not_lt_zero _)
  | n + 1, sc, h => by
    rw [lookupWithin, lookupWithin]
    cases t.findIn sc x with
    | some s => rfl
    | none =>
      rcases hp : t.parent? sc with _ | b
      · rfl
      · exact ht.lookupWithin_succ x n b (by have := ht sc b hp; omega)

theorem lookup_of_findIn (h : t.findIn sc x = some s) : t.lookup sc x = some s := by
  rw [lookup, lookupWithin, h]

theorem Descends.lookup_of_parent? (ht : t.Descends) (h : t.findIn a x = none)
    (hp : t.parent? a = some b) :
    t.lookup a x = t.lookup b x := by
  have hlt := lt_of_parent? hp
  have hb := ht a b hp
  rw [lookup, lookupWithin, h, hp, lookup, ht.lookupWithin_succ x _ b (by omega)]
  rfl

theorem exists_of_lookupWithin : ∀ (n : Nat) {sc : ScopeId}, t.lookupWithin x n sc = some s →
    ∃ home, t.findIn home x = some s ∧ t.Reaches sc home
  | 0, _, h => nomatch h
  | n + 1, sc, h => by
    rw [lookupWithin] at h
    rcases hfind : t.findIn sc x with _ | s'
    · rw [hfind] at h
      obtain ⟨b, hb, h⟩ := Option.bind_eq_some_iff.1 h
      obtain ⟨home, hhome, hreach⟩ := exists_of_lookupWithin n h
      exact ⟨home, hhome, .head hb hreach⟩
    · rw [hfind] at h
      obtain rfl := Option.some.inj h
      exact ⟨sc, hfind, .refl⟩

theorem Resolves.homes (h : t.Resolves sc s) (ht : t.Consistent) : t.Homes sc s := by
  obtain ⟨r, -, hlookup⟩ := h
  obtain ⟨home, hfind, hreach⟩ := exists_of_lookupWithin _ hlookup
  obtain ⟨r', hr', hx, hscope⟩ := ht _ _ _ hfind
  exact ⟨home, ⟨r', hr', hscope, hx ▸ hfind⟩, hreach⟩

/-- The walk outward, one scope at a time. -/
theorem Descends.lookup_eq (ht : t.Descends) (sc : ScopeId) (x : String) :
    t.lookup sc x = (t.findIn sc x).or ((t.parent? sc).bind (t.lookup · x)) := by
  rcases hfind : t.findIn sc x with _ | s
  · rcases hp : t.parent? sc with _ | b
    · rw [lookup, lookupWithin, hfind, hp]
      rfl
    · exact ht.lookup_of_parent? hfind hp
  · exact lookup_of_findIn hfind

theorem Descends.not_passes_self (ht : t.Descends) : ¬ t.Passes a a c := by
  rintro ⟨hout, hin, hne⟩
  obtain ⟨i⟩ := c
  exact hne (congrArg ScopeId.mk (Nat.le_antisymm (ht.le_of_reaches hout) (ht.le_of_reaches hin)))

/-- The scope that is left is passed, and so is what is passed from the scope around it. -/
theorem Descends.passes_iff (ht : t.Descends) (hp : t.parent? a = some b) (h : t.Reaches b c)
    {d : ScopeId} :
    t.Passes a c d ↔ d = a ∨ t.Passes b c d := by
  have hne : a ≠ c := fun heq => by
    have hle := ht.le_of_reaches h
    have hlt := ht a b hp
    rw [heq] at hlt
    omega
  constructor
  · rintro ⟨hout, hin, hdc⟩
    exact (hout.of_parent? hp).imp_right (⟨·, hin, hdc⟩)
  · rintro (rfl | ⟨hout, hin, hdc⟩)
    · exact ⟨.refl, .head hp h, hne⟩
    · exact ⟨.head hp hout, hin, hdc⟩

/-- What is found is the symbol of the nearest scope that declares the identifier. -/
theorem Descends.lookup_eq_some_iff (ht : t.Descends) : t.lookup sc x = some s ↔
    ∃ home, t.Reaches sc home ∧ t.findIn home x = some s ∧ ∀ c, t.Passes sc home c →
      t.findIn c x = none := by
  constructor
  · intro h
    obtain ⟨home, hfind, hreach⟩ := exists_of_lookupWithin _ h
    induction hreach using Relation.ReflTransGen.head_induction_on with
    | refl => exact ⟨home, .refl, hfind, fun c hc => absurd hc ht.not_passes_self⟩
    | @head a b hp _ ih =>
      rcases hnone : t.findIn a x with _ | s'
      · obtain ⟨home, hreach, hfind, hfree⟩ := ih (ht.lookup_of_parent? hnone hp ▸ h)
        refine ⟨home, .head hp hreach, hfind, fun c hc => ?_⟩
        rcases (ht.passes_iff hp hreach).1 hc with rfl | hc
        · exact hnone
        · exact hfree c hc
      · obtain rfl := Option.some.inj ((lookup_of_findIn hnone).symm.trans h)
        exact ⟨a, .refl, hnone, fun c hc => absurd hc ht.not_passes_self⟩
  · rintro ⟨home, hreach, hfind, hfree⟩
    induction hreach using Relation.ReflTransGen.head_induction_on with
    | refl => exact lookup_of_findIn hfind
    | @head a b hp hreach ih =>
      have hpasses (c : ScopeId) := ht.passes_iff hp hreach (d := c)
      rw [ht.lookup_of_parent? (hfree a ((hpasses a).2 (.inl rfl))) hp]
      exact ih fun c hc => hfree c ((hpasses c).2 (.inr hc))

/-- A symbol of a scope around is found unless a scope on the way out declares its identifier. -/
theorem Descends.resolves_iff_free (ht : t.Descends) (hc : t.Consistent) {r : Symbol}
    (hr : t.symbol? s = some r) (hfind : t.findIn r.scope r.ident = some s)
    (hreach : t.Reaches sc r.scope) :
    t.Resolves sc s ↔ ∀ c, t.Passes sc r.scope c → t.findIn c r.ident = none := by
  constructor
  · rintro ⟨r', hr', h⟩
    obtain rfl := Option.some.inj (hr.symm.trans hr')
    obtain ⟨home, -, hhome, hfree⟩ := ht.lookup_eq_some_iff.1 h
    -- What is found in a scope is a symbol of that scope.
    obtain ⟨r', hr', -, rfl⟩ := hc _ _ _ hhome
    exact Option.some.inj (hr'.symm.trans hr) ▸ hfree
  · exact fun hfree => ⟨r, hr, ht.lookup_eq_some_iff.2 ⟨_, hreach, hfind, hfree⟩⟩

end

/-! ## Checks -/

section

variable {t : ScopeTable} {a b : ScopeId}

/-- Whether one of the first scopes on the way out from `a` is `b`. -/
def reachesWithin (t : ScopeTable) (b : ScopeId) : Nat → ScopeId → Bool
  | 0, _ => false
  | n + 1, a => a == b || (t.parent? a).any (t.reachesWithin b n)

def reaches (t : ScopeTable) (a b : ScopeId) : Bool := t.reachesWithin b (t.scopes.size + 1) a

def descends (t : ScopeTable) : Bool := (List.range t.scopes.size).all fun i =>
    (t.parent? ⟨i⟩).all (·.index < i)

def resolves (t : ScopeTable) (sc : ScopeId) (s : SymbolId) : Bool :=
  (t.symbol? s).any fun r => t.lookup sc r.ident == some s

theorem reaches_of_reachesWithin : ∀ (n : Nat) {a : ScopeId}, t.reachesWithin b n a = true →
    t.Reaches a b
  | 0, _, h => nomatch h
  | n + 1, a, h => by
    simp only [reachesWithin, Bool.or_eq_true, beq_iff_eq, Option.any_eq_true] at h
    rcases h with rfl | ⟨c, hc, h⟩
    · exact .refl
    · exact .head hc (reaches_of_reachesWithin n h)

theorem reaches_of_reaches (h : t.reaches a b = true) : t.Reaches a b :=
  reaches_of_reachesWithin _ h

theorem descends_of_descends (h : t.descends = true) : t.Descends := by
  intro a b hab
  simp only [descends, List.all_eq_true, List.mem_range, Option.all_eq_true, decide_eq_true_eq] at h
  exact h a.index (lt_of_parent? hab) b hab

theorem resolves_eq_true {sc : ScopeId} {s : SymbolId} : t.resolves sc s = true ↔
    t.Resolves sc s := by
  simp only [resolves, Resolves, Option.any_eq_true, beq_iff_eq]

end

end ScopeTable

end FrameLedger
