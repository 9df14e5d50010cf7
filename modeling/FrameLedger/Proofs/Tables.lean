import Mathlib
import FrameLedger.ScopeTable

/-!
# Names in a table

`declareUnique` takes the first identifier that its scope does not hold yet (`freshIdent_isLeast`).
So a table only grows when symbols are declared: what was found is still found
(`ScopeTable.Extends`), and what is found under an identifier is a symbol of that identifier and
scope (`ScopeTable.Consistent`).
-/

namespace FrameLedger

namespace SortedMap

variable {κ α : Type} [Ord κ]

theorem mem_entries_of_get? [Std.LawfulEqOrd κ] {m : SortedMap κ α} {k : κ} {v : α}
    (h : m.get? k = some v) :
    (k, v) ∈ m.entries := by
  obtain ⟨entries, hinc⟩ := m
  simp only [get?] at h ⊢
  clear hinc
  induction entries with
  | nil => cases h
  | cons e rest ih =>
    simp only [findEntry] at h
    split at h
    · next he =>
      rw [Std.LawfulEqOrd.eq_of_compare he, ← Option.some.inj h]
      exact List.mem_cons_self
    · exact List.mem_cons_of_mem _ (ih h)

theorem mem_keys_of_contains [Std.LawfulEqOrd κ] {m : SortedMap κ α} {k : κ}
    (h : m.contains k = true) :
    k ∈ m.keys := by
  obtain ⟨v, hv⟩ := Option.isSome_iff_exists.1 h
  exact List.mem_map_of_mem (mem_entries_of_get? hv)

variable [Std.TransOrd κ]

theorem get?_insert_self (m : SortedMap κ α) (k : κ) (v : α) : (m.insert k v).get? k = some v := by
  obtain ⟨entries, hinc⟩ := m
  simp only [get?, insert]
  clear hinc
  induction entries with
  | nil => simp [insertEntry, findEntry, Std.ReflCmp.compare_self]
  | cons e rest ih =>
    simp only [insertEntry]
    split
    · simp [findEntry, Std.ReflCmp.compare_self]
    · simp [findEntry, Std.ReflCmp.compare_self]
    · next hgt => simpa [findEntry, hgt] using ih

theorem get?_insert_of_ne (m : SortedMap κ α) {k k' : κ} (h : compare k' k ≠ .eq) (v : α) :
    (m.insert k v).get? k' = m.get? k' := by
  obtain ⟨entries, hinc⟩ := m
  simp only [get?, insert]
  clear hinc
  induction entries with
  | nil => simp [insertEntry, findEntry, h]
  | cons e rest ih =>
    simp only [insertEntry]
    split
    · rw [findEntry, if_neg h]
    · next heq =>
      have hne : compare k' e.1 ≠ .eq := by rwa [← Std.TransCmp.congr_right heq]
      rw [findEntry, if_neg h, findEntry, if_neg hne]
    · simp only [findEntry, ih]

end SortedMap

theorem SymbolId.eq_of_index {s s' : SymbolId} (h : s.index = s'.index) : s = s' := by
  cases s
  exact congrArg SymbolId.mk h

namespace ScopeTable

/-! ## Fresh identifiers -/

theorem candidate_injective (ident : String) : Function.Injective (candidate ident) := by
  have hne (k : Nat) : ident ≠ ident ++ "_" ++ toString (k + 1) := fun h => by
    have hlength := congrArg String.length h
    simp only [String.length_append] at hlength
    have hpos : 0 < "_".length := by decide
    omega
  rintro (_ | j) (_ | k) h
  · rfl
  · exact absurd h (hne k)
  · exact absurd h.symm (hne j)
  · have hlist := congrArg String.toList h
    simp only [candidate, String.toList_append] at hlist
    have hdigits := congrArg (fun ds => Nat.ofDigitChars 10 ds 0) (List.append_cancel_left hlist)
    simpa [Nat.toString_eq_ofList_toDigits] using hdigits

theorem toList_candidate (ident : String) (k : Nat) :
    ∃ rest, (candidate ident k).toList = ident.toList ++ rest := by
  cases k with
  | zero => exact ⟨[], (List.append_nil _).symm⟩
  | succ k =>
    exact ⟨_, by rw [candidate, String.toList_append, String.toList_append, List.append_assoc]⟩

/-- A fresh identifier is the first candidate that is free. Not all candidates are taken: there are
more of them than names. -/
theorem freshIdent_isLeast (names : SortedMap String SymbolId) (ident : String) :
    ∃ k, freshIdent names ident = candidate ident k ∧
      IsLeast {k | names.get? (candidate ident k) = none} k := by
  unfold freshIdent
  rcases h : (List.range (names.entries.length + 1)).find? fun k =>
    !names.contains (candidate ident k) with _ | k
  · have htaken : (List.range (names.entries.length + 1)).map (candidate ident) ⊆ names.keys := by
      intro x hx
      obtain ⟨k, hk, rfl⟩ := List.mem_map.1 hx
      exact SortedMap.mem_keys_of_contains (by simpa using List.find?_eq_none.1 h k hk)
    have hle := ((List.nodup_range.map (candidate_injective ident)).subperm htaken).length_le
    simp only [SortedMap.keys, List.length_map, List.length_range] at hle
    omega
  · obtain ⟨hfree, -, htaken⟩ := List.find?_range_eq_some.1 h
    refine ⟨k, by simp only [h, Option.getD_some], by simpa [SortedMap.contains] using hfree,
      fun j hj => ?_⟩
    by_contra hlt
    have hj : names.get? (candidate ident j) = none := hj
    simpa [SortedMap.contains, hj] using htaken j (Nat.lt_of_not_le hlt)

theorem get?_freshIdent (names : SortedMap String SymbolId) (ident : String) :
    names.get? (freshIdent names ident) = none := by
  obtain ⟨k, hk, hleast⟩ := freshIdent_isLeast names ident
  exact hk ▸ hleast.1

/-! ## What is found in a table -/

/-- What is found in a scope is a symbol of that scope, under its identifier. -/
def Consistent (t : ScopeTable) : Prop :=
  ∀ sc x s, t.findIn sc x = some s → ∃ r, t.symbol? s = some r ∧ r.ident = x ∧ r.scope = sc

def isConsistent (t : ScopeTable) : Bool :=
  (List.range t.scopes.size).all fun i => (t.namesIn ⟨i⟩).entries.all fun e =>
    (t.symbol? e.2).any fun r => r.ident == e.1 && r.scope == ⟨i⟩

theorem consistent_of_isConsistent {t : ScopeTable} (h : t.isConsistent = true) : t.Consistent := by
  simp only [isConsistent, List.all_eq_true, List.mem_range, Option.any_eq_true, Bool.and_eq_true,
    beq_iff_eq] at h
  intro sc x s hs
  have hlt : sc.index < t.scopes.size := by
    by_contra hle
    rw [findIn, namesIn, scope?, Array.getElem?_eq_none (Nat.le_of_not_lt hle)] at hs
    cases hs
  exact h sc.index hlt (x, s) (SortedMap.mem_entries_of_get? hs)

/-- A table goes on from another: symbols stay as they are, scopes where they are, and what was
found is found. -/
structure Extends (t t' : ScopeTable) : Prop where
  symbols_le : t.symbols.size ≤ t'.symbols.size
  scopes_le : t.scopes.size ≤ t'.scopes.size
  symbol : ∀ s r, t.symbol? s = some r → t'.symbol? s = some r
  kind : ∀ sc k, t.kind? sc = some k → t'.kind? sc = some k
  parent : ∀ sc, sc.index < t.scopes.size → t'.parent? sc = t.parent? sc
  findIn : ∀ sc x s, t.findIn sc x = some s → t'.findIn sc x = some s

/-- A symbol of a scope that is found there. -/
def Placed (t : ScopeTable) (sc : ScopeId) (s : SymbolId) : Prop :=
  ∃ r, t.symbol? s = some r ∧ r.scope = sc ∧ t.findIn sc r.ident = some s

section

variable {t t' t'' : ScopeTable} {r : Symbol} {sc : ScopeId} {x : String} {s : SymbolId}

theorem Extends.refl (t : ScopeTable) : t.Extends t :=
  ⟨Nat.le_refl _, Nat.le_refl _, fun _ _ => id, fun _ _ => id, fun _ _ => rfl, fun _ _ _ => id⟩

theorem Extends.trans (a : t.Extends t') (b : t'.Extends t'') : t.Extends t'' where
  symbols_le := Nat.le_trans a.symbols_le b.symbols_le
  scopes_le := Nat.le_trans a.scopes_le b.scopes_le
  symbol s r h := b.symbol s r (a.symbol s r h)
  kind sc k h := b.kind sc k (a.kind sc k h)
  parent sc h := (b.parent sc (Nat.lt_of_lt_of_le h a.scopes_le)).trans (a.parent sc h)
  findIn sc x s h := b.findIn sc x s (a.findIn sc x s h)

theorem Placed.extends (h : t.Placed sc s) (ht : t.Extends t') : t'.Placed sc s := by
  obtain ⟨r, hr, hsc, hfind⟩ := h
  exact ⟨r, ht.symbol s r hr, hsc, ht.findIn sc r.ident s hfind⟩

theorem lt_of_symbol? (h : t.symbol? s = some r) : s.index < t.symbols.size := by
  unfold symbol? at h
  exact (Array.getElem?_eq_some_iff.1 h).1

/-! ## Adding a symbol -/

/-- The symbols of a table are numbered in the order in which they were added. -/
@[simp] theorem addSymbol_fst (t : ScopeTable) (s : Symbol) :
    (t.addSymbol s).1 = ⟨t.symbols.size⟩ := rfl

@[simp] theorem size_addSymbol (t : ScopeTable) (s : Symbol) :
    (t.addSymbol s).2.symbols.size = t.symbols.size + 1 := by
  simp [ScopeTable.addSymbol]

theorem symbol?_addSymbol_self (t : ScopeTable) (r : Symbol) :
    (t.addSymbol r).2.symbol? ⟨t.symbols.size⟩ = some r := by
  simp [symbol?, addSymbol]

theorem symbol?_addSymbol (h : t.symbol? s = some r) (r' : Symbol) :
    (t.addSymbol r').2.symbol? s = some r := by
  have hlt := lt_of_symbol? h
  rw [symbol?, addSymbol, Array.getElem?_push, if_neg (Nat.ne_of_lt hlt)]
  exact h

theorem scope?_addSymbol (t : ScopeTable) (r : Symbol) (sc : ScopeId) :
    (t.addSymbol r).2.scope? sc =
    if r.scope.index = sc.index then
      (t.scope? sc).map fun c => { c with names := c.names.insert r.ident ⟨t.symbols.size⟩ }
    else t.scope? sc := by
  rw [scope?, addSymbol, Array.getElem?_modify]
  rfl

theorem findIn_addSymbol_self (h : r.scope.index < t.scopes.size) :
    (t.addSymbol r).2.findIn r.scope r.ident = some ⟨t.symbols.size⟩ := by
  rw [ScopeTable.findIn, namesIn, scope?_addSymbol, if_pos rfl, scope?, Array.getElem?_eq_getElem h]
  exact SortedMap.get?_insert_self _ _ _

theorem findIn_addSymbol_of_ne (h : sc ≠ r.scope ∨ x ≠ r.ident) :
    (t.addSymbol r).2.findIn sc x = t.findIn sc x := by
  rw [ScopeTable.findIn, namesIn, scope?_addSymbol]
  split
  · next heq =>
    have hx : compare x r.ident ≠ .eq := fun hc => by
      have hsc : sc = r.scope := by
        cases sc
        exact congrArg ScopeId.mk heq.symm
      exact h.elim (· hsc) (· (Std.LawfulEqOrd.eq_of_compare hc))
    rw [ScopeTable.findIn, namesIn]
    rcases t.scope? sc with _ | c
    · rfl
    · exact SortedMap.get?_insert_of_ne _ hx _
  · rfl

theorem findIn_addSymbol (h : (t.addSymbol r).2.findIn sc x = some s) :
    t.findIn sc x = some s ∨ sc = r.scope ∧ x = r.ident ∧ s = ⟨t.symbols.size⟩ := by
  by_cases hne : sc ≠ r.scope ∨ x ≠ r.ident
  · exact .inl (findIn_addSymbol_of_ne hne ▸ h)
  · obtain ⟨rfl, rfl⟩ : sc = r.scope ∧ x = r.ident := by simpa [not_or] using hne
    by_cases hlt : r.scope.index < t.scopes.size
    · rw [findIn_addSymbol_self hlt] at h
      exact .inr ⟨rfl, rfl, (Option.some.inj h).symm⟩
    · rw [ScopeTable.findIn, namesIn, scope?_addSymbol, if_pos rfl, scope?,
        Array.getElem?_eq_none (Nat.le_of_not_lt hlt)] at h
      cases h

/-- A name of the root scope was there before, or it is the new one. -/
theorem rootName_addSymbol (h : (t.addSymbol r).2.rootName x = some s) :
    t.rootName x = some s ∨ s = ⟨t.symbols.size⟩ := (findIn_addSymbol h).imp_right (·.2.2)

theorem Consistent.addSymbol (ht : t.Consistent) (r : Symbol) : (t.addSymbol r).2.Consistent := by
  intro sc x s h
  rcases findIn_addSymbol h with h | ⟨rfl, rfl, rfl⟩
  · obtain ⟨r', hr', hx, hsc⟩ := ht sc x s h
    exact ⟨r', symbol?_addSymbol hr' r, hx, hsc⟩
  · exact ⟨r, symbol?_addSymbol_self t r, rfl, rfl⟩

theorem parent?_addSymbol (t : ScopeTable) (r : Symbol) (sc : ScopeId) :
    (t.addSymbol r).2.parent? sc = t.parent? sc := by
  rw [parent?, scope?_addSymbol]
  split
  · rw [parent?]
    cases t.scope? sc <;> rfl
  · rfl

theorem kind?_addSymbol (t : ScopeTable) (r : Symbol) (sc : ScopeId) :
    (t.addSymbol r).2.kind? sc = t.kind? sc := by
  rw [kind?, scope?_addSymbol]
  split
  · rw [kind?]
    cases t.scope? sc <;> rfl
  · rfl

/-- Nothing is lost if the identifier is free in the scope. -/
theorem extends_addSymbol (h : t.findIn r.scope r.ident = none) : t.Extends (t.addSymbol r).2 where
  symbols_le := by simp
  scopes_le := by simp [ScopeTable.addSymbol]
  symbol s r' hs := symbol?_addSymbol hs r
  kind sc k hk := (kind?_addSymbol t r sc).trans hk
  parent sc _ := parent?_addSymbol t r sc
  findIn sc x s hs := by
    rw [findIn_addSymbol_of_ne, hs]
    by_contra hne
    obtain ⟨rfl, rfl⟩ : sc = r.scope ∧ x = r.ident := by simpa [not_or] using hne
    rw [h] at hs
    cases hs

theorem placed_addSymbol (h : r.scope.index < t.scopes.size) :
    (t.addSymbol r).2.Placed r.scope ⟨t.symbols.size⟩ :=
  ⟨r, symbol?_addSymbol_self t r, rfl, findIn_addSymbol_self h⟩

/-! ## Declaring a symbol of its own -/

/-- The record of a symbol that is declared under a fresh identifier. -/
def freshSymbol (t : ScopeTable) (sc : ScopeId) (ident short : String) : Symbol :=
  ⟨freshIdent (t.namesIn sc) ident, short, sc, true⟩

theorem declareUnique_eq (t : ScopeTable) (sc : ScopeId) (ident short : String) :
    t.declareUnique sc ident short = t.addSymbol (t.freshSymbol sc ident short) := rfl

theorem extends_declareUnique (t : ScopeTable) (sc : ScopeId) (ident short : String) :
    t.Extends (t.declareUnique sc ident short).2 :=
  extends_addSymbol (get?_freshIdent (t.namesIn sc) ident)

/-! ## Opening a scope -/

theorem scope?_newScope (t : ScopeTable) (k : ScopeKind) (parent sc : ScopeId) :
    (t.newScope k parent).2.scope? sc =
      if sc.index = t.scopes.size then some ⟨k, some parent, ∅⟩ else t.scope? sc := by
  rw [scope?, newScope, addScope, Array.getElem?_push]
  rfl

theorem findIn_newScope (t : ScopeTable) (k : ScopeKind) (parent sc : ScopeId) (x : String) :
    (t.newScope k parent).2.findIn sc x = t.findIn sc x := by
  rw [ScopeTable.findIn, namesIn, scope?_newScope]
  split
  · next h =>
    rw [ScopeTable.findIn, namesIn, scope?, h, Array.getElem?_eq_none (Nat.le_refl _)]
    rfl
  · rfl

/-- A new scope has no names. -/
theorem findIn_newScope_self (t : ScopeTable) (k : ScopeKind) (parent : ScopeId) (x : String) :
    (t.newScope k parent).2.findIn (t.newScope k parent).1 x = none := by
  have hscope : (t.newScope k parent).1.index = t.scopes.size := rfl
  rw [ScopeTable.findIn, namesIn, scope?_newScope, if_pos hscope]
  rfl

theorem rootName_newScope {k : ScopeKind} {parent : ScopeId}
    (h : (t.newScope k parent).2.rootName x = some s) :
    t.rootName x = some s := (findIn_newScope t k parent root x).symm.trans h

theorem parent?_newScope (t : ScopeTable) (k : ScopeKind) (parent sc : ScopeId) :
    (t.newScope k parent).2.parent? sc =
      if sc.index = t.scopes.size then some parent else t.parent? sc := by
  rw [parent?, scope?_newScope]
  split <;> rfl

theorem Consistent.newScope (ht : t.Consistent) (k : ScopeKind) (parent : ScopeId) :
    (t.newScope k parent).2.Consistent :=
  fun sc x s h => ht sc x s (findIn_newScope t k parent sc x ▸ h)

theorem extends_newScope (t : ScopeTable) (k : ScopeKind) (parent : ScopeId) :
    t.Extends (t.newScope k parent).2 where
  symbols_le := Nat.le_refl _
  scopes_le := by simp [newScope, addScope]
  symbol _ _ := id
  kind sc k' h := by
    have hlt : sc.index < t.scopes.size := by
      unfold kind? scope? at h
      obtain ⟨c, hc, -⟩ := Option.map_eq_some_iff.1 h
      exact (Array.getElem?_eq_some_iff.1 hc).1
    rw [kind?, scope?_newScope, if_neg (Nat.ne_of_lt hlt)]
    exact h
  parent sc h := by rw [parent?_newScope, if_neg (Nat.ne_of_lt h)]
  findIn sc x s h := by rwa [findIn_newScope]

/-! ## Adding names of another kind -/

/-- A table goes on from another, and the names that came in are none that every environment
provides. -/
structure Adds (t t' : ScopeTable) : Prop extends t.Extends t' where
  found : ∀ sc x s, t'.findIn sc x = some s → t.findIn sc x = some s ∨ t.symbols.size ≤ s.index ∧
    x ∉ rootNames

theorem Adds.refl (t : ScopeTable) : t.Adds t := ⟨.refl t, fun _ _ _ => .inl⟩

theorem Adds.trans (a : t.Adds t') (b : t'.Adds t'') : t.Adds t'' where
  toExtends := a.toExtends.trans b.toExtends
  found sc x s h := by
    rcases b.found sc x s h with h | ⟨hle, hx⟩
    · exact a.found sc x s h
    · exact .inr ⟨Nat.le_trans a.symbols_le hle, hx⟩

theorem adds_addSymbol (h : t.findIn r.scope r.ident = none) (hx : r.ident ∉ rootNames) :
    t.Adds (t.addSymbol r).2 where
  toExtends := extends_addSymbol h
  found _ _ _ h := (findIn_addSymbol h).imp_right fun ⟨_, hident, hs⟩ =>
    ⟨hs ▸ Nat.le_refl _, hident ▸ hx⟩

theorem adds_newScope (t : ScopeTable) (k : ScopeKind) (parent : ScopeId) :
    t.Adds (t.newScope k parent).2 where
  toExtends := t.extends_newScope k parent
  found _ _ _ h := .inl (findIn_newScope t k parent _ _ ▸ h)

/-- No name that every environment provides begins like those that are made up. -/
theorem not_mem_rootNames (hx : x.toList.take 2 = ['$', 'e']) : x ∉ rootNames := by
  intro h
  simp only [rootNames, List.mem_cons, List.not_mem_nil, or_false] at h
  rcases h with rfl | rfl | rfl | rfl | rfl | rfl | rfl <;> simp at hx

theorem adds_declareUnique (t : ScopeTable) (sc : ScopeId) {ident : String}
    (hident : ident.toList.take 2 = ['$', 'e']) (short : String) :
    t.Adds (t.declareUnique sc ident short).2 := by
  refine adds_addSymbol (get?_freshIdent (t.namesIn sc) ident) (not_mem_rootNames ?_)
  obtain ⟨k, hk, -⟩ := freshIdent_isLeast (t.namesIn sc) ident
  obtain ⟨rest, hrest⟩ := toList_candidate ident k
  have hlength : 2 ≤ ident.toList.length := by
    have := congrArg List.length hident
    rw [List.length_take] at this
    simp only [List.length_cons, List.length_nil] at this
    omega
  rw [hk, hrest, List.take_append_of_le_length hlength, hident]

end

end ScopeTable

end FrameLedger
