import FrameLedger.Proofs.Framing
import FrameLedger.Proofs.Tables

/-!
# Working on a function

A function is worked on in a `Draft`, which hands out the variables of its frame as they are asked
for. `Draft.Sound` says what holds of every draft, `Draft.Extends` how one goes on from another, and
`Draft.Gives` what a piece of work makes, with regard to the frame that the finished draft will
have.
-/

namespace FrameLedger

open Draft

namespace Locals

theorem mem_of_earlyExit? {l : Locals} {c : CleanupId} {s : SymbolId}
    (h : l.earlyExit? c = some s) :
    (c, s) ∈ l.earlyExits := by
  unfold earlyExit? at h
  obtain ⟨e, he, rfl⟩ := Option.map_eq_some_iff.1 h
  have hc : e.1 = c := by simpa using List.find?_some he
  have hmem := List.mem_of_find?_eq_some he
  rwa [← hc]

theorem earlyExit?_append {es fs : List (CleanupId × SymbolId)} {l : Locals}
    (h : l.earlyExits = es ++ fs) (c : CleanupId) :
    l.earlyExit? c =
      (((es.find? (·.1 == c)).map (·.2)).or ((fs.find? (·.1 == c)).map (·.2))) := by
  simp only [earlyExit?, h, List.find?_append, Option.map_or]

/-- A variable is declared and then put somewhere. -/
theorem run_declare_modify (g : SymbolId → Locals → Locals) (ident short : String) (l : Locals) :
    (do
      let s ← declare ident short
      modify (g s)
      return s : StateM Locals SymbolId).run l =
    (⟨l.table.symbols.size⟩, g ⟨l.table.symbols.size⟩ { l with
      table := (l.table.declareUnique l.scope ident short).2
      pending := l.pending ++ [⟨l.table.symbols.size⟩] }) := rfl

theorem run_earlyExitVar_some {c : CleanupId} {l : Locals} {s : SymbolId}
    (h : l.earlyExit? c = some s) :
    (earlyExitVar c).run l = (s, l) := by
  unfold earlyExitVar
  rw [StateT.run_bind, StateT.run_get, pure_bind]
  simp only [h]
  rfl

theorem run_earlyExitVar {c : CleanupId} {l : Locals} (h : l.earlyExit? c = none) : ∃ n : Nat,
    (earlyExitVar c).run l = (⟨l.table.symbols.size⟩, { l with
      table := (l.table.declareUnique l.scope ("$es_exitingEarly" ++ toString n) "exitingEarly").2
      pending := l.pending ++ [⟨l.table.symbols.size⟩]
      earlyExits := l.earlyExits ++ [(c, ⟨l.table.symbols.size⟩)] }) := by
  unfold earlyExitVar
  rw [StateT.run_bind, StateT.run_get, pure_bind]
  simp only [h]
  exact ⟨_, run_declare_modify (fun s l => { l with earlyExits := l.earlyExits ++ [(c, s)] }) _ _ l⟩

/-- The parameter is new, since its scope is. -/
theorem run_catchParam (l : Locals) : catchParam.run l =
    let (sc, t) := l.table.newScope .catch l.scope
    ((sc, ⟨l.table.symbols.size⟩), { l with table := (t.addSymbol ⟨"e", "e", sc, true⟩).2 }) := by
  have hnew := l.table.findIn_newScope_self .catch l.scope "e"
  have hrun : catchParam.run l = (((l.table.newScope .catch l.scope).1,
      ((l.table.newScope .catch l.scope).2.declare (l.table.newScope .catch l.scope).1 "e").1),
      { l with
        table := ((l.table.newScope .catch l.scope).2.declare
          (l.table.newScope .catch l.scope).1 "e").2 }) := rfl
  rw [hrun, ScopeTable.declare, hnew]
  rfl

end Locals

/-- What an expression may become where it is used like this. -/
def Site.Used (K : Site) : Usage → (Expr → Prop) → Expr → Prop
  | .value, framed, e' => K.Noted framed e'
  | .target, framed, e' | .reference, framed, e' => framed e'

theorem Site.Used.of_framed {K : Site} {framed : Expr → Prop} {e' : Expr} (u : Usage)
    (h : framed e') :
    K.Used u framed e' := by
  cases u with
  | value => exact .inl h
  | target | reference => exact h

namespace Draft

/-- What holds of a draft whose own symbols are numbered from `lo` on. -/
structure Sound (v : StackVars) (lo : Nat) (d : Draft) : Prop where
  lo_le : lo ≤ d.locals.table.symbols.size
  pending : ∀ s ∈ d.locals.pending, lo ≤ s.index ∧ s.index < d.locals.table.symbols.size
  frameIndex : ∀ s, d.locals.frameIndex = some s → s ∈ d.locals.pending
  returnTemp : ∀ s, d.locals.returnTemp = some s → s ∈ d.locals.pending
  earlyExits : ∀ e ∈ d.locals.earlyExits, e.2 ∈ d.locals.pending
  temp_ne : ∀ s, d.locals.returnTemp = some s → d.locals.frameIndex ≠ some s
  index_ne : ∀ s, d.locals.frameIndex = some s → ∀ e ∈ d.locals.earlyExits, e.2 ≠ s
  temp_not_flag : ∀ s, d.locals.returnTemp = some s → ∀ e ∈ d.locals.earlyExits, e.2 ≠ s
  recorder : ∀ r, d.recorder = some r → v.location = some r.location
  vars : ∀ s, v.Uses s → s.index < lo
  roots : ∀ x s, d.locals.table.rootName x = some s → ¬ v.Uses s

/-- A draft goes on from another: what has been handed out stays, and what is handed out is new. -/
structure Extends (d d' : Draft) : Prop where
  table : d.locals.table.Adds d'.locals.table
  frameIndex : ∀ s, d.locals.frameIndex = some s → d'.locals.frameIndex = some s
  returnTemp : ∀ s, d.locals.returnTemp = some s → d'.locals.returnTemp = some s
  earlyExit : ∀ c s, d.locals.earlyExit? c = some s → d'.locals.earlyExit? c = some s
  pending : ∀ s ∈ d'.locals.pending, s ∈ d.locals.pending ∨ d.locals.table.symbols.size ≤ s.index

/-- The frame of a finished draft. -/
def own (d : Draft) : Own :=
  ⟨d.locals.frameIndex.getD ⟨0⟩, d.locals.returnTemp, d.locals.earlyExits.map (·.2)⟩

variable {α β : Type} {v : StackVars} {lo : Nat} {d d' d'' : Draft}

theorem Extends.refl (d : Draft) : d.Extends d :=
  ⟨.refl _, fun _ => id, fun _ => id, fun _ _ => id, fun _ => .inl⟩

theorem Extends.table_le (h : d.Extends d') :
    d.locals.table.symbols.size ≤ d'.locals.table.symbols.size :=
  h.table.symbols_le

theorem Extends.trans (a : d.Extends d') (b : d'.Extends d'') : d.Extends d'' where
  table := a.table.trans b.table
  frameIndex s h := b.frameIndex s (a.frameIndex s h)
  returnTemp s h := b.returnTemp s (a.returnTemp s h)
  earlyExit c s h := b.earlyExit c s (a.earlyExit c s h)
  pending s hs := by
    rcases b.pending s hs with hs | hs
    · exact a.pending s hs
    · exact .inr (Nat.le_trans a.table_le hs)

/-- Nothing about the variables has changed. -/
theorem Extends.of_locals_eq (h : d'.locals = d.locals) : d.Extends d' := by
  have := Extends.refl d
  exact ⟨h ▸ this.table, h ▸ this.frameIndex, h ▸ this.returnTemp, h ▸ this.earlyExit,
    h ▸ this.pending⟩

theorem Sound.of_locals_eq (hd : d.Sound v lo) (h : d'.locals = d.locals)
    (hr : ∀ r, d'.recorder = some r → v.location = some r.location) : d'.Sound v lo :=
  ⟨h ▸ hd.lo_le, h ▸ hd.pending, h ▸ hd.frameIndex, h ▸ hd.returnTemp, h ▸ hd.earlyExits,
    h ▸ hd.temp_ne, h ▸ hd.index_ne, h ▸ hd.temp_not_flag, hr, hd.vars, h ▸ hd.roots⟩

/-- Work on a function begins with nothing handed out. -/
theorem Sound.start {t : ScopeTable} {recorder : Option Recorder}
    (hrecorder : ∀ r, recorder = some r → v.location = some r.location)
    (hvars : ∀ s, v.Uses s → s.index < t.symbols.size)
    (hroots : ∀ x s, t.rootName x = some s → ¬ v.Uses s) (sc : ScopeId) :
    Sound v t.symbols.size { locals := { table := t, scope := sc }, recorder } where
  lo_le := Nat.le_refl _
  pending _ h := nomatch h
  frameIndex _ h := nomatch h
  returnTemp _ h := nomatch h
  earlyExits _ h := nomatch h
  temp_ne _ h := nomatch h
  index_ne _ h := nomatch h
  temp_not_flag _ h := nomatch h
  recorder := hrecorder
  vars := hvars
  roots := hroots

/-- What work on a draft makes. `P` may look at the draft as it is then and at the finished one. -/
def Gives (v : StackVars) (lo : Nat) (d : Draft) (x : StateM Draft α)
    (P : Draft → Draft → α → Prop) : Prop :=
  d.Extends (x.run d).2 ∧ (x.run d).2.Sound v lo ∧
    ∀ D, D.Sound v lo → (x.run d).2.Extends D → P (x.run d).2 D (x.run d).1

namespace Gives

variable {x : StateM Draft α} {f : α → StateM Draft β} {P P' : Draft → Draft → α → Prop}
  {Q : Draft → Draft → β → Prop}

theorem pure {a : α} (hd : d.Sound v lo) (ha : ∀ D, D.Sound v lo → d.Extends D → P d D a) :
    d.Gives v lo (pure a) P := ⟨.refl d, hd, ha⟩

/-- What comes second knows that it goes on from where the first began. -/
theorem bind_since (hx : d.Gives v lo x P) (hf : ∀ a (d₁ : Draft), d.Extends d₁ → d₁.Sound v lo →
    d₁.Gives v lo (f a) fun d' D b => d₁.Extends d' → P d₁ D a → Q d' D b) :
    d.Gives v lo (x >>= f) Q := by
  obtain ⟨hext, hsound, hP⟩ := hx
  obtain ⟨hext', hsound', hQ⟩ := hf (x.run d).1 (x.run d).2 hext hsound
  exact ⟨hext.trans hext', hsound', fun D hD h => hQ D hD h hext' (hP D hD (hext'.trans h))⟩

theorem bind (hx : d.Gives v lo x P) (hf : ∀ a (d₁ : Draft), d₁.Sound v lo →
    d₁.Gives v lo (f a) fun d' D b => d₁.Extends d' → P d₁ D a → Q d' D b) :
    d.Gives v lo (x >>= f) Q :=
  hx.bind_since fun a d₁ _ => hf a d₁

theorem mono (hx : d.Gives v lo x P)
    (h : ∀ (d' D : Draft) a, d'.Sound v lo → D.Sound v lo → d'.Extends D → P d' D a →
    P' d' D a) : d.Gives v lo x P' :=
  ⟨hx.1, hx.2.1, fun D hD hext => h _ D _ hx.2.1 hD hext (hx.2.2 D hD hext)⟩

theorem get_bind {f : Draft → StateM Draft β} (h : d.Gives v lo (f d) Q) :
    d.Gives v lo (get >>= f) Q := h

end Gives

/-! ## Handing out variables -/

section

variable {ident short : String}

theorem run_onLocals (x : StateM Locals α) (d : Draft) :
    (onLocals x).run d = ((x.run d.locals).1, { d with locals := (x.run d.locals).2 }) := rfl

/-- A variable that is handed out is new. -/
theorem Sound.lt (hd : d.Sound v lo) {s : SymbolId} (hs : s ∈ d.locals.pending) :
    s ≠ ⟨d.locals.table.symbols.size⟩ := by
  rintro rfl
  exact Nat.lt_irrefl _ (hd.pending _ hs).2

/-- A symbol of the draft does not hold the stack. -/
theorem Sound.not_uses (hd : d.Sound v lo) {s : SymbolId} (hs : lo ≤ s.index) : ¬ v.Uses s :=
  fun hu => Nat.not_le_of_lt (hd.vars s hu) hs

theorem Sound.roots_declared (hd : d.Sound v lo) (x : Symbol) (ident : String) (s : SymbolId)
    (h : (d.locals.table.addSymbol x).2.rootName ident = some s) : ¬ v.Uses s := by
  rcases ScopeTable.rootName_addSymbol h with h | rfl
  · exact hd.roots ident s h
  · exact hd.not_uses hd.lo_le

/-- The draft after a variable was declared, whatever it is for. -/
theorem pending_declared (hd : d.Sound v lo) {t : ScopeTable}
    (ht : t.symbols.size = d.locals.table.symbols.size + 1) (s : SymbolId)
    (hs : s ∈ d.locals.pending ++ [⟨d.locals.table.symbols.size⟩]) :
    lo ≤ s.index ∧ s.index < t.symbols.size := by
  rcases List.mem_append.1 hs with hs | hs
  · obtain ⟨h₁, h₂⟩ := hd.pending s hs
    omega
  · rw [List.mem_singleton.1 hs, ht]
    exact ⟨hd.lo_le, Nat.lt_succ_self _⟩

theorem extends_declared {l : Locals} (ht : d.locals.table.Adds l.table)
    (hf : ∀ s, d.locals.frameIndex = some s → l.frameIndex = some s)
    (hr : ∀ s, d.locals.returnTemp = some s → l.returnTemp = some s)
    (he : ∀ c s, d.locals.earlyExit? c = some s → l.earlyExit? c = some s)
    (hp : l.pending = d.locals.pending ++ [⟨d.locals.table.symbols.size⟩]) :
    d.Extends { d with locals := l } where
  table := ht
  frameIndex := hf
  returnTemp := hr
  earlyExit := he
  pending s hs := by
    rw [hp] at hs
    refine (List.mem_append.1 hs).imp_right fun hs => ?_
    exact Nat.le_of_eq (congrArg SymbolId.index (List.mem_singleton.1 hs).symm)

theorem run_frameIndex (h : d.locals.frameIndex = none) :
    frameIndex.run d = (⟨d.locals.table.symbols.size⟩, { d with locals := { d.locals with
      table := (d.locals.table.declareUnique d.locals.scope "$es_stackIndex" "stackIndex").2
      pending := d.locals.pending ++ [⟨d.locals.table.symbols.size⟩]
      frameIndex := some ⟨d.locals.table.symbols.size⟩ } }) := by
  simp [frameIndex, onLocals, Locals.frameIndexVar, Locals.declare, h]
  rfl

theorem run_frameIndex_some {s : SymbolId} (h : d.locals.frameIndex = some s) :
    frameIndex.run d = (s, d) := by
  simp [frameIndex, onLocals, Locals.frameIndexVar, h]
  rfl

theorem run_returnTemp (h : d.locals.returnTemp = none) :
    (onLocals Locals.returnTempVar).run d =
      (⟨d.locals.table.symbols.size⟩, { d with locals := { d.locals with
      table := (d.locals.table.declareUnique d.locals.scope "$es_returnTemp" "returnTemp").2
      pending := d.locals.pending ++ [⟨d.locals.table.symbols.size⟩]
      returnTemp := some ⟨d.locals.table.symbols.size⟩ } }) := by
  simp [onLocals, Locals.returnTempVar, Locals.declare, h]
  rfl

theorem run_returnTemp_some {s : SymbolId} (h : d.locals.returnTemp = some s) :
    (onLocals Locals.returnTempVar).run d = (s, d) := by
  simp [onLocals, Locals.returnTempVar, h]
  rfl

theorem run_earlyExit {c : CleanupId} (h : d.locals.earlyExit? c = none) : ∃ n : Nat,
    (onLocals (Locals.earlyExitVar c)).run d =
      (⟨d.locals.table.symbols.size⟩, { d with locals := { d.locals with
      table :=
  (d.locals.table.declareUnique d.locals.scope ("$es_exitingEarly" ++ toString n) "exitingEarly").2
      pending := d.locals.pending ++ [⟨d.locals.table.symbols.size⟩]
      earlyExits := d.locals.earlyExits ++ [(c, ⟨d.locals.table.symbols.size⟩)] } }) := by
  obtain ⟨n, hrun⟩ := Locals.run_earlyExitVar h
  exact ⟨n, by rw [run_onLocals, hrun]⟩

theorem run_earlyExit_some {c : CleanupId} {s : SymbolId} (h : d.locals.earlyExit? c = some s) :
    (onLocals (Locals.earlyExitVar c)).run d = (s, d) := by
  rw [run_onLocals, Locals.run_earlyExitVar_some h]

theorem gives_frameIndex (hd : d.Sound v lo) :
    d.Gives v lo frameIndex fun _ D s => D.locals.frameIndex = some s := by
  rcases hi : d.locals.frameIndex with _ | s
  · rw [Gives, run_frameIndex hi]
    refine ⟨extends_declared (ScopeTable.adds_declareUnique _ _ (by decide) _) (by simp [hi])
      (fun _ => id) (fun _ _ => id) rfl, ?_, fun D _ h => h.frameIndex _ rfl⟩
    exact {
      lo_le := Nat.le_trans hd.lo_le (by simp [ScopeTable.declareUnique])
      pending := pending_declared hd (by simp [ScopeTable.declareUnique])
      frameIndex := fun s hs => List.mem_append_right _ (by simpa using hs.symm)
      returnTemp := fun s hs => List.mem_append_left _ (hd.returnTemp s hs)
      earlyExits := fun e he => List.mem_append_left _ (hd.earlyExits e he)
      temp_ne := fun s hs hi => hd.lt (hd.returnTemp s hs) (Option.some.inj hi).symm
      index_ne :=
        fun s hs e he heq => hd.lt (hd.earlyExits e he) (heq.trans (Option.some.inj hs).symm)
      temp_not_flag := hd.temp_not_flag
      recorder := hd.recorder
      vars := hd.vars
      roots := hd.roots_declared _ }
  · rw [Gives, run_frameIndex_some hi]
    exact ⟨.refl d, hd, fun D _ h => h.frameIndex s hi⟩

theorem gives_returnTemp (hd : d.Sound v lo) :
    d.Gives v lo (onLocals Locals.returnTempVar) fun _ D s => D.locals.returnTemp = some s := by
  rcases hi : d.locals.returnTemp with _ | s
  · rw [Gives, run_returnTemp hi]
    refine ⟨extends_declared (ScopeTable.adds_declareUnique _ _ (by decide) _) (fun _ => id)
      (by simp [hi]) (fun _ _ => id) rfl, ?_, fun D _ h => h.returnTemp _ rfl⟩
    exact {
      lo_le := Nat.le_trans hd.lo_le (by simp [ScopeTable.declareUnique])
      pending := pending_declared hd (by simp [ScopeTable.declareUnique])
      frameIndex := fun s hs => List.mem_append_left _ (hd.frameIndex s hs)
      returnTemp := fun s hs => List.mem_append_right _ (by simpa using hs.symm)
      earlyExits := fun e he => List.mem_append_left _ (hd.earlyExits e he)
      temp_ne := fun s hs hi => hd.lt (hd.frameIndex s hi) (Option.some.inj hs).symm
      index_ne := hd.index_ne
      temp_not_flag :=
        fun s hs e he heq => hd.lt (hd.earlyExits e he) (heq.trans (Option.some.inj hs).symm)
      recorder := hd.recorder
      vars := hd.vars
      roots := hd.roots_declared _ }
  · rw [Gives, run_returnTemp_some hi]
    exact ⟨.refl d, hd, fun D _ h => h.returnTemp s hi⟩

theorem gives_earlyExit (hd : d.Sound v lo) (c : CleanupId) :
    d.Gives v lo (onLocals (Locals.earlyExitVar c)) fun d' _ s =>
      d'.locals.earlyExit? c = some s := by
  rcases hi : d.locals.earlyExit? c with _ | s
  · obtain ⟨n, hrun⟩ := run_earlyExit hi
    rw [Gives, hrun]
    have hmem {e : CleanupId × SymbolId}
        (he : e ∈ d.locals.earlyExits ++ [(c, ⟨d.locals.table.symbols.size⟩)]) :
        e ∈ d.locals.earlyExits ∨ e.2 = ⟨d.locals.table.symbols.size⟩ :=
      (List.mem_append.1 he).imp_right fun he => congrArg Prod.snd (List.mem_singleton.1 he)
    have hident : ("$es_exitingEarly" ++ toString n).toList.take 2 = ['$', 'e'] := by
      simp [String.toList_append]
    refine ⟨extends_declared (ScopeTable.adds_declareUnique _ _ hident _) (fun _ => id)
      (fun _ => id) (fun c' s hs => ?_) rfl, ?_, fun D _ h => ?_⟩
    · rw [Locals.earlyExit?_append rfl]
      exact Option.or_eq_some_iff.2 (.inl hs)
    · exact {
        lo_le := Nat.le_trans hd.lo_le (by simp [ScopeTable.declareUnique])
        pending := pending_declared hd (by simp [ScopeTable.declareUnique])
        frameIndex := fun s hs => List.mem_append_left _ (hd.frameIndex s hs)
        returnTemp := fun s hs => List.mem_append_left _ (hd.returnTemp s hs)
        earlyExits :=
          fun e he => List.mem_append.2 ((hmem he).imp (hd.earlyExits e) fun h => by simp [h])
        temp_ne := hd.temp_ne
        index_ne := fun s hs e he => (hmem he).elim (hd.index_ne s hs e) fun h heq =>
          hd.lt (hd.frameIndex s hs) (heq.symm.trans h)
        temp_not_flag := fun s hs e he => (hmem he).elim (hd.temp_not_flag s hs e) fun h heq =>
          hd.lt (hd.returnTemp s hs) (heq.symm.trans h)
        recorder := hd.recorder
        vars := hd.vars
        roots := hd.roots_declared _ }
    · rw [Locals.earlyExit?_append rfl]
      exact Option.or_eq_some_iff.2 (.inr ⟨hi, by simp⟩)
  · rw [Gives, run_earlyExit_some hi]
    exact ⟨.refl d, hd, fun D _ _ => hi⟩

theorem gives_nextCleanup (hd : d.Sound v lo) :
    d.Gives v lo (onLocals Locals.nextCleanup) fun _ _ _ => True :=
  ⟨⟨.refl _, fun _ => id, fun _ => id, fun _ _ => id, fun _ => .inl⟩,
    ⟨hd.lo_le, hd.pending, hd.frameIndex, hd.returnTemp, hd.earlyExits, hd.temp_ne, hd.index_ne,
      hd.temp_not_flag, hd.recorder, hd.vars, hd.roots⟩, fun _ _ _ => trivial⟩

theorem gives_count (hd : d.Sound v lo) (s : Stats) : d.Gives v lo (count s) fun _ _ _ => True :=
  ⟨.of_locals_eq rfl, hd.of_locals_eq rfl hd.recorder, fun _ _ _ => trivial⟩

theorem gives_forget (hd : d.Sound v lo) : d.Gives v lo forget fun _ _ _ => True := by
  refine ⟨.of_locals_eq rfl, hd.of_locals_eq rfl fun r hr => ?_, fun _ _ _ => trivial⟩
  obtain ⟨r', hr', rfl⟩ := Option.map_eq_some_iff.1 hr
  exact hd.recorder r' hr'

theorem run_catchParam (l : Locals) : ∃ sc t, Locals.catchParam.run l =
    ((sc, ⟨l.table.symbols.size⟩), { l with table := t }) ∧
      t.symbols.size = l.table.symbols.size + 1 ∧
      l.table.Adds t ∧ ∀ x s, t.rootName x = some s → l.table.rootName x = some s ∨
        s = ⟨l.table.symbols.size⟩ := by
  refine ⟨_, _, l.run_catchParam, ScopeTable.size_addSymbol .., ?_, fun x s h => ?_⟩
  · have he : "e" ∉ rootNames := by decide
    exact (l.table.adds_newScope .catch l.scope).trans
      (ScopeTable.adds_addSymbol (l.table.findIn_newScope_self .catch l.scope "e") he)
  · exact (ScopeTable.rootName_addSymbol h).imp_left ScopeTable.rootName_newScope

/-- The parameter of a catch clause is no variable of the frame. -/
theorem gives_catchParam (hd : d.Sound v lo) :
    d.Gives v lo (onLocals Locals.catchParam) fun _ D x =>
    lo ≤ x.2.index ∧ x.2 ∉ D.locals.pending := by
  obtain ⟨sc, t, hrun, ht, hadds, hroots⟩ := run_catchParam d.locals
  rw [Gives, run_onLocals, hrun]
  have hle : d.locals.table.symbols.size ≤ t.symbols.size := by omega
  refine ⟨⟨hadds, fun _ => id, fun _ => id, fun _ _ => id, fun _ => .inl⟩,
    ⟨Nat.le_trans hd.lo_le hle, ?_, hd.frameIndex, hd.returnTemp, hd.earlyExits, hd.temp_ne,
    hd.index_ne, hd.temp_not_flag, hd.recorder, hd.vars, fun x s h => ?_⟩, ?_⟩
  · exact fun s hs => ⟨(hd.pending s hs).1, Nat.lt_of_lt_of_le (hd.pending s hs).2 hle⟩
  · rcases hroots x s h with h | rfl
    · exact hd.roots x s h
    · exact hd.not_uses hd.lo_le
  · refine fun D _ hext => ⟨hd.lo_le, fun hmem => ?_⟩
    rcases hext.pending _ hmem with h | h
    · exact hd.lt h rfl
    · simp only [ht] at h
      omega

theorem own_index {D : Draft} {s : SymbolId} (h : D.locals.frameIndex = some s) :
    D.own.index = s := by
  simp [own, h]

/-- An expression may come with a note of its location in front. -/
theorem gives_record (hd : d.Sound v lo) (L : Layout) (hv : L.vars = v) (u : Usage) {e : Expr}
    (he : e.isDeclaration = false) : d.Gives v lo (record u e) fun _ D e' => ∀ framed : Expr → Prop,
      framed e → Site.Used ⟨L, some D.own⟩ u framed e' := by
  subst hv
  refine .get_bind ?_
  split
  · exact .pure hd fun D _ _ framed hf => .of_framed u hf
  · next r hr =>
    split
    · exact .pure hd fun D _ _ framed hf => .of_framed u hf
    · next hcond =>
      obtain rfl : u = .value := Decidable.byContradiction fun hne => by simp [hne] at hcond
      have hmodify : d.Gives L.vars lo
          (modify fun d : Draft => { d with recorder := some { r with last := some e.pos } })
          fun _ _ _ => True :=
        ⟨.of_locals_eq rfl, hd.of_locals_eq rfl fun r' hr' => by
          obtain rfl := Option.some.inj hr'
          exact hd.recorder r hr, fun _ _ _ => trivial⟩
      refine hmodify.bind fun _ d₁ hd₁ => (gives_frameIndex hd₁).bind fun index d₂ hd₂ =>
        (gives_count hd₂ _).bind fun _ d₃ hd₃ => .pure hd₃ fun D _ _ _ _ _ hi _ _ framed hf => ?_
      exact .inr ⟨D.own, r, e, rfl, hd.recorder r hr, hf, he, by rw [own_index hi]⟩

end

end Draft

end FrameLedger
