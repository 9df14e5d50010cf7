import FrameLedger.Proofs.Placing

/-!
# Code for leaving a function, placed

What a stretch of statements becomes (`Exits.Lays`) is put together like the list of its statements.
The induction is on statements (`Exits.settles_stmt`), where the region that the work is in agrees
with the `try` statements around. `Func.placed_framed` is what comes out for a function.
-/

namespace FrameLedger

open Draft

/-! ## The order of statements -/

/-- Statements that are all within `around`, the outermost `try` statements among them numbered from
`n` on. -/
structure Orderly (around : List Layer) (n : Nat) (as : List Standing) : Prop where
  around : ∀ a ∈ as, around <+: a.around
  numbers : (as.filter Standing.isOutermost).map (·.number) =
    List.range' n (as.countP Standing.isOutermost)

namespace Orderly

variable {around : List Layer} {n : Nat} {as bs : List Standing}

theorem nil : Orderly around n [] := ⟨fun _ h => (List.not_mem_nil h).elim, rfl⟩

theorem one (before after : Option Stmt) (s : Stmt) :
    Orderly around n (Roster.one around before s after n) where
  around a ha := List.mem_singleton.1 ha ▸ List.prefix_rfl
  numbers := by
    by_cases h : Standing.isOutermost ⟨n, around, before, s, after⟩ <;> simp [Roster.one, h]

theorem append (h : Orderly around n as)
    (h' : Orderly around (n + as.countP Standing.isOutermost) bs) :
    Orderly around n (as ++ bs) where
  around a ha := (List.mem_append.1 ha).elim (h.around a) (h'.around a)
  numbers := by
    rw [List.filter_append, List.map_append, h.numbers, h'.numbers, List.countP_append,
      List.range'_append_1]

theorem within {l : Layer} (h : Orderly (around ++ [l]) n as) : Orderly around n as where
  around a ha := (List.prefix_append around [l]).trans (h.around a ha)
  numbers := h.numbers

/-- In a region nothing is outermost. -/
theorem isOutermost (h : Orderly around n as) (hl : around.any Layer.shelters = true) :
    ∀ a ∈ as, a.isOutermost = false := fun a ha => by
  obtain ⟨more, hmore⟩ := h.around a ha
  have hsome : (a.around.find? Layer.shelters).isSome = true := by
    rw [← hmore, List.find?_append, Option.isSome_or, List.isSome_find?, hl, Bool.true_or]
  rw [Standing.isOutermost, Standing.region?, Option.isNone_map, ← Option.not_isSome, hsome]
  exact Bool.and_false _

end Orderly

mutual

theorem Stmt.orderly : ∀ (s : Stmt) (around : List Layer) (before after : Option Stmt) (n : Nat),
    Orderly around n (s.standings around before after n)
  | .vars .., _, _, _, _ => .nil
  | .block _ ⟨ss, _⟩, around, _, _, n => stmts_orderly ss around none none n
  | .expr .., _, _, _, _ | .ret .., _, _, _, _ | .raise .., _, _, _, _ | .breakTo .., _, _, _, _
  | .continueTo .., _, _, _, _ | .empty .., _, _, _, _ => .one ..
  | .branch _ _ yes no, around, _, _, _ =>
    .append (.one ..) (.append (yes.orderly around none none _) (stmt?_orderly no around _))
  | .whileLoop _ _ b, around, _, _, _ | .doWhile _ b _, around, _, _, _
  | .forLoop _ _ _ _ b, around, _, _, _
  | .forIn _ _ _ _ b, around, _, _, _ | .labeled _ _ b, around, _, _, _ =>
    .append (.one ..) (b.orderly around none none _)
  | .tryBlock _ ⟨ss, _⟩ cs f, _, _, _, _ =>
    .append (.one ..) (.append (stmts_orderly ss _ none none _).within
      (.append (catches_orderly cs _ _).within (block?_orderly f _ _).within))
  | .switch _ _ cs, around, _, _, _ => .append (.one ..) (cases_orderly cs around _)
termination_by structural s => s

theorem stmts_orderly :
    ∀ (ss : List Stmt) (around : List Layer) (before last : Option Stmt) (n : Nat),
    Orderly around n (stmtsStandings around before last ss n)
  | [], _, _, _, _ => .nil
  | s :: ss, around, _, last, _ =>
    .append (s.orderly around _ _ _) (stmts_orderly ss around _ last _)
termination_by structural ss => ss

theorem stmt?_orderly : ∀ (s : Option Stmt) (around : List Layer) (n : Nat),
    Orderly around n (stmtStandings? around s n)
  | none, _, _ => .nil
  | some s, around, _ => s.orderly around none none _
termination_by structural s => s

theorem block?_orderly : ∀ (b : Option Block) (around : List Layer) (n : Nat),
    Orderly around n (blockStandings? around b n)
  | none, _, _ => .nil
  | some ⟨ss, _⟩, around, _ => stmts_orderly ss around none none _
termination_by structural b => b

theorem catches_orderly : ∀ (cs : List Catch) (around : List Layer) (n : Nat),
    Orderly around n (catchesStandings around cs n)
  | [], _, _ => .nil
  | ⟨_, _, ⟨ss, _⟩, _⟩ :: cs, around, _ => .append (stmts_orderly ss around none none _)
      (catches_orderly cs around _)
termination_by structural cs => cs

theorem cases_orderly : ∀ (cs : List SwitchCase) (around : List Layer) (n : Nat),
    Orderly around n (casesStandings around cs n)
  | [], _, _ => .nil
  | ⟨_, ss⟩ :: cs, around, _ => .append (stmts_orderly ss around none none _)
      (cases_orderly cs around _)
termination_by structural cs => cs

end

/-! ## Regions -/

/-- The region that is worked in is the one that the `try` statements around make. -/
structure Region.Matches (r : Region) (around : List Layer) : Prop where
  cleanup : (around.find? Layer.shelters).map (·.number) = r.cleanup.map (·.index)
  inCatch : around.any (·.part == .handler) = r.inCatch

theorem Region.Matches.append {r r' : Region} {around : List Layer} {l : Layer}
    (h : r.Matches around)
    (hcleanup : r'.cleanup.map (·.index) =
      (r.cleanup.map (·.index)).or (if l.shelters then some l.number else none))
    (hcatch : r'.inCatch = (r.inCatch || l.part == .handler)) : r'.Matches (around ++ [l]) where
  cleanup := by
    rw [List.find?_append, Option.map_or, h.cleanup, hcleanup, List.find?_singleton]
    cases l.shelters <;> rfl
  inCatch := by rw [List.any_append, h.inCatch, hcatch, List.any_cons, List.any_nil, Bool.or_false]

/-! ## What statements become -/

/-- Statements that leave the function nowhere by themselves. -/
def Stmt.isPlain : Stmt → Bool
  | .expr .. | .vars .. | .ret .. | .block .. | .tryBlock .. => false
  | _ => true

/-- How many resets a statement needs, those in what it contains apart. -/
def Standing.owed (a : Standing) (wrap : SymbolId) : Nat :=
  (if a.needsReset wrap then 1 else 0) + if a.lacksCatch then 1 else 0

theorem Standing.owed_eq_zero {a : Standing} {wrap : SymbolId}
    (h : a.stmt.assignsWrapped wrap = false) (ha : a.isOutermost = false) :
    a.owed wrap = 0 := by
  simp [owed, needsReset, lacksCatch, h, ha]

namespace Exits

variable {E : Exits} {around : List Layer} {n j k : Nat} {a b : Standing}
  {as as' bs bs' : List Standing}

/-- No reset is next. -/
def Clear (E : Exits) (s : Option Stmt) : Prop := s.any (Stmt.isReset E.vars E.new) = false

/-- What a stretch of statements becomes, with `k` more resets than they need. -/
structure Lays (E : Exits) (k : Nat) (as bs : List Standing) : Prop where
  places : List.Forall₂ E.Places as (bs.filter E.keeps)
  outermost : bs.countP Standing.isOutermost = as.countP Standing.isOutermost
  resets : bs.countP (·.stmt.isReset E.vars E.new) =
    as.countP (·.needsReset E.wrap) + as.countP Standing.lacksCatch + k

theorem Places.isOutermost (h : E.Places a b) : b.isOutermost = a.isOutermost := by
  rw [Standing.isOutermost, Standing.isOutermost, h.hasCleanup, Standing.region?, Standing.region?,
    h.around]

theorem isAdded_of_isReset {s : Stmt} (h : s.isReset E.vars E.new = true) :
    s.isAdded E.vars E.new = true := by
  cases s with
  | expr p e =>
    replace h : e.isReset E.vars E.new = true := h
    simp [Stmt.isAdded, Stmt.isUpkeep, h]
  | _ => cases h

namespace Lays

theorem nil : E.Lays 0 [] [] := ⟨.nil, rfl, rfl⟩

theorem append (h : E.Lays j as bs) (h' : E.Lays k as' bs') :
    E.Lays (j + k) (as ++ as') (bs ++ bs') where
  places := by
    rw [List.filter_append]
    exact List.rel_append h.places h'.places
  outermost := by rw [List.countP_append, List.countP_append, h.outermost, h'.outermost]
  resets := by
    simp only [List.countP_append, h.resets, h'.resets]
    omega

/-- The same where the second part counts on from the first. -/
theorem roster {f g f' g' : Roster} (h : E.Lays j (f n) (g n))
    (h' : E.Lays k (f' (n + (f n).countP Standing.isOutermost))
      (g' (n + (f n).countP Standing.isOutermost))) :
    E.Lays (j + k) ((f ++ f') n) ((g ++ g') n) := by
  rw [Roster.append_apply, Roster.append_apply, h.outermost]
  exact h.append h'

/-- A statement comes with the resets that it needs. -/
theorem cons (h : E.Places a b) (hb : b.stmt.isAdded E.vars E.new = false) (hk : a.owed E.wrap = k)
    (hs : E.Lays k as bs) : E.Lays 0 (a :: as) (b :: bs) where
  places := by
    rw [List.filter_cons_of_pos (by simp [keeps, hb])]
    exact .cons h hs.places
  outermost := by rw [List.countP_cons, List.countP_cons, hs.outermost, h.isOutermost]
  resets := by
    have hreset : b.stmt.isReset E.vars E.new = false := by
      by_contra hreset
      rw [isAdded_of_isReset (by simpa using hreset)] at hb
      cases hb
    simp only [List.countP_cons, hs.resets, hreset, ← hk, Standing.owed]
    split <;> split <;> simp <;> omega

theorem single (h : E.Places a b) (hb : b.stmt.isAdded E.vars E.new = false)
    (ha : a.owed E.wrap = 0) :
    E.Lays 0 [a] [b] :=
  .cons h hb ha .nil

theorem added (hb : b.stmt.isAdded E.vars E.new = true) (hcleanup : b.stmt.cleanup? = none)
    (hk : (b.stmt.isReset E.vars E.new).toNat = k) : E.Lays k [] [b] where
  places := by
    rw [List.filter_cons_of_neg (by simp [keeps, hb])]
    exact .nil
  outermost := by simp [Standing.isOutermost, hcleanup]
  resets := by
    rw [← hk, List.countP_singleton]
    cases b.stmt.isReset E.vars E.new <;> rfl

/-- Frame code in front. -/
theorem behind {before last : Option Stmt} {ss : List Stmt} {p : Position} {e : Expr}
    (he : (Stmt.expr p e).isAdded E.vars E.new = true) (hreset : e.isReset E.vars E.new = false)
    (h : E.Lays k as (stmtsStandings around (some (.expr p e)) last ss n)) :
    E.Lays k as (stmtsStandings around before last (.expr p e :: ss) n) := by
  have hone : E.Lays 0 [] [⟨n, around, before, .expr p e, ss.head?.or last⟩] :=
    added he rfl (congrArg Bool.toNat hreset)
  exact Nat.zero_add k ▸ hone.append h

/-- Frame code at the end. -/
theorem concat {before after : Option Stmt} {ss : List Stmt} {p : Position} {e : Expr}
    (h : ∀ last, E.Clear last → E.Lays k as (stmtsStandings around before last ss n))
    (he : (Stmt.expr p e).isAdded E.vars E.new = true) (hreset : e.isReset E.vars E.new = false) :
    E.Lays k as (stmtsStandings around before after (ss ++ [.expr p e]) n) := by
  have hfirst := h (some (.expr p e)) hreset
  have hone (m : Nat) : E.Lays 0 [] [⟨m, around, ss.getLast?.or before, .expr p e, after⟩] :=
    added he rfl (congrArg Bool.toNat hreset)
  rw [stmtsStandings_append, Roster.append_apply]
  exact List.append_nil as ▸ hfirst.append (hone _)

end Lays

/-- Statements that are made of others, whatever stands around them in their list, unless it is a
reset that follows. What is behind a leading `var` statement may get other neighbours than that. -/
structure Lists (E : Exits) (around : List Layer) (n : Nat) (as : List Standing) (ss : List Stmt) :
    Prop where
  head : E.Clear ss.head?
  lays : ∀ before last, E.Clear last → E.Lays 0 as (stmtsStandings around before last ss n)
  behind : ∀ s rest, s.isVars = true → ss = s :: rest → ∀ before last, E.Clear last →
    E.Lays 0 as (stmtsStandings around before last rest n)

namespace Lists

variable {s s' : Stmt} {ss ss' : List Stmt}

theorem nil : E.Lists around n [] [] := ⟨rfl, fun _ _ _ => .nil, fun _ _ _ h => nomatch h⟩

theorem of_head (hreset : E.Clear ss.head?) (hvars : ss.head?.any Stmt.isVars = false)
    (h : ∀ before last, E.Clear last → E.Lays 0 as (stmtsStandings around before last ss n)) :
    E.Lists around n as ss where
  head := hreset
  lays := h
  behind s rest hs heq := by
    subst heq
    exact absurd hs (Bool.eq_false_iff.1 hvars)

theorem vars (p : Position) (ds : List VarDecl) : E.Lists around n [] [.vars p ds] where
  head := rfl
  lays _ _ _ := .nil
  behind s rest _ heq _ _ _ := by
    obtain ⟨-, rfl⟩ := List.cons.inj heq
    exact .nil

theorem clear_or {s s' : Option Stmt} (h : E.Clear s) (h' : E.Clear s') : E.Clear (s.or s') := by
  cases s with
  | none => exact h'
  | some s => exact h

theorem append (h : E.Lists around n as ss)
    (h' : E.Lists around (n + as.countP Standing.isOutermost) as' ss') :
    E.Lists around n (as ++ as') (ss ++ ss') := by
  have hboth {xs : List Stmt} (hxs : ∀ before last, E.Clear last →
      E.Lays 0 as (stmtsStandings around before last xs n))
      (before last : Option Stmt) (hlast : E.Clear last) :
      E.Lays 0 (as ++ as') (stmtsStandings around before last (xs ++ ss') n) := by
    have hfirst := hxs before (ss'.head?.or last) (clear_or h'.head hlast)
    rw [stmtsStandings_append, Roster.append_apply, hfirst.outermost]
    exact hfirst.append (h'.lays _ last hlast)
  refine ⟨?_, hboth h.lays, fun s rest hs heq => ?_⟩
  · rw [List.head?_append]
    exact clear_or h.head h'.head
  · cases ss with
    | nil =>
      obtain rfl := List.forall₂_nil_right_iff.1 (h.lays none none rfl).places
      exact h'.behind s rest hs heq
    | cons x xs =>
      obtain ⟨rfl, rfl⟩ := List.cons.inj heq
      exact hboth (h.behind x xs hs rfl)

/-- One statement, of which `k` resets are in what it contains. -/
theorem stmt (hadded : s'.isAdded E.vars E.new = false) (hvars : s'.isVars = false)
    (hplaces : ∀ before last, E.Clear last → E.Places a ⟨n, around, before, s', last⟩)
    (hs' : ∀ before last, s'.standings around before last n = ⟨n, around, before, s', last⟩ :: bs)
    (hk : a.owed E.wrap = k) (hrest : E.Lays k as bs) : E.Lists around n (a :: as) [s'] := by
  have hreset : s'.isReset E.vars E.new = false := by
    by_contra h
    rw [isAdded_of_isReset (by simpa using h)] at hadded
    cases hadded
  refine of_head hreset hvars fun before last hlast => ?_
  rw [stmtsStandings_singleton, hs']
  exact .cons (hplaces before last hlast) hadded hk hrest

theorem leaf (hadded : s'.isAdded E.vars E.new = false) (hvars : s'.isVars = false)
    (hplaces : ∀ before last, E.Clear last → E.Places a ⟨n, around, before, s', last⟩)
    (hs' : ∀ before last, s'.standings around before last n = [⟨n, around, before, s', last⟩])
    (ha : a.owed E.wrap = 0) : E.Lists around n [a] [s'] :=
  .stmt hadded hvars hplaces hs' ha .nil

theorem plain {before after : Option Stmt} {f : Roster} (hs : s.isPlain = true)
    (hs' : s'.isPlain = true) (hpos : s'.pos = s.pos) (hadded : s'.isAdded E.vars E.new = false)
    (hstandings : ∀ before last, s'.standings around before last = .one around before s' last ++ f)
    (h : E.Lays 0 as (f n)) : E.Lists around n (⟨n, around, before, s, after⟩ :: as) [s'] := by
  have hfacts {s : Stmt} (hs : s.isPlain = true) : s.isReturn = false ∧ s.cleanup? = none ∧
      s.catches = [] ∧ s.isVars = false ∧ s.assignsWrapped E.wrap = false := by
    cases s <;> first | exact ⟨rfl, rfl, rfl, rfl, rfl⟩ | cases hs
  obtain ⟨hret, hcleanup, hcatches, -, hwraps⟩ := hfacts hs
  obtain ⟨hret', hcleanup', hcatches', hvars', -⟩ := hfacts hs'
  have hout : Standing.isOutermost ⟨n, around, before, s, after⟩ = false := by
    simp [Standing.isOutermost, hcleanup]
  have hneeds : Standing.needsReset ⟨n, around, before, s, after⟩ E.wrap = false := by
    simp [Standing.needsReset, hwraps]
  have hlacks : Standing.lacksCatch ⟨n, around, before, s, after⟩ = false := by
    simp [Standing.lacksCatch, hout]
  refine stmt hadded hvars' (fun before' last hlast => ?_) (fun before' last => ?_)
    (Standing.owed_eq_zero hwraps hout) h
  · exact {
      number := rfl
      around := rfl
      pos := hpos
      isReturn := hret'.trans hret.symm
      hasCleanup := by rw [hcleanup, hcleanup']
      reset := by rwa [hneeds]
      exits := fun h => by cases hret.symm.trans h
      pops := fun h => by cases hret.symm.trans h
      catches := by
        rw [hlacks, if_neg Bool.false_ne_true]
        exact (congrArg (List.map _) hcatches').trans (congrArg (List.map _) hcatches).symm
      guard := fun h => by cases hout.symm.trans h }
  · have hout' : Standing.isOutermost ⟨n, around, before', s', last⟩ = false := by
      simp [Standing.isOutermost, hcleanup']
    rw [hstandings, Roster.one_append, hout']
    rfl

end Lists

/-! ## Frame code -/

section FrameCode

variable {c : CleanupId} {p : Position} {e : Option Expr} {before after : Option Stmt}

theorem withReset_eq {v : StackVars} {w : SymbolId} {r : Region} {s : Stmt}
    {x : StateM Draft (List Stmt)} (hs : s.assignsWrapped w = false) :
    withReset v w r s x = x := by
  simp only [withReset, hs, Bool.and_false, Bool.false_eq_true, if_false]
  exact bind_pure x

theorem isAdded_upkeep {s : Stmt} (h : s.isUpkeep E.vars E.new = true) :
    s.isAdded E.vars E.new = true := by
  cases s with
  | expr p e => simp [Stmt.isAdded, h]
  | _ => cases h

theorem isAdded_assign {s : SymbolId} (hs : E.new s = true) (x : Expr) :
    (Stmt.ofExpr (.assign p (.var p s) x)).isAdded E.vars E.new = true := by
  simp [Stmt.ofExpr, Expr.assign, Stmt.isAdded, Stmt.aside?, hs]

theorem isReset_assign {s : SymbolId} {x : Expr} (hx : E.Native x) :
    (Expr.assign p (.var p s) x).isReset E.vars E.new = false := by
  cases x with
  | var q i => exact (congrArg (_ && ·) hx).trans (Bool.and_false _)
  | _ => rfl

theorem Places.ret {before' last : Option Stmt} {e' : Option Expr} (hlast : E.Clear last)
    (hexits : ∀ m, (around.find? Layer.shelters).map (·.number) = some m →
      ∃ flag, (m, flag) ∈ E.flags ∧
      Standing.exiting E.new ⟨n, around, before', .ret p e', last⟩ = [flag])
    (hpops : (around.find? Layer.shelters).map (·.number) = none →
      before' = some (.ofExpr (popCode E.vars E.index p)) ∧
        Standing.exiting E.new ⟨n, around, before', .ret p e', last⟩ = []) :
    E.Places ⟨n, around, before, .ret p e, after⟩ ⟨n, around, before', .ret p e', last⟩ where
  number := rfl
  around := rfl
  pos := rfl
  isReturn := rfl
  hasCleanup := rfl
  reset := by
    rw [show Standing.needsReset ⟨n, around, before, .ret p e, after⟩ E.wrap =
      false from Bool.and_false _]
    exact hlast
  exits _ := hexits
  pops _ := hpops
  catches := rfl
  guard h := nomatch h

/-- In a region. -/
theorem settles_exitThrough {e' : Option Expr}
    (hregion : (around.find? Layer.shelters).map (·.number) = some c.index)
    (he : ∀ x, e' = some x → E.Native x) :
    E.Settles n (some c) true [⟨n, around, before, .ret p e, after⟩] (exitThrough c p e')
      (E.Lists around n [⟨n, around, before, .ret p e, after⟩]) := by
  refine .cons rfl (settles_earlyExit.bind_aside fun flag => ?_)
  have hset : Stmt.flag? E.new (.ofExpr (.assign p (.var p flag) (.bool p true))) =
      if E.new flag then some flag else none := rfl
  cases e' with
  | some x =>
    refine .pure fun ⟨hnew, hflag⟩ => .leaf rfl rfl (fun before' last hlast => ?_) (fun _ _ => rfl)
      (Standing.owed_eq_zero rfl rfl)
    refine .ret hlast (fun m hm => ?_) fun hm => by cases hregion.symm.trans hm
    obtain rfl := Option.some.inj (hregion.symm.trans hm)
    refine ⟨flag, hflag, ?_⟩
    show (Stmt.flag? E.new (.ofExpr (.assign p (.var p flag) (.bool p true)))).toList ++ x.exiting
        E.new = [flag]
    rw [hset, if_pos hnew, (he x rfl).exiting]
    rfl
  | none =>
    refine .pure fun ⟨hnew, hflag⟩ => .of_head rfl rfl fun before' last hlast => ?_
    refine .behind (isAdded_assign hnew _) rfl
      (.single (.ret hlast (fun m hm => ?_) fun hm => by cases hregion.symm.trans hm) rfl
        (Standing.owed_eq_zero rfl rfl))
    obtain rfl := Option.some.inj (hregion.symm.trans hm)
    refine ⟨flag, hflag, ?_⟩
    show (Stmt.flag? E.new (.ofExpr (.assign p (.var p flag) (.bool p true)))).toList = [flag]
    rw [hset, if_pos hnew]
    rfl

theorem settles_syntheticCatch {ahead : Option CleanupId} :
    E.Settles n ahead false [] (syntheticCatch E.vars E.wrap p)
    fun cl => ∃ e sc, E.new e = true ∧ cl = rethrowCode E.vars E.wrap E.index e sc p := by
  refine settles_catchParam.bind fun x => ?_
  obtain ⟨sc, e⟩ := x
  refine .after (P := (· = E.index)) .frameIndex
    (fun d hd => congrArg Prod.fst (run_frameIndex_some hd)) fun i hi => ?_
  subst hi
  exact .aside (.count _) fun _ => .pure fun he => ⟨e, sc, he, rfl⟩

variable (hindex : E.new E.index = true)

include hindex

/-- A pop and a `return` behind it. -/
theorem lays_popped {e' : Option Expr}
    (hregion : (around.find? Layer.shelters).map (·.number) = none)
    (he : ∀ x, e' = some x → x.exiting E.new = []) (before' : Option Stmt) {last : Option Stmt}
    (hlast : E.Clear last) :
    E.Lays 0 [⟨n, around, before, .ret p e, after⟩]
      (stmtsStandings around before' last [.ofExpr (popCode E.vars E.index p), .ret p e'] n) := by
  refine .behind (isAdded_upkeep (isUpkeep_pop hindex p)) rfl
    (.single (.ret hlast (fun m hm => by cases hregion.symm.trans hm) fun _ => ⟨rfl, ?_⟩) rfl
      (Standing.owed_eq_zero rfl rfl))
  cases e' with
  | none => rfl
  | some x => exact he x rfl

/-- Outside of all regions. -/
theorem settles_popAndReturn {e' : Option Expr}
    (hregion : (around.find? Layer.shelters).map (·.number) = none)
    (he : ∀ x, e' = some x → E.Native x) :
    E.Settles n none true [⟨n, around, before, .ret p e, after⟩] (popAndReturn E.vars p e')
      (E.Lists around n [⟨n, around, before, .ret p e, after⟩]) := by
  refine .cons rfl (Settles.of_none (?_ : E.Settles n none false [] _ _))
  unfold popAndReturn
  split
  · next x hx =>
    have hreset (temp : SymbolId) : (Expr.assign p (.var p temp) x).isReset E.vars E.new = false :=
      isReset_assign (he x (Option.filter_eq_some_iff.1 hx).1)
    refine settles_returnTemp.bind fun temp => .after (P := (· = popCode E.vars E.index p))
      (.pop _ p) (fun _ hd => run_pop hd _ p) fun x hx => ?_
    subst hx
    refine .pure fun hnew => .of_head ?_ rfl fun before' last hlast => ?_
    · exact hreset temp
    · refine .behind (isAdded_assign hnew _) (hreset temp)
        (lays_popped hindex hregion (fun _ hx => ?_) _ hlast)
      exact Option.some.inj hx ▸ rfl
  · refine .after (P := (· = popCode E.vars E.index p)) (.pop _ p) (fun _ hd => run_pop hd _ p)
      fun x hx => ?_
    subst hx
    exact .pure (.of_head rfl rfl fun before' last hlast =>
      lays_popped hindex hregion (fun x hx => (he x hx).exiting) _ hlast)

theorem lays_reset : E.Lays 1 [] [⟨n, around, before, resetCode E.vars E.index p, after⟩] := by
  refine .added (isAdded_upkeep (isUpkeep_reset hindex p)) rfl ?_
  show Bool.toNat (_ == _ && E.new E.index) = 1
  rw [beq_self_eq_true, hindex]
  rfl

/-- An expression, with a reset behind it if it wraps what was caught. -/
theorem settles_expr {r : Region} {x : Expr} (hr : r.Matches around)
    (hx : ∀ m ∈ x.nodes, m.Below E.base) :
    E.Settles n r.cleanup false [⟨n, around, before, .expr p x, after⟩]
      (withReset E.vars E.wrap r (.expr p x) ((Stmt.expr p x).framed E.vars E.wrap r))
      (E.Lists around n [⟨n, around, before, .expr p x, after⟩]) := by
  have hneeds : Standing.needsReset ⟨n, around, before, .expr p x, after⟩ E.wrap =
      (r.inCatch && (Stmt.expr p x).assignsWrapped E.wrap) := by
    rw [← hr.inCatch]
    rfl
  have hplaces {x' : Expr} {before' last : Option Stmt} (hlast :
      if r.inCatch && (Stmt.expr p x).assignsWrapped E.wrap
        then last = some (resetCode E.vars E.index p)
        else E.Clear last) : E.Places ⟨n, around, before, .expr p x, after⟩
          ⟨n, around, before', .expr p x', last⟩ :=
    ⟨rfl, rfl, rfl, rfl, rfl, by rwa [hneeds], nofun, nofun, rfl, nofun⟩
  have howed : Standing.owed ⟨n, around, before, .expr p x, after⟩ E.wrap =
      if r.inCatch && (Stmt.expr p x).assignsWrapped E.wrap then 1 else 0 := by
    rw [Standing.owed, hneeds]
    rfl
  rw [withReset, Stmt.framed, bind_assoc]
  refine .cons rfl (.after (P := E.Native) (.locate x) (fun d _ => .locate hx d) fun x' hx' => ?_)
  rw [pure_bind]
  have hadded : (Stmt.expr p x').isAdded E.vars E.new = false := hx'.isAdded p
  split
  · next hreset =>
    rw [if_pos hreset] at howed
    refine .after (P := (· = resetCode E.vars E.index p)) (.resetDepth _ p)
      (fun _ hd => run_resetDepth hd _ p) fun y hy => ?_
    subst hy
    refine .pure (.of_head hx'.isReset rfl fun before' last _ => .cons (hplaces ?_) hadded howed
      (lays_reset hindex))
    rw [if_pos hreset]
    rfl
  · next hreset =>
    rw [if_neg hreset] at howed
    refine .pure (.leaf hadded rfl (fun before' last hlast => hplaces ?_) (fun _ _ => rfl) howed)
    rwa [if_neg hreset]

/-- What an added catch clause contains is all added, with one reset. -/
theorem lays_rethrow {s : SymbolId} (hs : E.new s = true) (sc : ScopeId) :
    E.Lays 1 [] (catchesStandings around [rethrowCode E.vars E.wrap E.index s sc p] n) := by
  show E.Lays 1 [] ((stmtsStandings around none none _ ++ Roster.nil) n)
  rw [Roster.append_nil]
  refine .behind (isAdded_assign hs _) rfl ?_
  have hraise : E.Lays 0 []
      [⟨n, around, some (resetCode E.vars E.index p), .raise p (.var p s), none⟩] :=
    .added hs rfl rfl
  exact (lays_reset hindex).append hraise

theorem settles_guardCleanup {m : Nat} {fs : List Stmt} (q : Position) (hc : c.index < m) :
    E.Settles m none false [] (guardCleanup E.vars c ⟨fs, q⟩) fun f =>
      (∀ around n as, E.Lists around n as fs → E.Lays 0 as (blockStandings? around (some f) n)) ∧
        ∀ flag, (c.index, flag) ∈ E.flags → f.endsWithExit = true ∨ f.stmts.getLast? =
          some (.ofExpr (.binary f.pos .and (.var f.pos flag) (popCode E.vars E.index f.pos))) :=
  fun d hd hm _ => by
  rw [guardCleanup, StateT.run_bind, StateT.run_get, pure_bind]
  rcases hflag : d.locals.earlyExit? c with _ | flag
  · refine ⟨.refl hd, fun hfinal => ⟨fun _ _ _ hfs => hfs.lays none none rfl, fun flag hmem => ?_⟩⟩
    cases hflag.symm.trans (hfinal.all c flag (hm ▸ hc) nofun hmem)
  · dsimp only
    split
    · next hexit =>
        exact ⟨.refl hd, fun _ => ⟨fun _ _ _ hfs => hfs.lays none none rfl, fun _ _ => .inl hexit⟩⟩
    · have hlocals := Still.pop E.vars q d hd.frameIndex
      have hpop := run_pop hd.frameIndex E.vars q
      rw [StateT.run_bind]
      generalize (pop E.vars q).run d = y at hlocals hpop
      obtain ⟨x, d'⟩ := y
      subst hpop
      replace hlocals : d'.locals = d.locals := hlocals
      have hmem := List.mem_map_of_mem (f := Prod.snd) (Locals.mem_of_earlyExit? hflag)
      have hnew : E.new flag = true :=
        decide_eq_true (ScopeTable.le_of_mem_namedSince (hd.flags ▸ hmem))
      have hadded := isAdded_upkeep (isUpkeep_guarded (v := E.vars) hindex q hnew q)
      have hhands : E.Hands none false [] d.locals d'.locals := by
        rw [hlocals]
        exact .refl hd
      refine ⟨hhands, fun hfinal => ⟨fun _ _ _ hfs => ?_, fun flag' hmem => .inr ?_⟩⟩
      · exact .concat (fun last hlast => hfs.lays none last hlast) hadded rfl
      · have hflag' := hfinal.all c flag' (hlocals.symm ▸ hm ▸ hc) nofun hmem
        replace hflag' : d'.locals.earlyExit? c = some flag' := hflag'
        rw [hlocals, hflag] at hflag'
        obtain rfl := Option.some.inj hflag'
        exact List.getLast?_concat

end FrameCode

/-! ## Statements -/

/-- The three parts of a `try` statement with number `n`. -/
def tryParts (around : List Layer) (n : Nat) (ss : List Stmt) (cs : List Catch) (f : Option Block) :
    Roster :=
  stmtsStandings (around ++ [⟨n, f.isSome, .body⟩]) none none ss
    ++ (catchesStandings (around ++ [⟨n, f.isSome, .handler⟩]) cs
      ++ blockStandings? (around ++ [⟨n, f.isSome, .cleanup⟩]) f)

/-- The region of an outermost `try` statement with number `n`. -/
def regionParts (around : List Layer) (n : Nat) (ss : List Stmt) (cs : List Catch) : Roster :=
  stmtsStandings (around ++ [⟨n, true, .body⟩]) none none ss ++ catchesStandings
    (around ++ [⟨n, true, .handler⟩]) cs

theorem tryParts_some (around : List Layer) (n : Nat) (ss : List Stmt) (cs : List Catch)
    (b : Block) :
    tryParts around n ss cs (some b) =
      regionParts around n ss cs ++ blockStandings? (around ++ [⟨n, true, .cleanup⟩]) b :=
  (Roster.append_assoc _ _ _).symm

theorem isOutermost_regionParts {ss : List Stmt} {cs : List Catch} {m : Nat} :
    ∀ a ∈ regionParts around n ss cs m, a.isOutermost = false := fun a ha => by
  rcases List.mem_append.1 ha with ha | ha
  · exact (stmts_orderly ss _ none none m).isOutermost (by simp [Layer.shelters]) a ha
  · exact (catches_orderly cs _ _).isOutermost (by simp [Layer.shelters]) a ha

section Try

variable {p q q' : Position} {ss ss' : List Stmt} {cs cs' : List Catch} {f f' : Option Block}
  {before after : Option Stmt} {returns : Bool}

theorem standings_tryBlock {m : Nat}
    (hm :
      n + (Standing.isOutermost ⟨n, around, before, .tryBlock p ⟨ss, q⟩ cs f, after⟩).toNat = m) :
    (Stmt.tryBlock p ⟨ss, q⟩ cs f).standings around before after n =
      ⟨n, around, before, .tryBlock p ⟨ss, q⟩ cs f, after⟩ :: tryParts around n ss cs f m :=
  hm ▸ Roster.one_append (tryParts around n ss cs f) n

theorem Lists.tryBlock {m : Nat} (hf : f'.isSome = f.isSome) :
    let a : Standing := ⟨n, around, before, .tryBlock p ⟨ss, q⟩ cs f, after⟩
    n + a.isOutermost.toNat = m → a.lacksCatch.toNat = k →
    (if a.lacksCatch then ∃ e sc, E.new e = true ∧ cs' = [rethrowCode E.vars E.wrap E.index e sc p]
      else cs'.map (·.param) = cs.map (·.param)) →
    (a.isOutermost = true → ∀ flag, (n, flag) ∈ E.flags → ∀ b, f' = some b → b.endsWithExit = true ∨
      b.stmts.getLast? =
        some (.ofExpr (.binary b.pos .and (.var b.pos flag) (popCode E.vars E.index b.pos)))) →
    E.Lays k (tryParts around n ss cs f m) (tryParts around n ss' cs' f' m) →
    E.Lists around n (a :: tryParts around n ss cs f m) [.tryBlock p ⟨ss', q'⟩ cs' f'] := by
  intro a hm hk hcatches hguard hparts
  have hneeds : a.needsReset E.wrap = false := Bool.and_false _
  have hplaces {before' last : Option Stmt} (hlast : E.Clear last) :
      E.Places a ⟨n, around, before', .tryBlock p ⟨ss', q'⟩ cs' f', last⟩ :=
    ⟨rfl, rfl, rfl, rfl, hf, by rwa [hneeds], nofun, nofun, hcatches, hguard⟩
  have howed : a.owed E.wrap = k := by
    rw [Standing.owed, hneeds, ← hk]
    cases a.lacksCatch <;> rfl
  refine .stmt rfl rfl (fun before' last hlast => hplaces hlast) (fun before' last => ?_) howed
    hparts
  have hsame : Standing.isOutermost ⟨n, around, before', .tryBlock p ⟨ss', q'⟩ cs' f', last⟩ =
      a.isOutermost :=
    Places.isOutermost (b := ⟨n, around, before', .tryBlock p ⟨ss', q'⟩ cs' f', none⟩) (hplaces rfl)
  exact standings_tryBlock (hsame ▸ hm)

/-- One that is not outermost keeps its catch clauses. -/
theorem settles_inner {ahead : Option CleanupId} {x : StateM Draft (List Stmt)}
    (hout : Standing.isOutermost ⟨n, around, before, .tryBlock p ⟨ss, q⟩ cs f, after⟩ = false)
    (hx : E.Settles n ahead returns (tryParts around n ss cs f n) x fun xs => ∃ ss' cs' f',
      xs = [.tryBlock p ⟨ss', q⟩ cs' f'] ∧ f'.isSome = f.isSome ∧
        cs'.map (·.param) = cs.map (·.param) ∧
        E.Lays 0 (tryParts around n ss cs f n) (tryParts around n ss' cs' f' n)) :
    E.Settles n ahead returns ((Stmt.tryBlock p ⟨ss, q⟩ cs f).standings around before after n) x
      (E.Lists around n ((Stmt.tryBlock p ⟨ss, q⟩ cs f).standings around before after n)) := by
  have hlacks : Standing.lacksCatch ⟨n, around, before, .tryBlock p ⟨ss, q⟩ cs f, after⟩ =
      false := by
    rw [Standing.lacksCatch, hout, Bool.false_and]
  have hstart : n +
      (Standing.isOutermost ⟨n, around, before, .tryBlock p ⟨ss, q⟩ cs f, after⟩).toNat = n := by
    rw [hout]
    rfl
  rw [standings_tryBlock hstart]
  refine .cons hout (hx.mono ?_)
  rintro _ ⟨ss', cs', f', rfl, hf, hcs, hparts⟩
  refine .tryBlock hf hstart (congrArg Bool.toNat hlacks) ?_ (fun h => by cases hout.symm.trans h)
    hparts
  rwa [hlacks]

variable (hindex : E.new E.index = true)

include hindex

theorem settles_catchesOrRethrow {ahead : Option CleanupId} {r : Region}
    (hcs : E.Settles n ahead (catchesHaveReturn cs) (catchesStandings around cs n)
      (catchesFramed E.vars E.wrap cs r)
      fun cs' => E.Lays 0 (catchesStandings around cs n) (catchesStandings around cs' n) ∧
        cs'.map (·.param) = cs.map (·.param)) :
    E.Settles n ahead (catchesHaveReturn cs) (catchesStandings around cs n)
      (catchesOrRethrow E.vars E.wrap p cs r)
      fun cs' => E.Lays cs.isEmpty.toNat (catchesStandings around cs n)
        (catchesStandings around cs' n) ∧
        if cs.isEmpty then ∃ e sc, E.new e = true ∧ cs' = [rethrowCode E.vars E.wrap E.index e sc p]
          else cs'.map (·.param) = cs.map (·.param) := by
  cases cs with
  | nil =>
    refine settles_syntheticCatch.map fun cl ⟨e, sc, he, hcl⟩ => ?_
    subst hcl
    exact ⟨lays_rethrow hindex he sc, e, sc, he, rfl⟩
  | cons cl cs => exact hcs

theorem settles_outermost {r : Region} {fs : List Stmt} {fq : Position} (hc : r.cleanup = none)
    (hr : r.Matches around)
    (hss : E.Settles (n + 1) (some ⟨n⟩) (stmtsHaveReturn ss)
      (stmtsStandings (around ++ [⟨n, true, .body⟩]) none none ss (n + 1))
      (stmtsFramed E.vars E.wrap ss { r with cleanup := some ⟨n⟩ })
      (E.Lists (around ++ [⟨n, true, .body⟩]) (n + 1)
        (stmtsStandings (around ++ [⟨n, true, .body⟩]) none none ss (n + 1))))
    (hcs : ∀ m, E.Settles m (some ⟨n⟩) (catchesHaveReturn cs)
      (catchesStandings (around ++ [⟨n, true, .handler⟩]) cs m)
      (catchesFramed E.vars E.wrap cs { r with cleanup := some ⟨n⟩ }) fun cs' =>
        E.Lays 0 (catchesStandings (around ++ [⟨n, true, .handler⟩]) cs m)
          (catchesStandings (around ++ [⟨n, true, .handler⟩]) cs' m) ∧
            cs'.map (·.param) = cs.map (·.param))
    (hfs : ∀ m, E.Settles m none (stmtsHaveReturn fs)
      (stmtsStandings (around ++ [⟨n, true, .cleanup⟩]) none none fs m)
      (stmtsFramed E.vars E.wrap fs r)
      (E.Lists (around ++ [⟨n, true, .cleanup⟩]) m
        (stmtsStandings (around ++ [⟨n, true, .cleanup⟩]) none none fs m))) :
    E.Settles n none returns
      ((Stmt.tryBlock p ⟨ss, q⟩ cs (some ⟨fs, fq⟩)).standings around before after n)
      ((Stmt.tryBlock p ⟨ss, q⟩ cs (some ⟨fs, fq⟩)).framed E.vars E.wrap r)
      (E.Lists around n
        ((Stmt.tryBlock p ⟨ss, q⟩ cs (some ⟨fs, fq⟩)).standings around before after n)) := by
  have hout : Standing.isOutermost ⟨n, around, before, .tryBlock p ⟨ss, q⟩ cs (some ⟨fs, fq⟩),
      after⟩ = true := by
    simp [Standing.isOutermost, Standing.region?, hr.cleanup, hc, Stmt.cleanup?]
  have hlacks : Standing.lacksCatch ⟨n, around, before, .tryBlock p ⟨ss, q⟩ cs (some ⟨fs, fq⟩),
      after⟩ =
      cs.isEmpty := by
    rw [Standing.lacksCatch, hout, Bool.true_and]
    rfl
  have hstart : n + (Standing.isOutermost
      ⟨n, around, before, .tryBlock p ⟨ss, q⟩ cs (some ⟨fs, fq⟩), after⟩).toNat = n + 1 := by
    rw [hout]
    rfl
  have hregion : E.Settles (n + 1) (some ⟨n⟩) (stmtsHaveReturn ss || catchesHaveReturn cs)
      (regionParts around n ss cs (n + 1))
      (do
        let ss' ← stmtsFramed E.vars E.wrap ss { r with cleanup := some ⟨n⟩ }
        let cs' ← catchesOrRethrow E.vars E.wrap p cs { r with cleanup := some ⟨n⟩ }
        return (ss', cs')) fun y =>
      E.Lays cs.isEmpty.toNat (regionParts around n ss cs (n + 1))
        (regionParts around n y.1 y.2 (n + 1)) ∧
        if cs.isEmpty then ∃ e sc, E.new e = true ∧ y.2 = [rethrowCode E.vars E.wrap E.index e sc p]
          else y.2.map (·.param) = cs.map (·.param) :=
    hss.bind fun ss' => (settles_catchesOrRethrow hindex (hcs _)).map fun cs' hcs hss => by
      refine ⟨?_, hcs.2⟩
      rw [← Nat.zero_add cs.isEmpty.toNat]
      exact (hss.lays none none rfl).roster hcs.1
  have hcode : (Stmt.tryBlock p ⟨ss, q⟩ cs (some ⟨fs, fq⟩)).framed E.vars E.wrap r = (do
      let c ← onLocals Locals.nextCleanup
      let y ← (do
        let ss' ← stmtsFramed E.vars E.wrap ss { r with cleanup := some c }
        let cs' ← catchesOrRethrow E.vars E.wrap p cs { r with cleanup := some c }
        return (ss', cs'))
      let fs' ← stmtsFramed E.vars E.wrap fs r
      let f' ← guardCleanup E.vars c ⟨fs', fq⟩
      return [.tryBlock p ⟨y.1, q⟩ y.2 (some f')]) := by
    rw [framed_outermost _ _ _ _ _ _ _ _ hc]
    simp only [bind_assoc, pure_bind]
  rw [hcode, standings_tryBlock hstart, tryParts_some, Roster.append_apply]
  refine Settles.of_none (?_ : E.Settles n none (stmtsHaveReturn fs) _ _ _)
  refine .outermost hout rfl rfl isOutermost_regionParts hregion fun y => ?_
  refine (hfs _).bind_aside fun fs' => (settles_guardCleanup hindex fq ?_).map
    fun f' hf hfs hregion => ?_
  · show n < _
    omega
  · obtain ⟨hcleanup, hguard⟩ := hf
    rw [← Roster.append_apply, ← tryParts_some]
    refine .tryBlock rfl hstart (congrArg Bool.toNat hlacks) (by rw [hlacks]; exact hregion.2)
      (fun _ flag hflag b hb => Option.some.inj hb ▸ hguard flag hflag) ?_
    rw [tryParts_some, tryParts_some]
    exact hregion.1.roster (hcleanup _ _ _ hfs)

end Try

section Statements

variable {ahead : Option CleanupId} {returns : Bool} {before after : Option Stmt} {r : Region}
  {s : Stmt} {x : StateM Draft (List Stmt)}

/-- Where only one statement fits. -/
theorem settles_asBody
    (hx : E.Settles n ahead returns as (withReset E.vars E.wrap r s x) (E.Lists around n as)) :
    E.Settles n ahead returns as (asBody E.vars E.wrap r s x) fun s' =>
      E.Lays 0 as (s'.standings around none none n) :=
  hx.map fun ss hss => by
    rw [standings_oneStmt]
    exact hss.lays none none rfl

theorem settles_plain {f : Roster} (hs : s.isPlain = true)
    (hstandings : s.standings around before after = .one around before s after ++ f)
    (hx : E.Settles n ahead returns (f n) x fun ss => ∃ s' g, ss = [s'] ∧ s'.isPlain = true ∧
      s'.pos = s.pos ∧ s'.isAdded E.vars E.new = false ∧
      (∀ before last, s'.standings around before last = .one around before s' last ++ g) ∧
        E.Lays 0 (f n) (g n)) :
    E.Settles n ahead returns (s.standings around before after n) (withReset E.vars E.wrap r s x)
      (E.Lists around n (s.standings around before after n)) := by
  have hwraps : s.assignsWrapped E.wrap = false := by
    cases s <;> first | rfl | cases hs
  have hout : Standing.isOutermost ⟨n, around, before, s, after⟩ = false := by
    cases s <;> first | rfl | cases hs
  rw [withReset_eq hwraps, hstandings, Roster.one_append, hout]
  refine .cons hout (hx.mono ?_)
  rintro _ ⟨s', g, rfl, hs', hpos, hadded, hstandings', hlays⟩
  exact .plain hs hs' hpos hadded hstandings' hlays

end Statements

mutual

theorem settles_stmt (hindex : E.new E.index = true) :
    ∀ (s : Stmt) (r : Region) {around : List Layer} {n : Nat} (before after : Option Stmt),
    r.Matches around → (∀ m ∈ s.nodes, m.Below E.base) →
    E.Settles n r.cleanup s.hasReturn (s.standings around before after n)
      (withReset E.vars E.wrap r s (s.framed E.vars E.wrap r))
        (E.Lists around n (s.standings around before after n))
  | .expr p e, r, around, n, before, after, hr, h =>
    settles_expr hindex hr (List.forall_mem_cons.1 h).2
  | .vars p ds, r, around, n, before, after, hr, h => by
    rw [withReset_eq rfl, Stmt.framed]
    exact .aside (.locateDecls ds) fun ds' => .pure (.vars p ds')
  | .ret p e, r, around, n, before, after, hr, h => by
    rw [withReset_eq rfl, Stmt.framed]
    refine .after (P := fun e' => ∀ x, e' = some x → E.Native x) (.locate? e)
      (fun d _ => .locate? (List.forall_mem_cons.1 h).2 d) fun e' he => ?_
    have hregion := hr.cleanup
    rcases hc : r.cleanup with _ | c
    · rw [hc] at hregion
      exact settles_popAndReturn hindex hregion he
    · rw [hc] at hregion
      exact settles_exitThrough hregion he
  | .raise p e, r, around, n, before, after, hr, h => by
    rw [Stmt.framed]
    refine settles_plain rfl (Roster.append_nil _).symm (.after (P := E.Native) (.locate e)
      (fun d _ => .locate (List.forall_mem_cons.1 h).2 d) fun e' he => .pure ?_)
    exact ⟨_, .nil, rfl, rfl, rfl, he.isAdded_raise p, fun _ _ => (Roster.append_nil _).symm, .nil⟩
  | .branch p t yes no, r, around, n, before, after, hr, h => by
    obtain ⟨hyes, hno⟩ :=
      List.forall_mem_append.1 (List.forall_mem_append.1 (List.forall_mem_cons.1 h).2).2
    rw [Stmt.framed]
    refine settles_plain rfl rfl (.aside (.locate t) fun t' =>
      (settles_asBody (settles_stmt hindex yes r none none hr hyes)).bind fun yes' =>
        (settles_stmt? hindex no r hr hno).map fun no' hno hyes => ?_)
    exact ⟨_, _, rfl, rfl, rfl, rfl, fun _ _ => rfl, hyes.roster hno⟩
  | .whileLoop p t b, r, around, n, before, after, hr, h => by
    have hb := (List.forall_mem_append.1 (List.forall_mem_cons.1 h).2).2
    rw [Stmt.framed]
    exact settles_plain rfl rfl (.aside .forget fun _ => .aside (.locate t) fun t' =>
      (settles_asBody (settles_stmt hindex b r none none hr hb)).map fun b' hb =>
        ⟨_, _, rfl, rfl, rfl, rfl, fun _ _ => rfl, hb⟩)
  | .doWhile p b t, r, around, n, before, after, hr, h => by
    have hb := (List.forall_mem_append.1 (List.forall_mem_cons.1 h).2).1
    rw [Stmt.framed]
    exact settles_plain rfl rfl
      ((settles_asBody (settles_stmt hindex b r none none hr hb)).bind_aside fun b' =>
      .aside (.locate t) fun t' => .pure fun hb => ⟨_, _, rfl, rfl, rfl, rfl, fun _ _ => rfl, hb⟩)
  | .forLoop p i t u b, r, around, n, before, after, hr, h => by
    have hb := (List.forall_mem_append.1 (List.forall_mem_append.1 (List.forall_mem_append.1
      (List.forall_mem_cons.1 h).2).2).2).2
    rw [framed_forLoop]
    exact settles_plain rfl rfl (.aside (.locateInit i) fun _ => .aside (.forgetIf _) fun _ =>
      .aside (.locate? t) fun _ => .aside (.forgetIf _) fun _ => .aside (.locate? u) fun _ =>
        (settles_asBody (settles_stmt hindex b r none none hr hb)).map fun b' hb =>
          ⟨_, _, rfl, rfl, rfl, rfl, fun _ _ => rfl, hb⟩)
  | .forIn p k declared o b, r, around, n, before, after, hr, h => by
    have hb := (List.forall_mem_append.1 (List.forall_mem_cons.1 h).2).2
    rw [Stmt.framed]
    exact settles_plain rfl rfl (.aside (.locate o) fun o' =>
      (settles_asBody (settles_stmt hindex b r none none hr hb)).map fun b' hb =>
        ⟨_, _, rfl, rfl, rfl, rfl, fun _ _ => rfl, hb⟩)
  | .block p ⟨ss, q⟩, r, around, n, before, after, hr, h => by
    rw [withReset_eq rfl, Stmt.framed]
    have hss := (List.forall_mem_cons.1 (List.forall_mem_cons.1 h).2).2
    refine (settles_stmts hindex ss r none none hr hss).map fun ss' hss => ?_
    refine .of_head rfl rfl fun before' last _ => ?_
    rw [stmtsStandings_singleton]
    exact hss.lays none none rfl
  | .tryBlock p ⟨ss, q⟩ cs none, r, around, n, before, after, hr, h => by
    obtain ⟨hss, h⟩ := List.forall_mem_append.1 (List.forall_mem_cons.1 h).2
    have hcs := (List.forall_mem_append.1 h).1
    rw [withReset_eq rfl, Stmt.framed]
    refine settles_inner rfl
      ((settles_stmts hindex ss r none none (hr.append (by simp [Layer.shelters]) (by simp))
          (List.forall_mem_cons.1 hss).2).bind fun ss' =>
        (settles_catches hindex cs r (hr.append (by simp [Layer.shelters]) (by simp)) hcs).bind
          fun cs' => .pure fun hcs hss => ?_)
    have hnone (m : Nat) : E.Lays 0 (Roster.nil m) (Roster.nil m) := .nil
    exact ⟨ss', cs', none, rfl, rfl, hcs.2, (hss.lays none none rfl).roster
      (hcs.1.roster (hnone _))⟩
  | .tryBlock p ⟨ss, q⟩ cs (some ⟨fs, fq⟩), r, around, n, before, after, hr, h => by
    obtain ⟨hss, h⟩ := List.forall_mem_append.1 (List.forall_mem_cons.1 h).2
    obtain ⟨hcs, hfs⟩ := List.forall_mem_append.1 h
    replace hss := (List.forall_mem_cons.1 hss).2
    replace hfs := (List.forall_mem_cons.1 hfs).2
    rw [withReset_eq rfl]
    rcases hc : r.cleanup with _ | c
    · refine settles_outermost hindex hc hr
        (settles_stmts hindex ss { r with cleanup := some ⟨n⟩ } none none ?_ hss)
        (fun m => settles_catches hindex cs { r with cleanup := some ⟨n⟩ } ?_ hcs)
        fun m => hc ▸ settles_stmts hindex fs r none none ?_ hfs
      · exact hr.append (by simp [hc, Layer.shelters]) (by simp)
      · exact hr.append (by simp [hc, Layer.shelters]) (by simp)
      · exact hr.append (by simp [hc, Layer.shelters]) (by simp)
    · have hout : Standing.isOutermost ⟨n, around, before, .tryBlock p ⟨ss, q⟩ cs (some ⟨fs, fq⟩),
          after⟩ = false := by
        simp [Standing.isOutermost, Standing.region?, hr.cleanup, hc]
      have hparts {r' : Region} {t : TryPart} (hr' : r'.cleanup = r.cleanup)
          (hcatch : r'.inCatch = (r.inCatch || t == .handler)) : r'.Matches
            (around ++ [⟨n, true, t⟩]) :=
        hr.append (by simp [hr', hc]) hcatch
      rw [Stmt.framed]
      simp only [hc]
      rw [← hc]
      refine settles_inner hout
        ((settles_stmts hindex ss r none none (hparts rfl (by simp)) hss).bind fun ss' =>
        (settles_catches hindex cs r (hparts rfl (by simp)) hcs).bind fun cs' =>
          (settles_stmts hindex fs r none none (hparts rfl (by simp)) hfs).map
            fun fs' hfs hcs hss => ?_)
      refine ⟨ss', cs', some ⟨fs', fq⟩, rfl, rfl, hcs.2, ?_⟩
      exact (hss.lays none none rfl).roster (hcs.1.roster (hfs.lays none none rfl))
  | .labeled p l b, r, around, n, before, after, hr, h => by
    rw [Stmt.framed]
    exact settles_plain rfl rfl
      ((settles_asBody (settles_stmt hindex b r none none hr (List.forall_mem_cons.1 h).2)).map
      fun b' hb => ⟨_, _, rfl, rfl, rfl, rfl, fun _ _ => rfl, hb⟩)
  | .breakTo p l, r, around, n, before, after, hr, h => by
    rw [Stmt.framed]
    exact settles_plain rfl (Roster.append_nil _).symm (.pure
      ⟨_, .nil, rfl, rfl, rfl, rfl, fun _ _ => (Roster.append_nil _).symm, .nil⟩)
  | .continueTo p l, r, around, n, before, after, hr, h => by
    rw [Stmt.framed]
    exact settles_plain rfl (Roster.append_nil _).symm (.pure
      ⟨_, .nil, rfl, rfl, rfl, rfl, fun _ _ => (Roster.append_nil _).symm, .nil⟩)
  | .switch p d cs, r, around, n, before, after, hr, h => by
    have hcs := (List.forall_mem_append.1 (List.forall_mem_cons.1 h).2).2
    rw [Stmt.framed]
    exact settles_plain rfl rfl (.aside (.locate d) fun d' => (settles_cases hindex cs r hr hcs).map
      fun cs' hcs => ⟨_, _, rfl, rfl, rfl, rfl, fun _ _ => rfl, hcs⟩)
  | .empty p, r, around, n, before, after, hr, h => by
    rw [Stmt.framed]
    exact settles_plain rfl (Roster.append_nil _).symm (.pure
      ⟨_, .nil, rfl, rfl, rfl, rfl, fun _ _ => (Roster.append_nil _).symm, .nil⟩)
termination_by structural s => s

theorem settles_stmts (hindex : E.new E.index = true) :
    ∀ (ss : List Stmt) (r : Region) {around : List Layer} {n : Nat} (before last : Option Stmt),
    r.Matches around → (∀ m ∈ stmtsNodes ss, m.Below E.base) →
    E.Settles n r.cleanup (stmtsHaveReturn ss) (stmtsStandings around before last ss n)
      (stmtsFramed E.vars E.wrap ss r) (E.Lists around n (stmtsStandings around before last ss n))
  | [], r, around, n, before, last, hr, h => .pure .nil
  | s :: ss, r, around, n, before, last, hr, h => by
    obtain ⟨hs, hss⟩ := List.forall_mem_append.1 h
    rw [stmtsFramed]
    exact (settles_stmt hindex s r before _ hr hs).bind fun first =>
      (settles_stmts hindex ss r _ last hr hss).map
      fun rest hrest hfirst => hfirst.append hrest
termination_by structural ss => ss

theorem settles_stmt? (hindex : E.new E.index = true) :
    ∀ (s : Option Stmt) (r : Region) {around : List Layer} {n : Nat}, r.Matches around →
    (∀ m ∈ stmtNodes? s, m.Below E.base) →
      E.Settles n r.cleanup (stmtHasReturn? s) (stmtStandings? around s n)
      (stmtFramed? E.vars E.wrap s r) fun s' =>
        E.Lays 0 (stmtStandings? around s n) (stmtStandings? around s' n)
  | none, r, around, n, hr, h => .pure .nil
  | some s, r, around, n, hr, h => by
    rw [stmtFramed?]
    exact (settles_asBody (settles_stmt hindex s r none none hr h)).map fun s' hs => hs
termination_by structural s => s

theorem settles_catches (hindex : E.new E.index = true) :
    ∀ (cs : List Catch) (r : Region) {around : List Layer} {n : Nat},
    Region.Matches { r with inCatch := true } around → (∀ m ∈ catchesNodes cs, m.Below E.base) →
    E.Settles n r.cleanup (catchesHaveReturn cs) (catchesStandings around cs n)
      (catchesFramed E.vars E.wrap cs r)
      fun cs' => E.Lays 0 (catchesStandings around cs n) (catchesStandings around cs' n) ∧
        cs'.map (·.param) = cs.map (·.param)
  | [], r, around, n, hr, h => .pure ⟨.nil, rfl⟩
  | ⟨s, sc, ⟨ss, q⟩, p⟩ :: cs, r, around, n, hr, h => by
    obtain ⟨hb, hcs⟩ := List.forall_mem_append.1 h
    rw [catchesFramed]
    refine Settles.bind (settles_stmts hindex ss _ none none hr (List.forall_mem_cons.1 hb).2)
      fun ss' => (settles_catches hindex cs r hr hcs).map fun cs' hcs hss => ?_
    exact ⟨(hss.lays none none rfl).roster hcs.1, congrArg (List.cons s) hcs.2⟩
termination_by structural cs => cs

theorem settles_cases (hindex : E.new E.index = true) :
    ∀ (cs : List SwitchCase) (r : Region) {around : List Layer} {n : Nat}, r.Matches around →
    (∀ m ∈ casesNodes cs, m.Below E.base) →
      E.Settles n r.cleanup (casesHaveReturn cs) (casesStandings around cs n)
      (casesFramed E.vars E.wrap cs r) fun cs' =>
        E.Lays 0 (casesStandings around cs n) (casesStandings around cs' n)
  | [], r, around, n, hr, h => .pure .nil
  | ⟨t, ss⟩ :: cs, r, around, n, hr, h => by
    obtain ⟨hss, hcs⟩ := List.forall_mem_append.1 (List.forall_mem_append.1 h).2
    rw [casesFramed]
    exact .aside (.locate? t) fun t' => (settles_stmts hindex ss r none none hr hss).bind fun ss' =>
      (settles_cases hindex cs r hr hcs).map fun cs' hcs hss => (hss.lays none none rfl).roster hcs
termination_by structural cs => cs

end

/-! ## Functions -/

section Function

variable {ss : List Stmt} {name : Option SymbolId} {p : Position}

/-- The entry code goes in front, or behind a leading `var` statement. -/
def Entered (E : Exits) (name : Option SymbolId) (p : Position) (as : List Standing)
    (ss : List Stmt) : Prop :=
  ∃ rest, (ss = pushCode E.vars E.index name p :: rest ∨
      ∃ s, s.isVars = true ∧ ss = s :: pushCode E.vars E.index name p :: rest) ∧
    ∀ before last, E.Clear last →
      E.Lays 0 as (stmtsStandings [] before last (pushCode E.vars E.index name p :: rest) 0)

theorem Lists.entered (hindex : E.new E.index = true) (h : E.Lists [] 0 as ss) :
    E.Entered name p as (afterVars (pushCode E.vars E.index name p) ss) := by
  have hpush {rest : List Stmt}
      (hrest : ∀ before last, E.Clear last → E.Lays 0 as (stmtsStandings [] before last rest 0))
        (before last : Option Stmt) (hlast : E.Clear last) :
      E.Lays 0 as (stmtsStandings [] before last (pushCode E.vars E.index name p :: rest) 0) :=
    .behind (isAdded_upkeep (isUpkeep_push hindex p name)) rfl (hrest _ last hlast)
  cases ss with
  | nil => exact ⟨[], .inl rfl, hpush h.lays⟩
  | cons s ss =>
    rw [afterVars]
    split
    · next hs => exact ⟨ss, .inr ⟨s, hs, rfl⟩, hpush (h.behind s ss hs rfl)⟩
    · exact ⟨s :: ss, .inl rfl, hpush h.lays⟩

theorem Entered.concat {e : Expr} {q : Position} (h : E.Entered name p as ss)
    (he : (Stmt.expr q e).isAdded E.vars E.new = true) (hreset : e.isReset E.vars E.new = false) :
    E.Entered name p as (ss ++ [.expr q e]) := by
  obtain ⟨rest, hss, hlays⟩ := h
  refine ⟨rest ++ [.expr q e], ?_, ?_⟩
  · rcases hss with rfl | ⟨s, hs, rfl⟩
    · exact .inl rfl
    · exact .inr ⟨s, hs, rfl⟩
  · intro before last _
    rw [← List.cons_append]
    exact .concat (hlays before) he hreset

theorem Entered.flush (h : E.Entered name p as ss) (q : Position) (l : Locals) :
    E.Lays 0 as (stmtsStandings [] none none (l.flush q ss) 0) := by
  obtain ⟨rest, hss, hlays⟩ := h
  have hbehind (s : Stmt) (hs : s.isVars = true) :
      E.Lays 0 as
        (stmtsStandings [] none none (s :: pushCode E.vars E.index name p :: rest) 0) := by
    cases s with
    | vars q ds => exact hlays (some (.vars q ds)) none rfl
    | _ => cases hs
  rw [Locals.flush]
  split
  · rcases hss with rfl | ⟨s, hs, rfl⟩
    · exact hlays none none rfl
    · exact hbehind s hs
  · obtain ⟨q', es, rest', hmerged, heq | ⟨-, heq, hhead⟩⟩ :=
      Program.mergeVars_cases q (l.pending.map (VarDecl.mk · none q)) ss
    · rcases hss with rfl | ⟨s, hs, rfl⟩
      · cases (List.cons.inj heq).1
      · rw [hmerged, ← (List.cons.inj heq).2]
        exact hbehind _ rfl
    · rcases hss with rfl | ⟨s, hs, rfl⟩
      · rw [hmerged, ← heq]
        exact hbehind _ rfl
      · cases (hhead s rfl).symm.trans hs

/-- The body, once the frame has its index. -/
theorem settles_body {f : Func} (hindex : E.new E.index = true)
    (hf : ∀ m ∈ stmtsNodes f.body.stmts, m.Below E.base) :
    E.Settles 0 none (stmtsHaveReturn f.body.stmts) f.standings (do
      let ss ← stmtsFramed E.vars E.wrap f.body.stmts {}
      let ss := afterVars (pushCode E.vars E.index f.name f.pos) ss
      if Block.endsWithExit ⟨ss, f.body.pos⟩ then return ss
        else return ss ++ [.ofExpr (← pop E.vars f.pos)])
      (E.Entered f.name f.pos f.standings) := by
  have hstart : Region.Matches {} [] := ⟨rfl, rfl⟩
  refine (settles_stmts hindex f.body.stmts {} none none hstart hf).bind_aside fun ss => ?_
  dsimp only
  split
  · exact .pure fun hss => hss.entered hindex
  · refine .after (P := (· = popCode E.vars E.index f.pos)) (.pop _ _) (fun _ hd => run_pop hd _ _)
      fun x hx => ?_
    subst hx
    exact .pure fun hss => (hss.entered hindex).concat (isAdded_upkeep (isUpkeep_pop hindex f.pos))
      rfl

end Function

end Exits

theorem Locals.earlyExit?_of_mem {l : Locals} {c : CleanupId} {s : SymbolId} (hl : l.handed.Nodup)
    (h : (c, s) ∈ l.earlyExits) : l.earlyExit? c = some s := by
  unfold handed at hl
  unfold earlyExit?
  generalize l.earlyExits = es at hl h ⊢
  induction es with
  | nil => cases h
  | cons e es ih =>
    obtain ⟨he, hes⟩ := List.nodup_cons.1 hl
    rcases List.mem_cons.1 h with rfl | h
    · simp
    · have hne : e.1 ≠ c := fun heq => he (List.mem_map.2 ⟨_, h, heq.symm⟩)
      rw [List.find?_cons_of_neg (by simpa using hne)]
      exact ih hes h

/-- The flags are handed out in the order of the text. -/
theorem Standing.nodup_flagged {as : List Standing} (h : Orderly [] 0 as) :
    ((as.filter Standing.isFlagged).map (·.number)).Nodup := by
  have hfilter : as.filter Standing.isFlagged =
      (as.filter Standing.isOutermost).filter (·.stmt.returnsThrough) := by
    rw [List.filter_filter]
    exact List.filter_congr fun a _ => Bool.and_comm _ _
  have hsub : ((as.filter Standing.isFlagged).map (·.number)).Sublist
      ((as.filter Standing.isOutermost).map (·.number)) := by
    rw [hfilter]
    exact List.filter_sublist.map _
  exact (h.numbers ▸ List.nodup_range').sublist hsub

namespace Exits

/-- The variables of a frame that has nothing but its index. -/
theorem ready_start (v : StackVars) (w : SymbolId) (t : ScopeTable) (sc : ScopeId)
    (flags : List (Nat × SymbolId)) :
    Ready ⟨v, w, t.symbols.size, ⟨t.symbols.size⟩, flags⟩
      (Locals.frameIndexVar.run { table := t, scope := sc }).2 where
  frameIndex := rfl
  base_le := Nat.le_trans (Nat.le_succ _) (Nat.le_of_eq (ScopeTable.size_addSymbol t _).symm)
  temp := nofun
  flags := by
    have hshort : "stackIndex" ≠ "exitingEarly" := by decide
    refine Eq.trans ?_ (ScopeTable.namedSince_addSymbol (Nat.le_refl _) _).symm
    rw [if_neg hshort, ScopeTable.namedSince, List.drop_eq_nil_of_le
      (Nat.le_of_eq Array.length_toList)]
    rfl
  handed := nofun

/-- The flags that there are in the end. -/
theorem Final.of_flags {E : Exits} {l : Locals}
    (hE : E.flags = l.earlyExits.map fun e => (e.1.index, e.2)) (hl : l.handed.Nodup) :
    E.Final none l where
  kept c s hs := by
    rw [hE]
    exact List.mem_map_of_mem (Locals.mem_of_earlyExit? hs)
  all c s _ _ hs := by
    rw [hE] at hs
    obtain ⟨⟨⟨m⟩, s'⟩, he, heq⟩ := List.mem_map.1 hs
    obtain ⟨rfl, rfl⟩ := Prod.mk.inj heq
    exact Locals.earlyExit?_of_mem hl he

end Exits

namespace Func

variable (v : StackVars) (w : SymbolId) {f : Func} (recorder : Option Recorder) {t : ScopeTable}

/-- Flags, pops, resets and added catch clauses are where the `try` statements around make them
necessary. -/
theorem placed_framed (hf : ∀ n ∈ f.body.nodes, n.Below t.symbols.size) :
    ∃ flags, Exits.Placed ⟨v, w, t.symbols.size, ⟨t.symbols.size⟩, flags⟩ f
      (f.framed v w recorder t).1 (f.framed v w recorder t).2.2 := by
  let y := (f.framedBody v w).run { locals := { table := t, scope := f.scope }, recorder }
  let E : Exits :=
    ⟨v, w, t.symbols.size, ⟨t.symbols.size⟩, y.2.locals.earlyExits.map fun e => (e.1.index, e.2)⟩
  have hindex : E.new E.index = true := decide_eq_true (Nat.le_refl _)
  have hstmts : ∀ m ∈ stmtsNodes f.body.stmts, m.Below t.symbols.size := by
    obtain ⟨_, _, ⟨ss, q⟩, _, _⟩ := f
    exact (List.forall_mem_cons.1 hf).2
  obtain ⟨hhands, hentered⟩ := Exits.settles_body (f := f) hindex hstmts
    ((push v f.name f.pos).run { locals := { table := t, scope := f.scope }, recorder }).2
    (Exits.ready_start v w t f.scope _) rfl nofun
  have horderly : Orderly [] 0 f.standings := stmts_orderly _ _ _ _ _
  have hhanded : y.2.locals.handed = (f.standings.filter Standing.isFlagged).map (⟨·.number⟩) :=
    hhands.handed
  have hnumbers : E.flags.map (·.1) = (f.standings.filter Standing.isFlagged).map (·.number) := by
    have hindices := congrArg (List.map CleanupId.index) hhanded
    rw [Locals.handed, List.map_map, List.map_map] at hindices
    rw [List.map_map]
    exact hindices
  have hnodup : y.2.locals.handed.Nodup := by
    refine List.Nodup.of_map CleanupId.index ?_
    rw [hhanded, List.map_map]
    exact Standing.nodup_flagged horderly
  have hflags : E.flags.map (·.2) = y.2.locals.table.namedSince t.symbols.size "exitingEarly" := by
    rw [List.map_map]
    exact hhands.ready.flags
  have hlays := (hentered (.of_flags rfl hnodup)).flush f.pos y.2.locals
  refine ⟨E.flags, hindex, ?_, hflags, hflags ▸ ScopeTable.nodup_namedSince, hnumbers, hlays.places,
    hlays.resets⟩
  rw [List.range_eq_range']
  exact horderly.numbers

/-- `try { if (a) return f(); } finally { try { return; } finally { g(); } }` and
`try { g(); } catch (e) { e = wrap(e); while (a) e = wrap(e); } return f();` -/
def sheltered : Func :=
  let p : Position := ⟨"lib/a.js", 1⟩
  let call (s : Nat) : Expr := .call p (.var p ⟨s⟩) []
  let wrapped : Stmt := .expr p (.assign p (.var p ⟨4⟩) (.call p (.var p ⟨0⟩) [.var p ⟨4⟩]))
  let inner : Stmt := .tryBlock p ⟨[.ret p none], p⟩ [] (some ⟨[.expr p (call 3)], p⟩)
  ⟨none, [], ⟨[
    .tryBlock p ⟨[.branch p (.var p ⟨1⟩) (.ret p (some (call 2))) none], p⟩ [] (some ⟨[inner], p⟩),
    .tryBlock p ⟨[.expr p (call 3)], p⟩
      [⟨⟨4⟩, ⟨2⟩, ⟨[wrapped, .whileLoop p (.var p ⟨1⟩) wrapped], p⟩, p⟩] none,
    .ret p (some (call 2))], p⟩, ⟨1⟩, p⟩

theorem sheltered_below :
    sheltered.body.nodes.all
      (fun n => n.var?.all fun s => s.index < ScopeTable.initial.symbols.size) = true := by
  decide +kernel

theorem placed_framed_sheltered :
    sheltered.standings.countP Standing.isFlagged = 2 ∧
      sheltered.standings.countP Standing.lacksCatch = 2 ∧
    sheltered.standings.countP (·.needsReset ⟨0⟩) = 2 ∧
    let t := ScopeTable.initial
    ∃ flags, Exits.Placed ⟨⟨⟨5⟩, ⟨6⟩, none⟩, ⟨0⟩, t.symbols.size, ⟨t.symbols.size⟩, flags⟩ sheltered
      (sheltered.framed ⟨⟨5⟩, ⟨6⟩, none⟩ ⟨0⟩ none t).1
      (sheltered.framed ⟨⟨5⟩, ⟨6⟩, none⟩ ⟨0⟩ none t).2.2 := by
  refine ⟨by decide, by decide, by decide,
    placed_framed ⟨⟨5⟩, ⟨6⟩, none⟩ ⟨0⟩ none fun n hn s hs => ?_⟩
  simpa [hs] using List.all_eq_true.1 sheltered_below n hn

end Func

end FrameLedger
