import FrameLedger.Builder
import FrameLedger.Proofs.Emulated
import FrameLedger.Proofs.Plays

/-!
# Balance

The two things a stack is kept for. A call that completes leaves the depth as it was
(`depth_balanced`). No call, however it goes, touches the frames of its callers, unless an array of
the stack is handed to it from outside (`frames_protected`, `frames_handed`). Both are read off the
trace of a play of the program with its stack: `Program.Resolved.keptThroughout`.
-/

namespace FrameLedger

open Eval

/-! ## Programs whose symbols are in their tables -/

/-- Whether all symbols are in the table. -/
def Program.isResolved (p : Program) : Bool :=
  p.code.nodes.all (fun n => n.symbols.all (·.index < p.table.symbols.size)) &&
    p.table.scopes.all (fun sc => sc.names.entries.all (·.2.index < p.table.symbols.size)) &&
      p.indexed.entries.all (·.2.index < p.table.symbols.size)

theorem SortedMap.exists_mem_of_get? {κ α : Type} [Ord κ] {m : SortedMap κ α} {k : κ} {v : α}
    (h : m.get? k = some v) : ∃ e ∈ m.entries, e.2 = v := exists_mem_of_findEntry h

theorem Program.resolved_of_isResolved {p : Program} (h : p.isResolved = true) : p.Resolved := by
  simp only [isResolved, Bool.and_eq_true, List.all_eq_true, Array.all_eq_true_iff_forall_mem,
    decide_eq_true_eq] at h
  obtain ⟨⟨hcode, hscopes⟩, hindexed⟩ := h
  refine ⟨hcode, fun sc x s hs => ?_, fun x s hs => ?_⟩
  · rw [ScopeTable.findIn, ScopeTable.namesIn, ScopeTable.scope?] at hs
    rcases hsc : p.table.scopes[sc.index]? with _ | scope <;> rw [hsc] at hs
    · cases hs
    · obtain ⟨e, he, rfl⟩ := SortedMap.exists_mem_of_get? hs
      exact hscopes scope (Array.mem_of_getElem? hsc) e he
  · obtain ⟨e, he, rfl⟩ := SortedMap.exists_mem_of_get? hs
    exact hindexed e he

/-! ## What a play keeps -/

theorem Setting.exists_ofEnter (c : Setting) : ∃ enter, c.caller = Caller.ofEnter c enter := by
  unfold caller
  rcases c.limits.calls with _ | n <;> exact ⟨_, rfl⟩

theorem Session.alloc_held {s : Session} {v : Value} (hv : s.machine.store.holds v = true) :
    s.alloc [.held v] = ([v], s) := by
  simp [alloc, allocAll, Datum.alloc, hv]

theorem Play.session_call (p : Program) (probe : Option StackVars) (limits : Limits)
    (acts : List Act) (name : String) (args : List Datum) :
    (Play.of p probe limits (acts ++ [.call name args])).session =
      (((Play.of p probe limits acts).session.alloc args).2.call name
        ((Play.of p probe limits acts).session.alloc args).1).2 := by
  rw [Play.of, List.foldl_append]
  rfl

/-- A call from outside that reaches a function is an event of its own. -/
theorem Session.happens_call (s : Session) (name : String) (args : List Value) (callee : Value)
    (hglobal : s.global name = some callee) (hcallable : callee.isCallable = true) :
    ∃ inside outcome,
      Happens (.call callee args s.machine.store inside outcome (s.call name args).2.machine.store)
        (s.call name args).2.machine.trace.val ∧
      ∀ v, (s.call name args).1 = .ok v → outcome = .ok v := by
  obtain ⟨enter, henter⟩ := s.setting.exists_ofEnter
  simp only [call, hglobal, hcallable, if_true, perform_eq, henter, Caller.ofEnter, go_together,
    Ghost.val_of]
  refine ⟨_, _, .append_right (.here []) _, fun v hv => ?_⟩
  generalize (Caller.invoke s.setting enter callee args s.program.code.pos).go _ = y at hv ⊢
  rcases y with ⟨e | _, n⟩ <;> cases hv
  rfl

section

variable {p : Program} {r : Recording} {v : StackVars}

theorem Program.wrap?_of_vars (hv : (p.emulate r).1.vars = some v) : ∃ w, p.wrap? = some w := by
  rcases hw : p.wrap? with _ | w
  · rw [emulate, hw] at hv
    cases hv
  · exact ⟨w, rfl⟩

/-- All calls of a play of the program with its stack keep what they have to. -/
theorem Program.Resolved.keptThroughout (hp : p.Resolved) (hv : (p.emulate r).1.vars = some v)
    (href : ∀ role, p.references role = false) (probe : Option StackVars) (limits : Limits)
    (acts : List Act) (closed : Prop)
    (hd : closed → Play.Discreet v ⟨.start (p.emulate r).2 probe limits, []⟩ acts) :
    ∃ L : Layout, L.vars = v ∧ (∀ f, L.exempt f ↔ p.isImmortal f) ∧
      KeptThroughout L ⟨closed, limits.steps⟩
        (Play.of (p.emulate r).2 probe limits acts).session.machine.trace.val := by
  obtain ⟨w, hw⟩ := wrap?_of_vars hv
  obtain ⟨L, hL, hvars, hexempt, hopens, hroots⟩ := hp.emulate_opens (r := r) hw href
  obtain rfl := Option.some.inj ((emulate_eq (r := r) hw href).1.symm.trans hv)
  exact ⟨L, hvars, hexempt, Play.keptThroughout hL hopens (fun k s => hroots k.name s) probe limits
    rfl acts fun hc => hvars ▸ hd hc⟩

theorem Program.isImmortal_of_empty (h : p.immortal = ∅) (f : Func) : ¬ p.isImmortal f := by
  rw [isImmortal, h]
  cases f.name with
  | none => exact Bool.false_ne_true
  | some s => exact Bool.false_ne_true

end

open Builder in
-- Irreducible, so that it is run by the kernel only.
/-- `g` throws. `f` catches what `g` throws and returns it past a `finally` block. `h` writes to the
array it is given. -/
@[irreducible] def rescue : Program :=
  ((do
    let w ← defineWrap
    let p ← getPos
    let (g, decl) ← functionDecl "g" [] fun _ => return [.raise p (.number p 7)]
    Builder.push decl
    let (_, decl) ← functionDecl "f" [] fun _ => do
      let c ← catchClause "e" fun e =>
        return [.ofExpr (.assign p (.var p e) (.call p (.var p w) [.var p e])),
          .ret p (some (.var p e))]
      return [.tryBlock p ⟨[.ret p (some (.call p (.var p g) []))], p⟩ [c] (some ⟨[.empty p], p⟩)]
    Builder.push decl
    let (_, decl) ← functionDecl "h" ["a"] fun params => do
      return params.map fun a =>
        .ofExpr (.assign p (.index p (.var p a) (.number p 0)) (.number p 7))
    Builder.push decl : StateM Builder Unit).run (.start "rescue.js")).2.program

def rescuePlay (acts : List Act) : Play := Play.of (rescue.emulate .lines).2 none ⟨60, 8⟩ acts

-- One evaluation for all that is read off the program and its plays: the kernel runs each play
-- once.
theorem rescue_evaluated :
    rescue.isResolved = true ∧ (∀ role ∈ StackRole.all, rescue.references role = false) ∧
      (rescue.emulate .lines).1.vars = some (rescue.stackVars .lines) ∧
      (rescuePlay [.run, .call "g" []]).session.global "f" = some (.function ⟨2⟩) ∧
      ((rescuePlay [.run, .call "g" []]).session.call "f" []).1 = .ok (.number 7) ∧
      (rescuePlay [.run, .call "g" []]).session.machine.store.local? Store.globals
        (rescue.stackVars .lines).stack = some (.array ⟨0⟩) ∧
      (rescuePlay [.run, .call "g" []]).session.machine.store.local? Store.globals
        (rescue.stackVars .lines).depth = some (.number 0) := by decide +kernel

theorem rescue_handed :
    (rescuePlay [.run, .call "g" []]).session.machine.store.holds (.array ⟨0⟩) = true ∧
      (rescuePlay [.run, .call "g" []]).session.global "h" = some (.function ⟨3⟩) ∧
      ((rescuePlay [.run, .call "g" []]).session.call "h" [.array ⟨0⟩]).1 = .ok .undefined ∧
      (rescuePlay [.run, .call "g" []]).session.machine.store.element ⟨0⟩ 0 = .function ⟨1⟩ ∧
      ((rescuePlay [.run, .call "g" []]).session.call "h"
        [.array ⟨0⟩]).2.machine.store.element ⟨0⟩ 0 = .number 7 := by decide +kernel

/-- `f` is called where `g` has left its frame behind. -/
theorem happens_rescue : ∃ inside, Happens
    (.call (.function ⟨2⟩) [] (rescuePlay [.run, .call "g" []]).session.machine.store inside
      (.ok (.number 7)) (rescuePlay [.run, .call "g" [], .call "f" []]).session.machine.store)
    (rescuePlay [.run, .call "g" [], .call "f" []]).session.machine.trace.val := by
  obtain ⟨-, -, -, hglobal, hcalled, -⟩ := rescue_evaluated
  obtain ⟨inside, outcome, hcall, hres⟩ :=
    (rescuePlay [.run, .call "g" []]).session.happens_call "f" [] (.function ⟨2⟩) hglobal rfl
  obtain rfl := hres (.number 7) hcalled
  have hplay : (rescuePlay [.run, .call "g" [], .call "f" []]).session =
      ((rescuePlay [.run, .call "g" []]).session.call "f" []).2 :=
    Play.session_call _ none ⟨60, 8⟩ [.run, .call "g" []] "f" []
  exact ⟨inside, hplay ▸ hcall⟩

theorem rescue_resolved : rescue.Resolved := Program.resolved_of_isResolved rescue_evaluated.1

theorem rescue_references (role : StackRole) : rescue.references role = false :=
  rescue_evaluated.2.1 role (by cases role <;> decide)

theorem rescue_vars : (rescue.emulate .lines).1.vars = some (rescue.stackVars .lines) :=
  rescue_evaluated.2.2.1

theorem rescue_stack : (rescuePlay [.run, .call "g" []]).session.machine.store.local? Store.globals
    (rescue.stackVars .lines).stack = some (.array ⟨0⟩) := rescue_evaluated.2.2.2.2.2.1

theorem rescue_depth : (rescuePlay [.run, .call "g" []]).session.machine.store.local? Store.globals
    (rescue.stackVars .lines).depth = some (.number 0) := rescue_evaluated.2.2.2.2.2.2

/-- Depths are exact and have their decimal texts as keys, as far as sixty frames above the
first. -/
theorem level_sixty : level 1 = 0 ∧ (∀ k ≤ 60, level (1 + k) + 1 - 1 = level (1 + k)) ∧
    ∀ k < 60, displayNumber (level (1 + k + 1)) = toString (1 + k) := by decide +kernel

section

variable {p : Program} {r : Recording} {v : StackVars} {limits : Limits} {callee res : Value}
  {args : List Value} {before after : Store} {inside : List Event} {outcome : Except Abrupt Value}
  {a : ArrayRef} {d : Float} {n : Nat}

/-- A call that completes leaves the depth as it found it, if no function is immortal and adding one
to the depth and taking it away again leads back. -/
theorem depth_balanced (hp : p.Resolved) (hv : (p.emulate r).1.vars = some v)
    (himm : p.immortal = ∅) (href : ∀ role, p.references role = false) (probe : Option StackVars)
    (acts : List Act)
    (hcall : Happens (.call callee args before inside (.ok res) after)
      (Play.of (p.emulate r).2 probe limits acts).session.machine.trace.val)
    (hstack : before.local? Store.globals v.stack = some (.array a))
    (hdepth : before.local? Store.globals v.depth = some (.number d)) (hexact : d + 1 - 1 = d) :
    after.local? Store.globals v.depth = some (.number d) := by
  obtain ⟨L, rfl, hexempt, hkept⟩ := hp.keptThroughout hv href probe limits acts False False.elim
  obtain ⟨arrays, d', hbefore, -, hreturn⟩ := hkept _ hcall a hstack
  obtain rfl : d' = d := Value.number.inj (Option.some.inj (hbefore.depth.symm.trans hdepth))
  obtain ⟨x, hlevel, hafter⟩ := hreturn res rfl
  have hx : x = d' :=
    (hlevel fun f hf => Program.isImmortal_of_empty himm f ((hexempt f).1 hf)).eq hexact
  rw [hafter.depth, hx]

/-- A call of `f` at depth `0` catches what `g` throws two frames up, and is back at depth `0`. -/
theorem depth_balanced_rescue : ∃ v inside,
    (rescue.emulate .lines).1.vars = some v ∧
      Happens
        (.call (.function ⟨2⟩) [] (rescuePlay [.run, .call "g" []]).session.machine.store inside
          (.ok (.number 7)) (rescuePlay [.run, .call "g" [], .call "f" []]).session.machine.store)
        (rescuePlay [.run, .call "g" [], .call "f" []]).session.machine.trace.val ∧
      (rescuePlay [.run, .call "g" []]).session.machine.store.local? Store.globals v.depth =
        some (.number 0) ∧
      (rescuePlay [.run, .call "g" [], .call "f" []]).session.machine.store.local? Store.globals
        v.depth = some (.number 0) := by
  obtain ⟨inside, hcall⟩ := happens_rescue
  exact ⟨_, inside, rescue_vars, hcall, rescue_depth,
    depth_balanced rescue_resolved rescue_vars (by decide +kernel) rescue_references none _ hcall
      rescue_stack rescue_depth (by decide +kernel)⟩

/-- During a call that begins with `n` frames, and after it, however it ends, there are no fewer
frames than that, and those of the callers are what they were. No act may hand an array of the stack
to the program, and the depths that the call passes have to be exact and have their decimal texts as
keys. -/
theorem frames_protected (hp : p.Resolved) (hv : (p.emulate r).1.vars = some v)
    (href : ∀ role, p.references role = false) (probe : Option StackVars) (acts : List Act)
    (hdiscreet : Play.Discreet v ⟨.start (p.emulate r).2 probe limits, []⟩ acts)
    (hcall : Happens (.call callee args before inside outcome after)
      (Play.of (p.emulate r).2 probe limits acts).session.machine.trace.val)
    (hstack : before.local? Store.globals v.stack = some (.array a))
    (hdepth : before.local? Store.globals v.depth = some (.number (level n)))
    (hexact : ∀ k ≤ limits.steps, Passes v (level n) inside (level (n + k)) →
      level (n + k) + 1 - 1 = level (n + k))
    (hkeyed : ∀ k < limits.steps, Passes v (level n) inside (level (n + k + 1)) →
      displayNumber (level (n + k + 1)) = toString (n + k)) :
    ∃ arrays : StackArrays, before.Stacked v arrays (level n) ∧
      ∀ h, h = after ∨ (∃ e, Happens e inside ∧ h ∈ e.stores) →
        (∃ k, n ≤ k ∧ h.Stacked v arrays (level k)) ∧
          ∀ q, arrays.Holds q → ∀ i < n, h.element q i = before.element q i := by
  obtain ⟨L, rfl, -, hkept⟩ := hp.keptThroughout hv href probe limits acts True fun _ => hdiscreet
  obtain ⟨arrays, d, hbefore, hsees, -⟩ := hkept _ hcall a hstack
  obtain rfl : d = level n := Value.number.inj (Option.some.inj (hbefore.depth.symm.trans hdepth))
  refine ⟨arrays, hbefore, fun h hh => ?_⟩
  obtain ⟨⟨k, hk, x, hx, hstacked⟩, hagrees⟩ := hsees h hh
  obtain rfl := hx.eq_level fun j hj => hexact j (Nat.le_trans hj hk)
  refine ⟨⟨n + k, Nat.le_add_right n k, hstacked⟩,
    fun q hq i hi => hagrees trivial q hq i fun htouch => ?_⟩
  exact Nat.not_le_of_lt hi (htouch.le hexact hkeyed)

/-- The frame that `g` has left behind stays as it is while `f` runs above it. -/
theorem frames_protected_rescue : ∃ v inside,
    (rescue.emulate .lines).1.vars = some v ∧
      Happens
        (.call (.function ⟨2⟩) [] (rescuePlay [.run, .call "g" []]).session.machine.store inside
          (.ok (.number 7)) (rescuePlay [.run, .call "g" [], .call "f" []]).session.machine.store)
        (rescuePlay [.run, .call "g" [], .call "f" []]).session.machine.trace.val ∧
      (rescuePlay [.run, .call "g" []]).session.machine.store.local? Store.globals v.depth =
        some (.number (level 1)) ∧
      ∃ arrays : StackArrays,
        (rescuePlay [.run, .call "g" []]).session.machine.store.Stacked v arrays (level 1) ∧
        ∀ h, h = (rescuePlay [.run, .call "g" [], .call "f" []]).session.machine.store ∨
            (∃ e, Happens e inside ∧ h ∈ e.stores) →
          (∃ k, 1 ≤ k ∧ h.Stacked v arrays (level k)) ∧ ∀ q, arrays.Holds q → ∀ i < 1,
            h.element q i =
              (rescuePlay [.run, .call "g" []]).session.machine.store.element q i := by
  obtain ⟨inside, hcall⟩ := happens_rescue
  obtain ⟨hone, hexact, hkeyed⟩ := level_sixty
  have hdepth := rescue_depth
  rw [← hone] at hdepth
  have hdiscreet : Play.Discreet (rescue.stackVars .lines)
      ⟨.start (rescue.emulate .lines).2 none ⟨60, 8⟩, []⟩ [.run, .call "g" [], .call "f" []] :=
    ⟨trivial, fun _ h => absurd h List.not_mem_nil, fun _ h => absurd h List.not_mem_nil, trivial⟩
  exact ⟨_, inside, rescue_vars, hcall, hdepth,
    frames_protected rescue_resolved rescue_vars rescue_references none _ hdiscreet hcall
      rescue_stack hdepth (fun k hk _ => hexact k hk) fun k hk _ => hkeyed k hk⟩

/-- Handed to `h` from outside, the array of the stack is written to: the frame that `g` has left
behind is lost, while all is as `frames_protected` asks but for that. -/
theorem frames_handed : rescue.Resolved ∧ (∀ role, rescue.references role = false) ∧ ∃ v inside,
    (rescue.emulate .lines).1.vars = some v ∧
      Happens
        (.call (.function ⟨3⟩) [.array ⟨0⟩]
          (rescuePlay [.run, .call "g" []]).session.machine.store inside (.ok .undefined)
          (rescuePlay [.run, .call "g" [], .call "h" [.held (.array ⟨0⟩)]]).session.machine.store)
        (rescuePlay
          [.run, .call "g" [], .call "h" [.held (.array ⟨0⟩)]]).session.machine.trace.val ∧
      (rescuePlay [.run, .call "g" []]).session.machine.store.local? Store.globals v.stack =
        some (.array ⟨0⟩) ∧
      (rescuePlay [.run, .call "g" []]).session.machine.store.local? Store.globals v.depth =
        some (.number (level 1)) ∧
      (∀ k ≤ 60, level (1 + k) + 1 - 1 = level (1 + k)) ∧
      (∀ k < 60, displayNumber (level (1 + k + 1)) = toString (1 + k)) ∧
      (rescuePlay [.run, .call "g" []]).session.machine.store.element ⟨0⟩ 0 = .function ⟨1⟩ ∧
      (rescuePlay
        [.run, .call "g" [], .call "h" [.held (.array ⟨0⟩)]]).session.machine.store.element ⟨0⟩ 0 =
        .number 7 := by
  obtain ⟨hheld, hglobal, hcalled, hwas, his⟩ := rescue_handed
  obtain ⟨inside, outcome, hcall, hres⟩ :=
    (rescuePlay [.run, .call "g" []]).session.happens_call "h" [.array ⟨0⟩] (.function ⟨3⟩)
      hglobal rfl
  obtain rfl := hres .undefined hcalled
  have hplay : (rescuePlay [.run, .call "g" [], .call "h" [.held (.array ⟨0⟩)]]).session =
      ((rescuePlay [.run, .call "g" []]).session.call "h" [.array ⟨0⟩]).2 := by
    have hcalled : (rescuePlay [.run, .call "g" [], .call "h" [.held (.array ⟨0⟩)]]).session =
        (((rescuePlay [.run, .call "g" []]).session.alloc [.held (.array ⟨0⟩)]).2.call "h"
          ((rescuePlay [.run, .call "g" []]).session.alloc [.held (.array ⟨0⟩)]).1).2 :=
      Play.session_call _ none ⟨60, 8⟩ [.run, .call "g" []] "h" _
    rwa [Session.alloc_held hheld] at hcalled
  obtain ⟨hone, hexact, hkeyed⟩ := level_sixty
  have hdepth := rescue_depth
  rw [← hone] at hdepth
  exact ⟨rescue_resolved, rescue_references, _, inside, rescue_vars, hplay ▸ hcall, rescue_stack,
    hdepth, hexact, hkeyed, hwas, hplay ▸ his⟩

end

end FrameLedger
