import FrameLedger.Proofs.Environment
import FrameLedger.Proofs.Framing

/-!
# The store of a program that keeps its stack

`Store.Fits` says how such a store is laid out: the variables of the stack are bound in the global
frame only, and nothing but they leads to the guarded arrays, which hold the stack. `Store.Ordinary`
says what a program does to it by its own code: whatever it writes, the symbols that are not its own
and the guarded arrays stay as they are. `Store.Grows` says what is left of that when framed code
runs.
-/

namespace FrameLedger

/-- A value that leads to nothing that is guarded. -/
def Store.Clear (h : Store) (G : ArrayRef → Prop) : Value → Prop
  | .array r => r.index < h.arrays.size ∧ ¬ G r
  | _ => True

/-- An object all of whose values are clear. -/
def Store.ClearObject (h : Store) (G : ArrayRef → Prop) (o : Object) : Prop :=
  (∀ e ∈ o.properties.entries, h.Clear G e.2) ∧ ∀ v, o.ctor = some v → h.Clear G v

structure Store.Fits (L : Layout) (G : ArrayRef → Prop) (h : Store) : Prop extends h.Rooted where
  elsewhere : ∀ f s, f ≠ globals → L.vars.Uses s → h.local? f s = none
  closure : ∀ r cl, h.closure? r = some cl → ∃ f, L.pairs f cl.func
  has_env : ∀ r cl, h.closure? r = some cl → h.Has cl.env
  named : ∀ r cl s, h.closure? r = some cl → cl.func.name = some s → (h.local? cl.env s).isSome
  binding : ∀ f s v, h.local? f s = some v → ¬ L.vars.Uses s → h.Clear G v
  arrays : ∀ vs ∈ h.arrays, ∀ v ∈ vs, h.Clear G v
  objects : ∀ o ∈ h.objects, h.ClearObject G o
  guarded_lt : ∀ r, G r → r.index < h.arrays.size

/-- What changes in a store by the program's own code. -/
structure Store.Ordinary (L : Layout) (G : ArrayRef → Prop) (h h' : Store) : Prop where
  has : ∀ f, h.Has f → h'.Has f
  parent? : ∀ f, h.Has f → h'.parent? f = h.parent? f
  bound : ∀ f s, (h.local? f s).isSome → (h'.local? f s).isSome
  others : ∀ f s, h.Has f → ¬ L.Writes s → h'.local? f s = h.local? f s
  closure? : ∀ r cl, h.closure? r = some cl → h'.closure? r = some cl
  arrays_le : h.arrays.size ≤ h'.arrays.size
  guarded : ∀ r, G r → h'.array r = h.array r

/-- The bindings that framed code in a frame may change besides those of the program itself. -/
def Site.Mine (K : Site) (B f : FrameId) (s : SymbolId) : Prop :=
  K.vars.Uses s ∨ ∃ own, K.own = some own ∧ own.Uses s ∧ f = B

/-- What changes in a store by framed code that keeps its frame in `B`. -/
structure Store.Grows (K : Site) (B : FrameId) (h h' : Store) : Prop where
  has : ∀ f, h.Has f → h'.Has f
  parent? : ∀ f, h.Has f → h'.parent? f = h.parent? f
  bound : ∀ f s, (h.local? f s).isSome → (h'.local? f s).isSome
  others : ∀ f s, h.Has f → ¬ K.Writes s → ¬ K.Mine B f s → h'.local? f s = h.local? f s
  closure? : ∀ r cl, h.closure? r = some cl → h'.closure? r = some cl
  arrays_le : h.arrays.size ≤ h'.arrays.size
  /-- A flag that is set stays set. -/
  flag : ∀ own s, K.own = some own → s ∈ own.flags → h.local? B s = some (.bool true) →
    h'.local? B s = some (.bool true)

namespace SortedMap

variable {κ α : Type} [Ord κ]

theorem exists_mem_of_findEntry {k : κ} {v : α} :
    ∀ {entries : List (κ × α)}, findEntry k entries = some v → ∃ e ∈ entries, e.2 = v
  | [], h => by simp [findEntry] at h
  | e :: rest, h => by
    simp only [findEntry] at h
    split at h
    · exact ⟨e, List.mem_cons_self, Option.some.inj h⟩
    · obtain ⟨e', he', hv⟩ := exists_mem_of_findEntry h
      exact ⟨e', List.mem_cons_of_mem _ he', hv⟩

variable [Std.TransOrd κ]

theorem mem_insertMany : ∀ {entries : List (κ × α)} {m : SortedMap κ α} {e : κ × α},
    e ∈ (m.insertMany entries).entries → e ∈ m.entries ∨ e ∈ entries
  | [], m, e, h => .inl h
  | x :: rest, m, e, h => by
    have hrest : e ∈ ((m.insert x.1 x.2).insertMany rest).entries := h
    rcases mem_insertMany hrest with h | h
    · rcases mem_insertEntry h with rfl | h
      · exact .inr List.mem_cons_self
      · exact .inl h
    · exact .inr (List.mem_cons_of_mem _ h)

theorem mem_ofList {entries : List (κ × α)} {e : κ × α} (h : e ∈ (ofList entries).entries) :
    e ∈ entries := by
  rcases mem_insertMany h with h | h
  · exact absurd h List.not_mem_nil
  · exact h

end SortedMap

namespace Store

variable {L : Layout} {G : ArrayRef → Prop} {h h' h'' : Store}

theorem Clear.mono {v : Value} (hv : h.Clear G v) (hle : h.arrays.size ≤ h'.arrays.size) :
    h'.Clear G v := by
  cases v with
  | array r => exact ⟨Nat.lt_of_lt_of_le hv.1 hle, hv.2⟩
  | _ => trivial

theorem ClearObject.mono {o : Object} (ho : h.ClearObject G o)
    (hle : h.arrays.size ≤ h'.arrays.size) :
    h'.ClearObject G o :=
  ⟨fun e he => (ho.1 e he).mono hle, fun v hv => (ho.2 v hv).mono hle⟩

theorem mem_modify {α : Type} {xs : Array α} {i : Nat} {f : α → α} {x : α}
    (hx : x ∈ xs.modify i f) :
    x ∈ xs ∨ ∃ y, xs[i]? = some y ∧ x = f y := by
  obtain ⟨j, hj⟩ := Array.mem_iff_getElem?.1 hx
  rw [Array.getElem?_modify] at hj
  split at hj
  · next he =>
    subst he
    obtain ⟨y, hy, rfl⟩ := Option.map_eq_some_iff.1 hj
    exact .inr ⟨y, hy, rfl⟩
  · exact .inl (Array.mem_iff_getElem?.2 ⟨j, hj⟩)

theorem Ordinary.refl (L : Layout) (G : ArrayRef → Prop) (h : Store) : h.Ordinary L G h :=
  ⟨fun _ => id, fun _ _ => rfl, fun _ _ => id, fun _ _ _ _ => rfl, fun _ _ => id, Nat.le_refl _,
    fun _ _ => rfl⟩

theorem Ordinary.trans (a : h.Ordinary L G h') (b : h'.Ordinary L G h'') : h.Ordinary L G h'' where
  has f hf := b.has f (a.has f hf)
  parent? f hf := (b.parent? f (a.has f hf)).trans (a.parent? f hf)
  bound f s hs := b.bound f s (a.bound f s hs)
  others f s hf hs := (b.others f s (a.has f hf) hs).trans (a.others f s hf hs)
  closure? r cl hc := b.closure? r cl (a.closure? r cl hc)
  arrays_le := Nat.le_trans a.arrays_le b.arrays_le
  guarded r hr := (b.guarded r hr).trans (a.guarded r hr)

section Grows

variable {K : Site} {B : FrameId}

theorem Grows.refl (K : Site) (B : FrameId) (h : Store) : h.Grows K B h :=
  ⟨fun _ => id, fun _ _ => rfl, fun _ _ => id, fun _ _ _ _ _ => rfl, fun _ _ => id, Nat.le_refl _,
    fun _ _ _ _ => id⟩

theorem Grows.trans (a : h.Grows K B h') (b : h'.Grows K B h'') : h.Grows K B h'' where
  has f hf := b.has f (a.has f hf)
  parent? f hf := (b.parent? f (a.has f hf)).trans (a.parent? f hf)
  bound f s hs := b.bound f s (a.bound f s hs)
  others f s hf hs hm := (b.others f s (a.has f hf) hs hm).trans (a.others f s hf hs hm)
  closure? r cl hc := b.closure? r cl (a.closure? r cl hc)
  arrays_le := Nat.le_trans a.arrays_le b.arrays_le
  flag own s ho hs hv := b.flag own s ho hs (a.flag own s ho hs hv)

theorem Ordinary.grows (a : h.Ordinary K.toLayout G h')
    (hflags : ∀ own s, K.own = some own → s ∈ own.flags → ¬ K.Writes s) : h.Grows K B h' where
  has := a.has
  parent? := a.parent?
  bound := a.bound
  others f s hf hs _ := a.others f s hf hs
  closure? := a.closure?
  arrays_le := a.arrays_le
  flag own s ho hs hv := by rw [a.others B s (has_of_local? hv) (hflags own s ho hs), hv]

/-- A frame of the code whose frame is kept in `B`: that one, or one of a catch clause inside. -/
inductive Inside (K : Site) (B : FrameId) (h : Store) : FrameId → Prop
  | body : h.Has B → (∀ own s, K.own = some own → own.Uses s → (h.local? B s).isSome) →
      Inside K B h B
  | inner {f p : FrameId} : h.Has f → f ≠ B → h.parent? f = some p →
    (∀ own s, K.own = some own → own.Uses s → h.local? f s = none) → Inside K B h p → Inside K B h f

theorem Inside.has {f : FrameId} (hf : Inside K B h f) : h.Has f := by
  cases hf with
  | body hB _ => exact hB
  | inner hf _ _ _ _ => exact hf

theorem Inside.has_body {f : FrameId} (hf : Inside K B h f) : h.Has B := by
  induction hf with
  | body hB _ => exact hB
  | inner _ _ _ _ _ ih => exact ih

theorem Inside.mono (hg : h.Grows K B h')
    (hfresh : ∀ own s, K.own = some own → own.Uses s → ¬ K.Writes s ∧ ¬ K.vars.Uses s) {f : FrameId}
    (hf : Inside K B h f) : Inside K B h' f := by
  induction hf with
  | body hB hs => exact .body (hg.has _ hB) fun own s ho hu => hg.bound _ _ (hs own s ho hu)
  | @inner f p hf hne hp hs _ ih =>
    refine .inner (hg.has f hf) hne ((hg.parent? f hf).trans hp) (fun own s ho hu => ?_) ih
    rw [hg.others f s hf (hfresh own s ho hu).1, hs own s ho hu]
    rintro (hv | ⟨-, -, -, rfl⟩)
    · exact (hfresh own s ho hu).2 hv
    · exact hne rfl

/-- The symbols of the frame are found where it is kept. -/
theorem Inside.owner? (hh : h.Rooted) {own : Own} {s : SymbolId} (ho : K.own = some own)
    (hu : own.Uses s) {f : FrameId} (hf : Inside K B h f) :
    h.owner? f s = some B := by
  induction hf with
  | body _ hs => exact owner?_of_local? (hs own s ho hu)
  | inner _ _ hp hs _ ih => exact (owner?_of_parent? hh (hs own s ho hu) hp).trans ih

/-- The frame of a catch clause is inside. -/
theorem Inside.newFrame {env : FrameId} {e : SymbolId} (he : ∀ own, K.own = some own → ¬ own.Uses e)
    (v : Value) (hB : h.Has B)
    (hi : ((h.newFrame env).2.define (h.newFrame env).1 e v).Inside K B env) :
    ((h.newFrame env).2.define (h.newFrame env).1 e v).Inside K B (h.newFrame env).1 := by
  refine .inner ?_ ?_ ?_ (fun own s ho hs => ?_) hi
  · simpa using (has_newFrame h env).2 (.inr rfl)
  · rintro hf
    exact not_has_newFrame h env (hf ▸ hB)
  · rw [parent?_define, parent?_newFrame, if_pos rfl]
  · rw [local?_define_of_ne _ _ _ _ (by rintro rfl; exact he own ho hs)]
    exact local?_newFrame_self h env s

end Grows

namespace Fits

theorem lookup_clear (hh : h.Fits L G) {f : FrameId} {s : SymbolId} {v : Value}
    (hs : ¬ L.vars.Uses s) (hv : h.lookup f s = some v) :
    h.Clear G v := by
  rcases ho : h.owner? f s with _ | g
  · simp [lookup, ho] at hv
  · rw [lookup_eq_of_owner? ho] at hv
    exact hh.binding g s v hv hs

end Fits

/-! ## What the program's own code does -/

theorem ordinary_define (G : ArrayRef → Prop) {s : SymbolId} (hs : L.Writes s) (f : FrameId)
    (v : Value) : h.Ordinary L G (h.define f s v) where
  has g hg := by simpa using hg
  parent? g hg := by simp
  bound g t ht := isSome_local?_define _ _ _ _ ht
  others g t hg ht := local?_define_of_ne _ _ _ _ (by rintro rfl; exact ht hs)
  closure? r cl hc := hc
  arrays_le := Nat.le_refl _
  guarded r hr := rfl

theorem Fits.define (hh : h.Fits L G) (f : FrameId) {s : SymbolId} {v : Value}
    (hs : ¬ L.vars.Uses s) (hv : h.Clear G v) :
    (h.define f s v).Fits L G where
  toRooted := hh.toRooted.define f s v
  elsewhere g t hg ht := by
    rw [local?_define_of_ne _ _ _ _ (by rintro rfl; exact hs ht)]
    exact hh.elsewhere g t hg ht
  closure := hh.closure
  has_env r cl hc := by simpa using hh.has_env r cl hc
  named r cl t hc ht := isSome_local?_define _ _ _ _ (hh.named r cl t hc ht)
  binding g t w hw ht := by
    rw [local?_define] at hw
    split at hw
    · obtain rfl := Option.some.inj hw
      exact hv
    · exact hh.binding g t w hw ht
  arrays := hh.arrays
  objects := hh.objects
  guarded_lt := hh.guarded_lt

theorem ordinary_newFrame (L : Layout) (G : ArrayRef → Prop) (h : Store) (p : FrameId) :
    h.Ordinary L G (h.newFrame p).2 where
  has f hf := (has_newFrame h p).2 (.inl hf)
  parent? f hf := by
    rw [parent?_newFrame, if_neg]
    rintro rfl
    exact not_has_newFrame h p hf
  bound f s hs := by rwa [local?_newFrame]
  others f s _ _ := local?_newFrame h p f s
  closure? r cl hc := hc
  arrays_le := Nat.le_refl _
  guarded r hr := rfl

theorem Fits.newFrame (hh : h.Fits L G) {p : FrameId} (hp : h.Has p) :
    (h.newFrame p).2.Fits L G where
  has_globals := (has_newFrame h p).2 (.inl hh.has_globals)
  parent_lt f q hq := by
    rw [parent?_newFrame] at hq
    split at hq
    · next hf =>
      obtain rfl := Option.some.inj hq
      subst hf
      exact hp
    · exact hh.parent_lt f q hq
  has_parent f hf hg := by
    rw [parent?_newFrame]
    split
    · exact ⟨p, rfl⟩
    · next hne => exact hh.has_parent f (((has_newFrame h p).1 hf).resolve_right hne) hg
  elsewhere f s hf hs := by
    rw [local?_newFrame]
    exact hh.elsewhere f s hf hs
  closure := hh.closure
  has_env r cl hc := (has_newFrame h p).2 (.inl (hh.has_env r cl hc))
  named r cl s hc hs := by
    rw [local?_newFrame]
    exact hh.named r cl s hc hs
  binding f s v hv := by
    rw [local?_newFrame] at hv
    exact hh.binding f s v hv
  arrays := hh.arrays
  objects := hh.objects
  guarded_lt := hh.guarded_lt

section Contents

variable {arrays : Array (Array Value)} {objects : Array Object}

/-- Arrays and objects may change as long as the guarded arrays do not. -/
theorem ordinary_contents (L : Layout) (hsize : h.arrays.size ≤ arrays.size)
    (hguarded : ∀ r, G r → arrays[r.index]? = h.arrays[r.index]?) :
    h.Ordinary L G { h with arrays, objects } where
  has _ := id
  parent? _ _ := rfl
  bound _ _ := id
  others _ _ _ _ := rfl
  closure? _ _ := id
  arrays_le := hsize
  guarded r hr := by simp only [array, hguarded r hr]

theorem Fits.contents (hh : h.Fits L G) (hsize : h.arrays.size ≤ arrays.size)
    (harrays : ∀ vs ∈ arrays, vs ∈ h.arrays ∨ ∀ v ∈ vs, h.Clear G v)
    (hobjects : ∀ o ∈ objects, o ∈ h.objects ∨ h.ClearObject G o) :
    ({ h with arrays, objects } : Store).Fits L G where
  has_globals := hh.has_globals
  parent_lt := hh.parent_lt
  has_parent := hh.has_parent
  elsewhere := hh.elsewhere
  closure := hh.closure
  has_env := hh.has_env
  named := hh.named
  binding f s v hv hs := (hh.binding f s v hv hs).mono hsize
  arrays vs hvs v hv := ((harrays vs hvs).elim (hh.arrays vs) id v hv).mono hsize
  objects o ho := ((hobjects o ho).elim (hh.objects o) id).mono hsize
  guarded_lt r hr := Nat.lt_of_lt_of_le (hh.guarded_lt r hr) hsize

end Contents

section Arrays

variable {vs : Array Value} {r : ArrayRef} {f : Array Value → Array Value}

theorem ordinary_newArray (hh : h.Fits L G) (vs : Array Value) : h.Ordinary L G (h.newArray vs).2 :=
  ordinary_contents L (by simp) fun r hr => by
    rw [Array.getElem?_push, if_neg (Nat.ne_of_lt (hh.guarded_lt r hr))]

theorem Fits.newArray (hh : h.Fits L G) (hvs : ∀ v ∈ vs, h.Clear G v) :
    (h.newArray vs).2.Fits L G :=
  hh.contents (by simp)
    (fun ws hws => (Array.mem_push.1 hws).elim .inl fun he => .inr (he ▸ hvs))
    (fun _ => .inl)

theorem Fits.clear_newArray (hh : h.Fits L G) (vs : Array Value) :
    (h.newArray vs).2.Clear G (h.newArray vs).1 :=
  ⟨by simp [Store.newArray], fun hg => Nat.lt_irrefl _ (hh.guarded_lt _ hg)⟩

theorem ordinary_modifyArray (L : Layout) (hr : ¬ G r) (f : Array Value → Array Value) :
    h.Ordinary L G (h.modifyArray r f) :=
  ordinary_contents L (by simp) fun q hq => by
    rw [Array.getElem?_modify, if_neg]
    intro he
    obtain rfl : r = q := by
      cases r
      cases q
      exact congrArg _ he
    exact hr hq

theorem Fits.modifyArray (hh : h.Fits L G) (hf : ∀ v ∈ f (h.array r), h.Clear G v) :
    (h.modifyArray r f).Fits L G :=
  hh.contents (by simp)
    (fun ws hws => (mem_modify hws).imp_right fun ⟨vs, hvs, he⟩ => by
      rw [he]
      rwa [show h.array r = vs by simp [array, hvs]] at hf)
    (fun _ => .inl)

end Arrays

section Objects

variable {o : Object} {r : ObjectRef} {f : Object → Object}

theorem ordinary_newObject (L : Layout) (G : ArrayRef → Prop) (h : Store) (o : Object) :
    h.Ordinary L G (h.newObject o).2 :=
  ordinary_contents L (Nat.le_refl _) fun _ _ => rfl

theorem Fits.newObject (hh : h.Fits L G) (ho : h.ClearObject G o) : (h.newObject o).2.Fits L G :=
  hh.contents (Nat.le_refl _) (fun _ => .inl)
    (fun _ hq => (Array.mem_push.1 hq).elim .inl fun he => .inr (he ▸ ho))

theorem clearObject_error (h : Store) (G : ArrayRef → Prop) (k : ErrorKind) (message : String) :
    h.ClearObject G ⟨.ofList [("name", .string k.name), ("message", .string message)],
      some (.native k)⟩ := by
  refine ⟨fun e he => ?_, fun v hv => ?_⟩
  · have hmem := SortedMap.mem_ofList he
    simp only [List.mem_cons, List.not_mem_nil, or_false] at hmem
    rcases hmem with rfl | rfl <;> trivial
  · obtain rfl := Option.some.inj hv
    trivial

theorem ordinary_modifyObject (L : Layout) (G : ArrayRef → Prop) (h : Store) (r : ObjectRef)
    (f : Object → Object) : h.Ordinary L G (h.modifyObject r f) :=
  ordinary_contents L (Nat.le_refl _) fun _ _ => rfl

theorem Fits.modifyObject (hh : h.Fits L G) (hf : h.ClearObject G (f (h.object r))) :
    (h.modifyObject r f).Fits L G :=
  hh.contents (Nat.le_refl _) (fun _ => .inl)
    (fun _ hq => (mem_modify hq).imp_right fun ⟨o, ho, he⟩ => by
      rw [he]
      rwa [show h.object r = o by simp [object, ho]] at hf)

end Objects

theorem ordinary_newClosure (L : Layout) (G : ArrayRef → Prop) (h : Store) (cl : Closure) :
    h.Ordinary L G (h.newClosure cl).2 where
  has _ := id
  parent? _ _ := rfl
  bound _ _ := id
  others _ _ _ _ := rfl
  closure? r cl hc := by
    have : r.index < h.closures.size := (Array.getElem?_eq_some_iff.1 hc).1
    simpa only [newClosure, closure?, Array.getElem?_push, if_neg (Nat.ne_of_lt this)] using hc
  arrays_le := Nat.le_refl _
  guarded _ _ := rfl

/-- A new function leaves the store as it should be once its name is bound where it is made. -/
theorem Fits.newClosure (hh : h.Fits L G) {f f' : Func} {env : FrameId} (hp : L.pairs f f')
    (henv : h.Has env) (hname : ∀ s, f'.name = some s → (h.local? env s).isSome) :
    (h.newClosure ⟨f', env⟩).2.Fits L G :=
  have hcl (r : ClosureRef) (cl : Closure) (hc : (h.newClosure ⟨f', env⟩).2.closure? r = some cl) :
      cl = ⟨f', env⟩ ∨ h.closure? r = some cl := by
    simp only [Store.newClosure, closure?, Array.getElem?_push] at hc
    split at hc
    · exact .inl (Option.some.inj hc).symm
    · exact .inr hc
  { has_globals := hh.has_globals
    parent_lt := hh.parent_lt
    has_parent := hh.has_parent
    elsewhere := hh.elsewhere
    closure := fun r cl hc => (hcl r cl hc).elim (fun he => ⟨f, he ▸ hp⟩) (hh.closure r cl)
    has_env := fun r cl hc => (hcl r cl hc).elim
      (fun he => by subst he; exact henv) (hh.has_env r cl)
    named := fun r cl s hc hs => (hcl r cl hc).elim
      (fun he => by subst he; exact hname s hs) (fun hc => hh.named r cl s hc hs)
    binding := hh.binding
    arrays := hh.arrays
    objects := hh.objects
    guarded_lt := hh.guarded_lt }

/-- A function is made and bound to its name. -/
theorem Fits.declareFunc (hh : h.Fits L G) {f f' : Func} {env : FrameId} {s : SymbolId}
    (hp : L.pairs f f') (henv : h.Has env) (hname : f'.name = some s) (hs : ¬ L.vars.Uses s) :
    ((h.newClosure ⟨f', env⟩).2.define env s (h.newClosure ⟨f', env⟩).1).Fits L G := by
  have hbound := local?_define_self h env s (h.newClosure ⟨f', env⟩).1 henv
  have hclear : h.Clear G (h.newClosure ⟨f', env⟩).1 := trivial
  refine (hh.define env hs hclear).newClosure hp (by simpa using henv) fun t ht => ?_
  obtain rfl := Option.some.inj (hname.symm.trans ht)
  simp [hbound]

end Store

end FrameLedger
