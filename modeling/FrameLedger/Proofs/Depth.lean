import FrameLedger.Proofs.Inserted
import FrameLedger.Proofs.Numerals
import FrameLedger.Proofs.Trace

/-!
# The depth of the stack

A function goes up one where it pushes its frame, and down one from there where it pops it. In
numbers with rounding that need not lead back. `Around` and `Rises` say what comes of it in any
case: what a depth is after a balanced call, and what it may be while calls are under way. From
depths that are exact the first is no change at all (`Around.eq`) and the second leads to the depths
of larger stacks (`Rises.eq_level`).

`Store.Stacked` says that a store holds a stack, and `Store.Agrees` that its frames are what they
were.
-/

namespace FrameLedger

open Eval

/-- The depth of a stack of `n` frames. -/
def level : Nat → Float
  | 0 => -1
  | n + 1 => level n + 1

theorem level_succ (n : Nat) : level (n + 1) = level n + 1 := rfl

/-- What is left of a depth after going up one and down one, any number of times. -/
inductive Around (d : Float) : Float → Prop
  | refl : Around d d
  | again {x : Float} : Around d x → Around d (x + 1 - 1)

namespace Around

variable {d x y : Float}

theorem trans (h : Around d x) (h' : Around x y) : Around d y := by
  induction h' with
  | refl => exact h
  | again _ ih => exact .again ih

theorem eq (h : Around d x) (hd : d + 1 - 1 = d) : x = d := by
  induction h with
  | refl => rfl
  | again _ ih => rw [ih, hd]

end Around

/-- A depth that is reached from another by going up `k` times, and by going up one and down one
from depths of `S`. -/
inductive Rises (S : Float → Prop) (d : Float) : Nat → Float → Prop
  | refl : Rises S d 0 d
  | up {k : Nat} {x : Float} : Rises S d k x → Rises S d (k + 1) (x + 1)
  | around {k : Nat} {x : Float} : Rises S d k x → S x → Rises S d k (x + 1 - 1)

namespace Rises

variable {S T : Float → Prop} {d x y : Float} {k l : Nat}

theorem mono (h : Rises S d k x) (hS : ∀ y, S y → T y) : Rises T d k x := by
  induction h with
  | refl => exact .refl
  | up _ ih => exact .up ih
  | around _ hx ih => exact .around ih (hS _ hx)

theorem trans (h : Rises S d k x) (h' : Rises S x l y) : Rises S d (k + l) y := by
  induction h' with
  | refl => exact h
  | up _ ih => exact .up ih
  | around _ hx ih => exact .around ih hx

/-- Where going up one and down one leads back, the stack gets larger by one each time. -/
theorem eq_level {n : Nat} (h : Rises S (level n) k x) (hS : ∀ j ≤ k, S (level (n + j)) →
    level (n + j) + 1 - 1 = level (n + j)) : x = level (n + k) := by
  induction h with
  | refl => rfl
  | up _ ih => rw [ih fun j hj => hS j (Nat.le_succ_of_le hj), Nat.add_succ, level_succ]
  | around _ hx ih =>
    have heq := ih hS
    rw [heq] at hx ⊢
    exact hS _ (Nat.le_refl _) hx

end Rises

/-- A slot that is written for one of the `b` frames above a depth: the key of the frame's index
names it, or it says how many slots there are. -/
def Touches (S : Float → Prop) (d : Float) (b i : Nat) : Prop :=
  ∃ k < b, ∃ x, Rises S d k x ∧ S (x + 1) ∧
    (arrayIndex? (displayNumber (x + 1)) = some i ∨ displayNumber (x + 1) = "length")

theorem Touches.mono {S T : Float → Prop} {d : Float} {b b' i : Nat} (h : Touches S d b i)
    (hS : ∀ y, S y → T y) (hb : b ≤ b') : Touches T d b' i := by
  obtain ⟨k, hk, x, hx, hS', hi⟩ := h
  exact ⟨k, Nat.lt_of_lt_of_le hk hb, x, hx.mono hS, hS _ hS', hi⟩

theorem Touches.rises {S : Float → Prop} {d x : Float} {k b b' i : Nat} (h : Touches S x b i)
    (hx : Rises S d k x) (hb : ∀ l < b, k + l < b') : Touches S d b' i := by
  obtain ⟨l, hl, y, hy, hS, hi⟩ := h
  exact ⟨k + l, hb l hl, y, hx.trans hy, hS, hi⟩

/-- A decimal text names no other slot than its number. -/
theorem arrayIndex?_toString {n i : Nat} (h : arrayIndex? (toString n) = some i) : i = n := by
  have hdigit (c : Char) (hc : c ∈ Nat.toDigits 10 n) : c.isDigit = true :=
    Nat.isDigit_of_mem_toDigits (by decide) (by decide) hc
  have hvalue := Digits.toNat_toDigits n
  unfold arrayIndex? at h
  rw [Digits.toList_toString] at h
  rcases hds : Nat.toDigits 10 n with _ | ⟨c, cs⟩ <;> rw [hds] at h hdigit hvalue
  · simp at h
  · have hc : c ≠ '+' := by
      rintro rfl
      exact absurd (hdigit '+' List.mem_cons_self) (by decide)
    split at h
    · nomatch h
    · nomatch h
    · next _ heq =>
      obtain ⟨rfl, rfl⟩ := List.cons.inj heq
      simp only [if_neg hc, hvalue] at h
      split at h
      · nomatch h
      · split at h
        · exact (Option.some.inj h).symm
        · nomatch h

theorem toString_ne_length (n : Nat) : toString n ≠ "length" := by
  intro h
  have hl : 'l' ∈ Nat.toDigits 10 n := by
    rw [← Digits.toList_toString, h]
    decide
  exact absurd (Nat.isDigit_of_mem_toDigits (by decide) (by decide) hl) (by decide)

/-- Where depths are exact and have their decimal texts as keys, a frame above `n` others has a slot
above theirs. -/
theorem Touches.le {S : Float → Prop} {n b i : Nat} (h : Touches S (level n) b i)
    (hS : ∀ k ≤ b, S (level (n + k)) → level (n + k) + 1 - 1 = level (n + k))
    (hkey : ∀ k < b, S (level (n + k + 1)) → displayNumber (level (n + k + 1)) = toString (n + k)) :
    n ≤ i := by
  obtain ⟨k, hk, x, hx, hSx, hi⟩ := h
  obtain rfl := hx.eq_level fun j hj => hS j (Nat.le_trans hj (Nat.le_of_lt hk))
  rw [← level_succ, hkey k hk hSx] at hi
  rcases hi with hi | hi
  · exact arrayIndex?_toString hi ▸ Nat.le_add_right n k
  · exact absurd hi (toString_ne_length _)

/-- A depth that the stack has at some moment of what happens. -/
def Attains (v : StackVars) (es : List Event) (x : Float) : Prop :=
  ∃ e, Happens e es ∧ ∃ h ∈ e.stores, h.local? Store.globals v.depth = some (.number x)

/-- The depths that are passed from `d` on. -/
def Passes (v : StackVars) (d : Float) (es : List Event) (x : Float) : Prop :=
  x = d ∨ Attains v es x

namespace Attains

variable {v : StackVars} {es fs : List Event} {e : Event} {h : Store} {x : Float}

theorem append_left (hx : Attains v es x) (fs : List Event) : Attains v (es ++ fs) x := by
  obtain ⟨e, he, hx⟩ := hx
  exact ⟨e, he.append_left fs, hx⟩

theorem append_right (hx : Attains v es x) (ds : List Event) : Attains v (ds ++ es) x := by
  obtain ⟨e, he, hx⟩ := hx
  exact ⟨e, he.append_right ds, hx⟩

theorem within (hx : Attains v e.inside x) : Attains v [e] x := by
  obtain ⟨e, he, hx⟩ := hx
  exact ⟨e, .within he, hx⟩

theorem store (hx : h.local? Store.globals v.depth = some (.number x)) (es : List Event) :
    Attains v (es ++ [.store h]) x :=
  ⟨.store h, Happens.append_right (.here []) es, h, List.mem_singleton_self h, hx⟩

end Attains

/-- Where a stack is held. -/
structure StackArrays where
  stack : ArrayRef
  location : Option ArrayRef

namespace StackArrays

def Holds (a : StackArrays) (r : ArrayRef) : Prop := r = a.stack ∨ a.location = some r

/-- The arrays of the stack are guarded if the program has no way to them. -/
def Guards (a : StackArrays) (closed : Prop) (r : ArrayRef) : Prop := closed ∧ a.Holds r

end StackArrays

namespace Store

/-- The variables of the stack hold these arrays, and the depth is `d`. -/
structure Stacked (v : StackVars) (a : StackArrays) (d : Float) (h : Store) : Prop where
  stack : h.local? globals v.stack = some (.array a.stack)
  depth : h.local? globals v.depth = some (.number d)
  location : ∀ s, v.location = some s →
    ∃ r, a.location = some r ∧ h.local? globals s = some (.array r)
  no_location : v.location = none → a.location = none

/-- The element of an array, `undefined` beyond its end. -/
def element (h : Store) (r : ArrayRef) (i : Nat) : Value := (h.array r)[i]?.getD .undefined

/-- The elements of the stack's arrays are the same but for the slots `T`. -/
def Agrees (a : StackArrays) (T : Nat → Prop) (h h' : Store) : Prop :=
  ∀ r, a.Holds r → ∀ i, ¬ T i → h'.element r i = h.element r i

theorem array_modifyArray {h : Store} {r : ArrayRef} (hr : r.index < h.arrays.size)
    (f : Array Value → Array Value) (q : ArrayRef) :
    (h.modifyArray r f).array q = if q = r then f (h.array r) else h.array q := by
  simp only [array, modifyArray, Array.getElem?_modify]
  split
  · next heq =>
    obtain rfl : r = q := by
      cases r
      cases q
      exact congrArg _ heq
    simp [Array.getElem?_eq_getElem hr]
  · next hne => rw [if_neg (by rintro rfl; exact hne rfl)]

/-- Writing one slot changes no other, also when the array grows. -/
theorem element_write {h : Store} {r : ArrayRef} (hr : r.index < h.arrays.size) (i : Nat)
    (v : Value) (q : ArrayRef) {j : Nat} (hj : j ≠ i) :
    (h.modifyArray r fun vs =>
      (if vs.size ≤ i then resize vs (i + 1) else vs).setIfInBounds i v).element q j =
        h.element q j := by
  simp only [element, array_modifyArray hr]
  split
  · next heq =>
    subst heq
    rw [Array.getElem?_setIfInBounds_ne (Ne.symm hj)]
    split
    · simp only [resize]
      rw [if_neg (by omega), Array.getElem?_append]
      split
      · rfl
      · next hlt =>
        rw [Array.getElem?_eq_none (Nat.le_of_not_lt hlt), Array.getElem?_replicate]
        split <;> rfl
    · rfl
  · rfl

namespace Agrees

variable {a : StackArrays} {T T' : Nat → Prop} {h h' h'' : Store}

theorem refl (a : StackArrays) (T : Nat → Prop) (h : Store) : h.Agrees a T h := fun _ _ _ _ => rfl

theorem trans (x : h.Agrees a T h') (y : h'.Agrees a T h'') : h.Agrees a T h'' := fun r hr i hi =>
  (y r hr i hi).trans (x r hr i hi)

theorem mono (x : h.Agrees a T h') (hT : ∀ i, T i → T' i) : h.Agrees a T' h' := fun r hr i hi =>
  x r hr i fun hi' => hi (hT i hi')

theorem ordinary {L : Layout} {closed : Prop} (x : h.Agrees a T h') (hclosed : closed)
    (o : h'.Ordinary L (a.Guards closed) h'') : h.Agrees a T h'' :=
  fun r hr i hi => by rw [element, o.guarded r ⟨hclosed, hr⟩, ← element, x r hr i hi]

end Agrees

namespace Stacked

variable {L : Layout} {a : StackArrays} {d : Float} {h h' : Store}

/-- Whatever leaves the global bindings of the variables alone leaves the stack alone. -/
theorem of_local? (x : h.Stacked L.vars a d)
    (hs : ∀ s, L.vars.Uses s → h'.local? globals s = h.local? globals s) :
    h'.Stacked L.vars a d where
  stack := (hs _ (.inl rfl)).trans x.stack
  depth := (hs _ (.inr (.inl rfl))).trans x.depth
  location s hl := by
    obtain ⟨r, hr, hv⟩ := x.location s hl
    exact ⟨r, hr, (hs s (.inr (.inr hl))).trans hv⟩
  no_location := x.no_location

/-- Each of the arrays is held by one of the variables. -/
theorem exists_var (x : h.Stacked L.vars a d) {r : ArrayRef} (hr : a.Holds r) :
    ∃ s, L.vars.Uses s ∧ h.local? globals s = some (.array r) := by
  rcases hr with rfl | hr
  · exact ⟨_, .inl rfl, x.stack⟩
  · rcases hl : L.vars.location with _ | s
    · nomatch (x.no_location hl).symm.trans hr
    · obtain ⟨q, hq, hs⟩ := x.location s hl
      obtain rfl := Option.some.inj (hq.symm.trans hr)
      exact ⟨s, .inr (.inr hl), hs⟩

theorem has_globals (x : h.Stacked L.vars a d) : h.Has globals := has_of_local? x.stack

theorem ordinary (x : h.Stacked L.vars a d) (hL : L.Sound) {G : ArrayRef → Prop}
    (o : h.Ordinary L G h') : h'.Stacked L.vars a d :=
  x.of_local? fun s hs => o.others globals s x.has_globals (hL.not_writes hs)

theorem define (x : h.Stacked L.vars a d) {s : SymbolId} (hs : ¬ L.vars.Uses s) (f : FrameId)
    (v : Value) : (h.define f s v).Stacked L.vars a d :=
  x.of_local? fun t ht => local?_define_of_ne _ _ _ _ (by rintro rfl; exact hs ht)

theorem modifyArray (x : h.Stacked L.vars a d) (r : ArrayRef) (f : Array Value → Array Value) :
    (h.modifyArray r f).Stacked L.vars a d :=
  x.of_local? fun _ _ => rfl

theorem setDepth (x : h.Stacked L.vars a d) (hL : L.Sound) (y : Float) :
    (h.define globals L.vars.depth (.number y)).Stacked L.vars a y where
  stack := by rw [local?_define_of_ne _ _ _ _ hL.stack_ne_depth, x.stack]
  depth := local?_define_self _ _ _ _ x.has_globals
  location s hs := by
    obtain ⟨r, hr, hv⟩ := x.location s hs
    exact ⟨r, hr, by rw [local?_define_of_ne _ _ _ _ (hL.location_ne s hs).2, hv]⟩
  no_location := x.no_location

end Stacked

end Store

end FrameLedger
