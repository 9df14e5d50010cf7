import Mathlib
import FrameLedger.Value.Store

/-!
# Texts without a bound

The rules by which a value has a text, with no bound on how deep one value stands in another
(`Store.HasText`). A value that leads to no array or object standing in itself has the text that
`Store.text` gives it (`Store.hasText_text`): a path through the store meets each array and object
at most once.
-/

namespace FrameLedger.Store

variable {h : Store} {v w : Value}

/-- The text of the second value is a part of the text of the first. -/
inductive Shows (h : Store) : Value → Value → Prop
  | element {r : ArrayRef} {w : Value} (hw : w ∈ h.array r) (hn : w.isNullish = false) : Shows h
      (.array r) w
  | name {r : ObjectRef} {a b : Value} (ha : (h.object r).properties.get? "name" = some a)
      (hb : (h.object r).properties.get? "message" = some b) : Shows h (.object r) a
  | message {r : ObjectRef} {a b : Value} (ha : (h.object r).properties.get? "name" = some a)
      (hb : (h.object r).properties.get? "message" = some b) : Shows h (.object r) b

/-- Writing the value comes upon an array or object inside itself. -/
def Cyclic (h : Store) (v : Value) : Prop := ∃ w, Relation.ReflTransGen h.Shows v w ∧
    Relation.TransGen h.Shows w w

/-- A value has a text when what it shows has. -/
inductive HasText (h : Store) : Value → String → Prop
  | undefined : HasText h .undefined "undefined"
  | null : HasText h .null "null"
  | bool (b : Bool) : HasText h (.bool b) (if b then "true" else "false")
  | number (x : Float) : HasText h (.number x) (displayNumber x)
  | string (s : String) : HasText h (.string s) s
  | function (r : ClosureRef) : HasText h (.function r) "function"
  | native (k : ErrorKind) : HasText h (.native k) ("function " ++ k.name)
  | array {r : ArrayRef} (f : Value → String) (hf : ∀ w ∈ h.array r, w.isNullish = false →
      HasText h w (f w)) :
      HasText h (.array r)
        (",".intercalate ((h.array r).toList.map fun w => if w.isNullish then "" else f w))
  | error {r : ObjectRef} {a b : Value} {s t : String}
      (ha : (h.object r).properties.get? "name" = some a)
      (hb : (h.object r).properties.get? "message" = some b) (hs : HasText h a s)
        (ht : HasText h b t) :
      HasText h (.object r) (s ++ ": " ++ t)
  | object {r : ObjectRef}
      (hr : (h.object r).properties.get? "name" = none ∨
        (h.object r).properties.get? "message" = none) :
      HasText h (.object r) "[object Object]"

/-- The arrays and objects of a store. -/
def holders (h : Store) : List Value :=
  (List.range h.arrays.size).map (.array ⟨·⟩) ++ (List.range h.objects.size).map (.object ⟨·⟩)

theorem length_holders (h : Store) : h.holders.length = h.arrays.size + h.objects.size := by
  simp [holders]

theorem Shows.mem_holders (hw : h.Shows v w) : v ∈ h.holders := by
  have hobject {r : ObjectRef} {k : String} {a : Value}
      (ha : (h.object r).properties.get? k = some a) :
      .object r ∈ h.holders := by
    by_cases hr : r.index < h.objects.size
    · exact List.mem_append_right _ (List.mem_map.2 ⟨r.index, List.mem_range.2 hr, rfl⟩)
    · rw [Store.object, Array.getElem?_eq_none (Nat.le_of_not_lt hr)] at ha
      cases ha
  cases hw with
  | @element r _ hw _ =>
    by_cases hr : r.index < h.arrays.size
    · exact List.mem_append_left _ (List.mem_map.2 ⟨r.index, List.mem_range.2 hr, rfl⟩)
    · simp [Store.array, Array.getElem?_eq_none (Nat.le_of_not_lt hr)] at hw
  | name ha _ => exact hobject ha
  | message ha _ => exact hobject ha

/-- The values on the way to one that is being written: each shows the next, and none comes
twice. -/
structure Path (h : Store) (path : List Value) (v : Value) : Prop where
  nodup : path.Nodup
  mem_holders : ∀ x ∈ path, x ∈ h.holders
  shows : ∀ x ∈ path, Relation.TransGen h.Shows x v

theorem Path.nil (h : Store) (v : Value) : h.Path [] v := ⟨.nil, by simp, by simp⟩

theorem Path.cons {path : List Value} (hp : h.Path path v) (hv : v ∉ path) (hw : h.Shows v w) :
    h.Path (v :: path) w where
  nodup := List.nodup_cons.2 ⟨hv, hp.nodup⟩
  mem_holders := List.forall_mem_cons.2 ⟨hw.mem_holders, hp.mem_holders⟩
  shows := List.forall_mem_cons.2 ⟨.single hw, fun x hx => (hp.shows x hx).tail hw⟩

theorem Path.length_le {path : List Value} (hp : h.Path path v) :
    path.length ≤ h.arrays.size + h.objects.size := by
  rw [← length_holders]
  exact (hp.nodup.subperm hp.mem_holders).length_le

theorem Path.not_mem {path : List Value} (hp : h.Path path v) (hv : ¬ h.Cyclic v) : v ∉ path :=
  fun hmem => hv ⟨v, .refl, hp.shows v hmem⟩

theorem Cyclic.of_shows (hw : h.Shows v w) (hc : h.Cyclic w) : h.Cyclic v := by
  obtain ⟨x, hwx, hx⟩ := hc
  exact ⟨x, hwx.head hw, hx⟩

theorem hasText_textWithin (fuel : Nat) : ∀ (path : List Value) (v : Value), h.Path path v →
    ¬ h.Cyclic v →
    h.arrays.size + h.objects.size < path.length + fuel →
      h.HasText v (h.textWithin fuel path v) := by
  induction fuel with
  | zero =>
    intro path v hp _ hlt
    have := hp.length_le
    omega
  | succ fuel ih =>
    intro path v hp hv hlt
    have hmem : path.contains v = false := by simpa using hp.not_mem hv
    have hshown {w : Value} (hw : h.Shows v w) : h.HasText w (h.textWithin fuel (v :: path) w) :=
      ih (v :: path) w (hp.cons (hp.not_mem hv) hw) (fun hc => hv (hc.of_shows hw))
        (by rw [List.length_cons]; omega)
    cases v with
    | undefined => exact .undefined
    | null => exact .null
    | bool b => exact .bool b
    | number x => exact .number x
    | string s => exact .string s
    | function r => exact .function r
    | native k => exact .native k
    | array r =>
      simp only [textWithin, hmem, Bool.false_eq_true, if_false]
      exact .array _ fun w hw hn => hshown (.element hw hn)
    | object r =>
      simp only [textWithin, hmem, Bool.false_eq_true, if_false]
      rcases ha : (h.object r).properties.get? "name" with _ | a
      · exact .object (.inl ha)
      · rcases hb : (h.object r).properties.get? "message" with _ | b
        · exact .object (.inr hb)
        · exact .error ha hb (hshown (.name ha hb)) (hshown (.message ha hb))

theorem hasText_text (hv : ¬ h.Cyclic v) : h.HasText v (h.text v) :=
  hasText_textWithin _ [] v (.nil h v) hv (by simp)

end FrameLedger.Store
