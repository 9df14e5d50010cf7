import FrameLedger.Proofs.Elements

/-!
# Keys of slots

A slot is named by its decimal text. Behind a plus sign it is named by every text of digits that
stands for it, so a slot has more than one key: `arrayIndex?_eq_some_iff`.
-/

namespace FrameLedger

open Eval

/-! ## Texts of digits -/

namespace Digits

theorem code_of_isDigit {c : Char} (h : c.isDigit = true) : 48 ≤ c.toNat ∧ c.toNat ≤ 57 := by
  simp only [Char.isDigit, Bool.and_eq_true, decide_eq_true_eq, ge_iff_le,
    UInt32.le_iff_toNat_le] at h
  exact h

theorem value_lt {c : Char} (h : c.isDigit = true) : value c < 10 := by
  have hcode := code_of_isDigit h
  show c.toNat - 48 < 10
  omega

theorem digitChar_value {c : Char} (h : c.isDigit = true) : (value c).digitChar = c := by
  have hcode := code_of_isDigit h
  rw [← Char.toNat_inj, Nat.toNat_digitChar_of_lt_ten (value_lt h)]
  show 48 + (c.toNat - 48) = c.toNat
  omega

/-- A text of digits is the decimal text of what it stands for, with zeros before it. -/
theorem eq_zeros_append {ds : List Char} (hds : ∀ c ∈ ds, c.isDigit = true) (hne : ds ≠ []) :
    ∃ k, ds = List.replicate k '0' ++ Nat.toDigits 10 (toNat ds) := by
  induction ds using List.reverseRecOn with
  | nil => exact absurd rfl hne
  | append_singleton ds c ih =>
    have hc : c.isDigit = true := hds c (by simp)
    have hlast : Nat.toDigits 10 (value c) = [c] := by
      rw [Nat.toDigits_of_lt_base (value_lt hc), digitChar_value hc]
    have hvalue : toNat (ds ++ [c]) = 10 * toNat ds + value c := by
      rw [toNat, List.foldl_append]
      rfl
    by_cases hds' : ds = []
    · subst hds'
      exact ⟨0, by rw [hvalue, toNat, List.foldl_nil, Nat.mul_zero, Nat.zero_add, hlast]; rfl⟩
    · obtain ⟨k, hk⟩ := ih (fun c' hc' => hds c' (List.mem_append_left _ hc')) hds'
      rw [hvalue]
      rcases Nat.eq_zero_or_pos (toNat ds) with hzero | hpos
      · -- there was nothing but zeros, the last of which is no number of its own any more
        rw [hzero, Nat.toDigits_zero, ← List.replicate_succ'] at hk
        exact ⟨k + 1, by rw [hzero, Nat.mul_zero, Nat.zero_add, hlast, ← hk]⟩
      · exact ⟨k, by
          rw [← Nat.toDigits_append_toDigits (by norm_num) hpos (value_lt hc), hlast,
            ← List.append_assoc, ← hk]⟩

end Digits

/-! ## Keys -/

/-- The texts that name a slot. -/
def IsKeyOf (key : String) (i : Nat) : Prop :=
  key = toString i ∨ ∃ k, key = "+" ++ "".pushn '0' k ++ toString i

theorem isKeyOf_iff {key : String} {i : Nat} : IsKeyOf key i ↔ key.toList = Nat.toDigits 10 i ∨
    ∃ k, key.toList = '+' :: (List.replicate k '0' ++ Nat.toDigits 10 i) := by
  unfold IsKeyOf
  simp only [← String.toList_inj, String.toList_append, toList_pushn, Digits.toList_toString]
  rfl

/-- The slot that digits behind a plus sign name, whatever zeros stand in front of them. -/
theorem arrayIndex?_plus {key : String} {i k : Nat}
    (hkey : key.toList = '+' :: (List.replicate k '0' ++ Nat.toDigits 10 i))
    (hi : i < Nat.pow 2 32 - 1) : arrayIndex? key = some i := by
  have hall : (List.replicate k '0' ++ Nat.toDigits 10 i).all Char.isDigit = true := by
    rw [List.all_append, List.all_replicate, Bool.and_eq_true, List.all_eq_true]
    exact ⟨by simp, fun c hc => Nat.isDigit_of_mem_toDigits (by decide) (by decide) hc⟩
  have hvalue : Digits.toNat (List.replicate k '0' ++ Nat.toDigits 10 i) = i := by
    rw [Digits.toNat_append, Digits.toNat_replicate, Digits.toNat_toDigits, Nat.zero_mul,
      Nat.zero_add]
  have hne : (List.replicate k '0' ++ Nat.toDigits 10 i).isEmpty = false :=
    List.isEmpty_eq_false_iff.2 (List.append_ne_nil_of_right_ne_nil _ Nat.toDigits_ne_nil)
  unfold arrayIndex?
  rw [hkey]
  show (if _ then _ else _) = _
  simp only [if_true, hall, hvalue, hne, if_pos hi]
  rfl

/-- Without a zero in front, a text of digits is the decimal text of what it stands for. -/
theorem Digits.eq_toDigits {c : Char} {cs : List Char} (hds : ∀ c' ∈ c :: cs, c'.isDigit = true)
    (hzero : c = '0' → cs = []) : c :: cs = Nat.toDigits 10 (toNat (c :: cs)) := by
  obtain ⟨k, hk⟩ := eq_zeros_append hds (List.cons_ne_nil c cs)
  cases k with
  | zero => exact hk
  | succ k =>
    obtain ⟨rfl, hcs⟩ := List.cons.inj (hk.trans List.cons_append)
    exact absurd (hcs.symm.trans (hzero rfl))
      (List.append_ne_nil_of_right_ne_nil _ Nat.toDigits_ne_nil)

theorem of_digits {ds : List Char} {i : Nat} (h : (if ds.isEmpty || !ds.all Char.isDigit then none
    else if Digits.toNat ds < Nat.pow 2 32 - 1 then some (Digits.toNat ds) else none) = some i) :
    i ≤ 2 ^ 32 - 2 ∧ (∀ c ∈ ds, c.isDigit = true) ∧ ds ≠ [] ∧ Digits.toNat ds = i := by
  split at h
  · cases h
  · next hds =>
    simp only [Bool.or_eq_true, List.isEmpty_iff, Bool.not_eq_true', not_or, Bool.not_eq_false,
      List.all_eq_true] at hds
    split at h
    · next hlt =>
        exact ⟨Option.some.inj h ▸ Nat.le_sub_one_of_lt hlt, hds.2, hds.1, Option.some.inj h⟩
    · cases h

theorem arrayIndex?_eq_some_iff {key : String} {i : Nat} :
    arrayIndex? key = some i ↔ i ≤ 2 ^ 32 - 2 ∧ IsKeyOf key i := by
  rw [isKeyOf_iff]
  constructor
  · intro h
    unfold arrayIndex? at h
    split at h
    · cases h
    · cases h
    · next c cs hzero hkey =>
      obtain ⟨hi, hds, hne, rfl⟩ := of_digits h
      refine ⟨hi, ?_⟩
      rw [hkey]
      by_cases hc : c = '+'
      · rw [if_pos hc] at hds hne ⊢
        obtain ⟨k, hk⟩ := Digits.eq_zeros_append hds hne
        exact .inr ⟨k, hc ▸ congrArg _ hk⟩
      · rw [if_neg hc] at hds ⊢
        refine .inl (Digits.eq_toDigits hds fun h0 => ?_)
        cases cs with
        | nil => rfl
        | cons c' cs' => exact (hzero c' cs' h0 rfl).elim
  · rintro ⟨hi, hkey | ⟨k, hkey⟩⟩
    · rw [← Digits.toList_toString, String.toList_inj] at hkey
      exact hkey ▸ arrayIndex?_toString_of_lt (Nat.lt_of_le_of_lt hi (by decide))
    · exact arrayIndex?_plus hkey (Nat.lt_of_le_of_lt hi (by decide))

/-- Where no plus sign stands in front, a slot has one key. -/
theorem arrayIndex?_eq_some_iff_of_head {key : String} {i : Nat}
    (hplus : key.toList.head? ≠ some '+') :
    arrayIndex? key = some i ↔ i ≤ 2 ^ 32 - 2 ∧ key = toString i := by
  rw [arrayIndex?_eq_some_iff]
  refine and_congr_right fun _ => ⟨fun h => ?_, .inl⟩
  obtain h | ⟨k, h⟩ := h
  · exact h
  · exact absurd (by rw [h, String.append_assoc, String.toList_append]; rfl) hplus

/-! ## Loops over the keys of an array -/

theorem go_keys_array (r : ArrayRef) (m : Machine) :
    (keys (.array r)).go m = (.ok ((List.range (m.store.array r).size).map toString), m) := rfl

theorem go_getProperty_slot (c : Setting) (pos : Position) {r : ArrayRef} {m : Machine} {i : Nat}
    {v : Value} (hv : (m.store.array r)[i]? = some v) (hi : i ≤ 2 ^ 32 - 2) :
    (getProperty c pos (.array r) (toString i)).go m = (.ok v, m) := by
  have hkey := arrayIndex?_eq_some_iff.2 ⟨hi, .inl rfl⟩
  have hlength : toString i ≠ "length" := by
    intro h
    rw [h, arrayIndex?_length] at hkey
    cases hkey
  simp only [getProperty, go_bind, go_store, if_neg hlength, hkey, Option.bind_some, hv]
  rfl

/-- A key names a slot exactly if it is the decimal text of one, or a plus sign with digits behind
it that stand for one. Without a plus sign only the decimal text does, so such keys of one slot are
the same, and every key that a loop over an array comes by reads the element that it stands for. -/
theorem slots_and_keys (key key' : String) (i : Nat) (c : Setting) (pos : Position) (r : ArrayRef)
    (m : Machine) :
    (arrayIndex? key = some i ↔
      i ≤ 2 ^ 32 - 2 ∧ (key = toString i ∨ ∃ k, key = "+" ++ "".pushn '0' k ++ toString i)) ∧
    (key.toList.head? ≠ some '+' → (arrayIndex? key = some i ↔ i ≤ 2 ^ 32 - 2 ∧ key = toString i) ∧
      (arrayIndex? key = some i → arrayIndex? key' = some i → key'.toList.head? ≠ some '+' →
        key = key')) ∧
    ∃ ks, (keys (.array r)).go m = (.ok ks, m) ∧ ks.length = (m.store.array r).size ∧
      ∀ j v, (m.store.array r)[j]? = some v → j ≤ 2 ^ 32 - 2 →
        ∃ k, ks[j]? = some k ∧ (getProperty c pos (.array r) k).go m = (.ok v, m) := by
  refine ⟨arrayIndex?_eq_some_iff,
    fun hplus => ⟨arrayIndex?_eq_some_iff_of_head hplus, fun hkey hkey' hplus' => ?_⟩, _,
    go_keys_array r m, ?_, fun j v hv hj => ⟨toString j, ?_, go_getProperty_slot c pos hv hj⟩⟩
  · rw [arrayIndex?_eq_some_iff_of_head hplus] at hkey
    rw [arrayIndex?_eq_some_iff_of_head hplus'] at hkey'
    exact hkey.2.trans hkey'.2.symm
  · rw [List.length_map, List.length_range]
  · obtain ⟨hlt, -⟩ := Array.getElem?_eq_some_iff.1 hv
    rw [List.getElem?_map, List.getElem?_range hlt]
    rfl

theorem slots_and_keys_holding : arrayIndex? "+05" = some 5 ∧ arrayIndex? "05" ≠ some 5 ∧
    ∃ k, (getProperty ⟨.initial, none, ⟨0, 0⟩⟩ .synthetic (.array ⟨0⟩) k).go holding =
      (.ok .null, holding) := by
  have hslots (key : String) :=
    slots_and_keys key "5" 5 ⟨.initial, none, ⟨0, 0⟩⟩ .synthetic ⟨0⟩ holding
  obtain ⟨hplus, -, ks, -, -, hread⟩ := hslots "+05"
  refine ⟨hplus.2 ⟨by decide, .inr ⟨1, by decide⟩⟩, fun h => ?_, ?_⟩
  · exact absurd (((hslots "05").2.1 (by decide)).1.1 h).2 (by decide)
  · obtain ⟨k, -, hk⟩ := hread 0 .null (by decide) (by decide)
    exact ⟨k, hk⟩

/-- A text that is not the decimal text of a slot names one, and the same slot as its decimal
text. -/
theorem plus_names_slot : arrayIndex? "+5" = some 5 ∧ arrayIndex? "5" = some 5 ∧
    ¬ ∀ key i, arrayIndex? key = some i ↔ i ≤ 2 ^ 32 - 2 ∧ key = toString i := by
  have hplus : arrayIndex? "+5" = some 5 := by decide
  refine ⟨hplus, by decide, fun h => ?_⟩
  exact absurd ((h "+5" 5).1 hplus).2 (by decide)

end FrameLedger
