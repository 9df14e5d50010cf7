import FrameLedger.Json.Token
import FrameLedger.Number.Text
import FrameLedger.Proofs.Digits

/-!
# Numbers in dumps

A number is written as a `Numeral`: a sign, digits without a leading zero, digits behind a point, an
exponent. Its text is one token (`Numeral.readNumber_chars`), and stands for the decimal that its
parts make. What a finite double is written as rounds to it, so it is read as that double:
`Dump.number?_read`.
-/

namespace FrameLedger

/-! ## Digits -/

namespace Digits

theorem split_append {ds rest : List Char} (hds : ∀ c ∈ ds, c.isDigit = true)
    (hrest : ∀ c ∈ rest.head?, c.isDigit = false) : split (ds ++ rest) = (ds, rest) := by
  have htake : rest.takeWhile Char.isDigit = [] := by
    cases rest with
    | nil => rfl
    | cons c cs => rw [List.takeWhile_cons, hrest c rfl]; rfl
  have hdrop : rest.dropWhile Char.isDigit = rest := by
    cases rest with
    | nil => rfl
    | cons c cs => rw [List.dropWhile_cons, hrest c rfl]; rfl
  rw [split, List.takeWhile_append_of_pos hds, List.dropWhile_append_of_pos hds, htake, hdrop,
    List.append_nil]

theorem foldl_eq (ds : List Char) (n : Nat) :
    ds.foldl (fun n c => 10 * n + value c) n = n * 10 ^ ds.length + toNat ds := by
  induction ds generalizing n with
  | nil => simp [toNat]
  | cons c ds ih =>
    rw [toNat, List.foldl_cons, List.foldl_cons, ih, ih (10 * 0 + value c), List.length_cons,
      pow_succ]
    ring

theorem toNat_append (ds es : List Char) :
    toNat (ds ++ es) = toNat ds * 10 ^ es.length + toNat es := by
  rw [toNat, List.foldl_append, foldl_eq es]
  rfl

theorem toNat_replicate (n : Nat) : toNat (List.replicate n '0') = 0 := by
  induction n with
  | zero => rfl
  | succ n ih =>
    rw [List.replicate_succ, ← List.singleton_append, toNat_append, ih]
    exact Nat.zero_mul _

theorem toNat_toDigits (n : Nat) : toNat (Nat.toDigits 10 n) = n := Nat.ofDigitChars_ten_toDigits

theorem toList_toString (n : Nat) : (toString n).toList = Nat.toDigits 10 n := by
  rw [Nat.toString_eq_ofList_toDigits, String.toList_ofList]

/-- The first digit of a number is no zero, unless it is zero. -/
theorem head?_toDigits {n : Nat} (h : 0 < n) : (Nat.toDigits 10 n).head? ≠ some '0' := by
  induction n using Nat.strongRecOn with
  | ind n ih =>
    rcases Nat.lt_or_ge n 10 with hlt | hge
    · rw [Nat.toDigits_of_lt_base hlt]
      interval_cases n <;> decide
    · rw [Nat.toDigits_of_base_le (by norm_num) hge,
        List.head?_append_of_ne_nil _ Nat.toDigits_ne_nil]
      exact ih (n / 10) (by omega) (by omega)

end Digits

/-! ## Texts -/

/-- A number of the grammar, in parts. -/
structure Numeral where
  negative : Bool
  whole : List Char
  fraction : List Char
  /-- Whether it is negative, and its digits. -/
  exponent : Option (Bool × List Char)
  whole_ne_nil : whole ≠ []
  whole_digits : ∀ c ∈ whole, c.isDigit = true
  no_leading_zero : whole.head? = some '0' → whole = ['0']
  fraction_digits : ∀ c ∈ fraction, c.isDigit = true
  exponent_ne_nil : ∀ e, exponent = some e → e.2 ≠ []
  exponent_digits : ∀ e, exponent = some e → ∀ c ∈ e.2, c.isDigit = true

namespace Numeral

variable (n : Numeral)

def point : List Char := if n.fraction.isEmpty then [] else '.' :: n.fraction

def scale : List Char :=
  match n.exponent with
  | none => []
  | some (negative, ds) => 'e' :: (if negative then '-' else '+') :: ds

def sign : List Char := if n.negative then ['-'] else []

def chars : List Char := n.sign ++ n.whole ++ n.point ++ n.scale

def power : Int :=
  match n.exponent with
  | none => 0
  | some (negative, ds) => if negative then -(Digits.toNat ds : Int) else Digits.toNat ds

def decimal : Decimal := DecimalText.toDecimal ⟨n.negative, n.whole, n.fraction, n.power⟩

/-- What can follow the text of a number. -/
def Stops (rest : List Char) : Prop := ∀ c ∈ rest.head?, c.isDigit = false ∧ c ≠ '.' ∧ c ≠ 'e' ∧
    c ≠ 'E'

variable {n} {rest : List Char}

theorem readExponent_stops (h : Stops rest) : Json.Token.readExponent rest = some ([], rest) := by
  cases rest with
  | nil => rfl
  | cons c cs =>
    obtain ⟨-, -, he, hE⟩ := h c rfl
    simp [Json.Token.readExponent, he, hE]

theorem readExponent_scale (h : Stops rest) :
    Json.Token.readExponent (n.scale ++ rest) = some (n.scale, rest) := by
  rcases he : n.exponent with _ | ⟨negative, ds⟩
  · rw [show n.scale = [] by simp [scale, he]]
    exact readExponent_stops h
  · have hsplit : Digits.split (ds ++ rest) = (ds, rest) :=
      Digits.split_append (n.exponent_digits _ he) fun c hc => (h c hc).1
    have hne : ds.isEmpty = false := by simpa using n.exponent_ne_nil _ he
    rw [show n.scale = 'e' :: (if negative then '-' else '+') :: ds by simp [scale, he]]
    cases negative <;> simp [Json.Token.readExponent, hsplit, hne]

theorem stops_scale (h : Stops rest) : ∀ c ∈ (n.scale ++ rest).head?, c.isDigit = false ∧
    c ≠ '.' := by
  rcases he : n.exponent with _ | ⟨negative, ds⟩
  · rw [show n.scale = [] by simp [scale, he]]
    exact fun c hc => ⟨(h c hc).1, (h c hc).2.1⟩
  · rw [show n.scale = 'e' :: (if negative then '-' else '+') :: ds by simp [scale, he]]
    rintro c ⟨⟩
    decide

theorem stops_point (h : Stops rest) :
    ∀ c ∈ (n.point ++ (n.scale ++ rest)).head?, c.isDigit = false := by
  unfold point
  split
  · exact fun c hc => (stops_scale h c hc).1
  · rintro c ⟨⟩
    decide

theorem split_fraction (h : Stops rest) :
    Digits.split (n.fraction ++ (n.scale ++ rest)) = (n.fraction, n.scale ++ rest) :=
  Digits.split_append n.fraction_digits fun c hc => (stops_scale h c hc).1

theorem split_whole (h : Stops rest) :
    Digits.split (n.whole ++ (n.point ++ (n.scale ++ rest))) =
      (n.whole, n.point ++ (n.scale ++ rest)) :=
  Digits.split_append n.whole_digits (stops_point h)

theorem readFraction_point (h : Stops rest) :
    Json.Token.readFraction (n.point ++ (n.scale ++ rest)) = some (n.point, n.scale ++ rest) := by
  unfold point
  split
  · have hne := stops_scale (n := n) h
    rw [List.nil_append]
    generalize n.scale ++ rest = cs at hne ⊢
    unfold Json.Token.readFraction
    split
    · exact absurd rfl (hne _ rfl).2
    · rfl
  · next hne =>
    rw [List.cons_append, Json.Token.readFraction, split_fraction h]
    simp [hne]

theorem readWhole_whole (h : Stops rest) :
    Json.Token.readWhole (n.whole ++ (n.point ++ (n.scale ++ rest))) =
      some (n.whole, n.point ++ (n.scale ++ rest)) := by
  by_cases hzero : n.whole.head? = some '0'
  · rw [n.no_leading_zero hzero]
    rfl
  · have hsplit := split_whole (n := n) h
    have hempty : n.whole.isEmpty = false := by simpa using n.whole_ne_nil
    unfold Json.Token.readWhole
    split
    · next heq =>
      refine absurd ?_ hzero
      rw [← List.head?_append_of_ne_nil _ n.whole_ne_nil, heq]
      rfl
    · simp [hsplit, hempty]

/-- A digit comes first, unless there is a sign. -/
theorem head?_whole {cs : List Char} : ∀ c ∈ (n.whole ++ cs).head?, c.isDigit = true := by
  intro c hc
  rw [List.head?_append_of_ne_nil _ n.whole_ne_nil] at hc
  exact n.whole_digits c (List.mem_of_mem_head? hc)

theorem readExponent?_scale {negative : Bool} {ds : List Char}
    (he : n.exponent = some (negative, ds)) :
    DecimalText.readExponent? ((if negative then '-' else '+') :: ds) = some n.power := by
  have hdigits : DecimalText.readExponent?.digits? ds = some (Digits.toNat ds) := by
    have hall : ds.all Char.isDigit = true := List.all_eq_true.2 (n.exponent_digits _ he)
    have hne : ds.isEmpty = false := by simpa using n.exponent_ne_nil _ he
    simp [DecimalText.readExponent?.digits?, hall, hne]
  cases negative <;> simp [DecimalText.readExponent?, hdigits, power, he]

theorem readUnsigned?_chars (negative : Bool) :
    DecimalText.readUnsigned? negative (n.whole ++ (n.point ++ n.scale)) =
    some ⟨negative, n.whole, n.fraction, n.power⟩ := by
  have hend : Stops [] := nofun
  have hwhole := split_whole (n := n) hend
  have hfraction := split_fraction (n := n) hend
  have hstop := stops_scale (n := n) hend
  rw [List.append_nil] at hwhole hfraction hstop
  have hne : n.whole.isEmpty = false := by simpa using n.whole_ne_nil
  unfold DecimalText.readUnsigned?
  simp only [hwhole, hne, Bool.false_and, Bool.false_eq_true, if_false]
  have hscale : n.scale = [] ∧ n.power = 0 ∨ ∃ r, n.scale = 'e' :: r ∧
      DecimalText.readExponent? r = some n.power := by
    rcases he : n.exponent with _ | ⟨negative, ds⟩
    · exact .inl ⟨by simp [scale, he], by simp [power, he]⟩
    · exact .inr ⟨_, by simp [scale, he], readExponent?_scale he⟩
  by_cases hempty : n.fraction.isEmpty = true
  · rw [point, if_pos hempty, List.nil_append, List.isEmpty_iff.1 hempty]
    rcases hscale with ⟨hscale, hpower⟩ | ⟨r, hscale, hpower⟩
    · simp [hscale, hpower]
    · simp [hscale, hpower]
  · rw [point, if_neg hempty, List.cons_append]
    simp only [hfraction]
    rcases hscale with ⟨hscale, hpower⟩ | ⟨r, hscale, hpower⟩
    · simp [hscale, hpower]
    · simp [hscale, hpower]

/-- A text begins with a sign or a digit. -/
theorem chars_eq_cons (n : Numeral) : ∃ c cs, n.chars = c :: cs ∧ (c = '-' ∨ c.isDigit = true) := by
  obtain ⟨c, cs, hwhole⟩ := List.exists_cons_of_ne_nil n.whole_ne_nil
  have hdigit : c.isDigit = true := n.whole_digits c (by rw [hwhole]; exact List.mem_cons_self)
  cases hneg : n.negative with
  | false => exact ⟨c, cs ++ n.point ++ n.scale, by simp [chars, sign, hneg, hwhole], .inr hdigit⟩
  | true => exact ⟨'-', n.whole ++ n.point ++ n.scale, by simp [chars, sign, hneg], .inl rfl⟩

/-- The text of a number is read as what its parts make. -/
theorem numberToFloat?_chars : Json.numberToFloat? (.ofList n.chars) = some n.decimal.toFloat := by
  have hread := readUnsigned?_chars (n := n) n.negative
  unfold Json.numberToFloat?
  rw [String.toList_ofList, chars, List.append_assoc, List.append_assoc, sign]
  cases hneg : n.negative with
  | false =>
    rw [hneg] at hread
    rw [if_neg Bool.false_ne_true, List.nil_append]
    split
    · next heq => cases head?_whole (n := n) '-' (by rw [heq]; rfl)
    · rw [hread, Option.map_some, decimal, hneg]
  | true =>
    rw [hneg] at hread
    rw [if_pos rfl, List.singleton_append]
    simp only [hread, Option.map_some, decimal, hneg]

/-- It is one token, unless it stands for more than the largest double. -/
theorem readNumber_chars (hfinite : n.decimal.toFloat.isInf = false) (h : Stops rest) :
    Json.Token.readNumber (n.chars ++ rest) = some (.ofList n.chars, rest) := by
  have hfloat := numberToFloat?_chars (n := n)
  unfold Json.Token.readNumber
  cases hneg : n.negative with
  | false =>
    have hchars : n.chars = n.whole ++ n.point ++ n.scale := by simp [chars, sign, hneg]
    rw [hchars] at hfloat ⊢
    rw [List.append_assoc, List.append_assoc]
    split
    next heq =>
      split at heq
      · next _ hcons => cases head?_whole (n := n) '-' (by rw [hcons]; rfl)
      · obtain ⟨rfl, rfl⟩ := Prod.mk.inj heq
        simp only [readWhole_whole h, readFraction_point h, readExponent_scale h, List.nil_append,
          hfloat, hfinite, Option.bind_eq_bind, Option.bind_some, Bool.false_eq_true, if_false]
  | true =>
    have hchars : n.chars = ['-'] ++ n.whole ++ n.point ++ n.scale := by simp [chars, sign, hneg]
    rw [hchars] at hfloat ⊢
    simp only [List.append_assoc, List.cons_append, List.nil_append] at hfloat ⊢
    simp only [readWhole_whole h, readFraction_point h, readExponent_scale h, hfloat, hfinite,
      Option.bind_eq_bind, Option.bind_some, Bool.false_eq_true, if_false]

end Numeral

/-! ## Rounding -/

namespace Binary64

theorem below_pos (m : Nat) (e : Int) : 0 < below m e := by
  unfold below
  split <;> decide

theorem nearest_self (m : Nat) (e : Int) : Nearest m e (m * 2 ^ e) := by
  have hquarter : (2 : ℚ) ^ e = 4 * 2 ^ (e - 2) := by
    rw [zpow_sub₀ two_ne_zero]
    ring
  have hpos : (0 : ℚ) < 2 ^ (e - 2) := by positivity
  have hbelow : (0 : ℚ) < below m e := by exact_mod_cast below_pos m e
  rw [hquarter]
  refine ⟨by nlinarith, by nlinarith, fun _ => ⟨by nlinarith, by nlinarith⟩⟩

theorem exponent_le_of_magnitudeBits {m : Nat} {e : Int} (hproper : Proper m e)
    (h : magnitudeBits m e < 2047 * 2 ^ 52) : e ≤ 971 := by
  obtain ⟨hlt, hle, hnormal⟩ := hproper
  unfold magnitudeBits minExponent at *
  omega

/-- A number below `2 ^ 53` is a double. -/
theorem exists_proper {n : Nat} (hpos : 0 < n) (h : n < 2 ^ 53) :
    ∃ m e, 0 < m ∧ Proper m e ∧ e ≤ 0 ∧ (n : ℚ) = m * 2 ^ e := by
  have hne : n ≠ 0 := Nat.ne_of_gt hpos
  have hlog : n.log2 ≤ 52 := Nat.lt_succ_iff.1 ((Nat.log2_lt hne).2 h)
  obtain ⟨k, hk⟩ := Nat.exists_eq_add_of_le hlog
  have hlow := Nat.log2_self_le hne
  have hhigh := Nat.lt_log2_self (n := n)
  refine ⟨n * 2 ^ k, -k, by positivity, ⟨?_, ?_, .inl ?_⟩, by omega, ?_⟩
  · calc n * 2 ^ k < 2 ^ (n.log2 + 1) * 2 ^ k := by gcongr
      _ = 2 ^ 53 := by rw [← pow_add]; congr 1; omega
  · rw [minExponent]
    omega
  · calc 2 ^ 52 = 2 ^ n.log2 * 2 ^ k := by rw [← pow_add, ← hk]
      _ ≤ n * 2 ^ k := by gcongr
  · push_cast
    rw [zpow_neg, zpow_natCast]
    field_simp

end Binary64

namespace Decimal

open Binary64
  (Nearest Proper magnitudeBits ofMagnitudeBits ofRatio_eq minExponent below below_le two_pow_log2)

variable {d : Decimal} {m : Nat} {e : Int}

/-- What rounds to a double is below `2 ^ 1024`, so its exponent is not too large. -/
theorem exponent_le (hm : m < 2 ^ 53) (he : e ≤ 971) (hpos : 0 < d.coefficient)
    (h : Nearest m e (d.coefficient * 10 ^ d.exponent)) : d.exponent ≤ 400 := by
  by_contra hlt
  have hm' : (4 * m + 2 : ℚ) < 2 ^ (55 : ℤ) := by
    have : (m + 1 : ℚ) ≤ 2 ^ 53 := by exact_mod_cast hm
    norm_num
    linarith
  have hone : (1 : ℚ) ≤ d.coefficient := by exact_mod_cast hpos
  refine absurd h.high (not_le.2 ?_)
  calc (4 * m + 2 : ℚ) * 2 ^ (e - 2) < 2 ^ (55 : ℤ) * 2 ^ (e - 2) := by gcongr
    _ = 2 ^ (55 + (e - 2)) := (zpow_add₀ two_ne_zero _ _).symm
    _ ≤ 2 ^ ((1024 : ℕ) : ℤ) := zpow_le_zpow_right₀ one_le_two (by omega)
    _ ≤ 10 ^ ((309 : ℕ) : ℤ) := by exact_mod_cast two_pow_le_ten_pow (by norm_num)
    _ ≤ 10 ^ d.exponent := zpow_le_zpow_right₀ (by norm_num) (by omega)
    _ ≤ d.coefficient * 10 ^ d.exponent := le_mul_of_one_le_left (by positivity) hone

/-- It is no less than half the least double, so its exponent is not too small. -/
theorem le_exponent (hm : 0 < m) (he : minExponent ≤ e) (hpos : 0 < d.coefficient)
    (h : Nearest m e (d.coefficient * 10 ^ d.exponent)) :
    -400 ≤ d.exponent + d.coefficient.log2 := by
  by_contra hlt
  have hm' : (2 : ℚ) ^ (1 : ℤ) ≤ 4 * m - below m e := by
    have hone : (1 : ℚ) ≤ m := by exact_mod_cast hm
    have hbelow : (below m e : ℚ) ≤ 2 := by exact_mod_cast below_le m e
    rw [zpow_one]
    linarith
  have hmin : -1074 ≤ e := he
  have hpow : (2 : ℚ) ^ ((1075 : ℕ) : ℤ) ≤ 10 ^ ((400 : ℕ) : ℤ) := by
    exact_mod_cast two_pow_le_ten_pow (by norm_num)
  refine absurd h.low (not_le.2 ?_)
  calc (d.coefficient : ℚ) * 10 ^ d.exponent < 2 ^ (d.coefficient.log2 + 1 : ℤ) * 10 ^
    d.exponent := by
        gcongr
        exact (two_pow_log2 hpos).2
    _ ≤ 10 ^ (d.coefficient.log2 + 1 : ℤ) * 10 ^ d.exponent := by
        gcongr
        exact_mod_cast Nat.pow_le_pow_left (by norm_num) _
    _ = 10 ^ (d.coefficient.log2 + 1 + d.exponent : ℤ) := (zpow_add₀ (by norm_num) _ _).symm
    _ ≤ 10 ^ (-(400 : ℕ) : ℤ) := zpow_le_zpow_right₀ (by norm_num) (by omega)
    _ ≤ 2 ^ (-(1075 : ℕ) : ℤ) := by
        rw [zpow_neg, zpow_neg]
        exact inv_anti₀ (by positivity) hpow
    _ ≤ 2 ^ (1 + (e - 2)) := zpow_le_zpow_right₀ one_le_two (by omega)
    _ = 2 ^ (1 : ℤ) * 2 ^ (e - 2) := zpow_add₀ two_ne_zero _ _
    _ ≤ (4 * m - below m e) * 2 ^ (e - 2) := by gcongr

/-- A decimal that rounds to a double is rounded to it. -/
theorem toFloat_eq (hm : 0 < m) (hproper : Proper m e) (he : e ≤ 971) (hpos : 0 < d.coefficient)
    (h : Nearest m e (d.coefficient * 10 ^ d.exponent)) :
    d.toFloat = ofMagnitudeBits d.negative (magnitudeBits m e) := by
  have hhigh := exponent_le hproper.lt he hpos h
  have hlow := le_exponent hm hproper.le hpos h
  rw [toFloat, if_neg (Nat.ne_of_gt hpos), if_neg (not_lt.2 hhigh), if_neg (not_lt.2 hlow)]
  have hpow := Shortest.powerOfTen_eq d.exponent
  unfold Shortest.powerOfTen at hpow
  split
  · next hle =>
    rw [if_pos hle] at hpow
    refine ofRatio_eq _ hproper (Nat.mul_pos hpos (Nat.pow_pos (by norm_num))) Nat.one_pos ?_
    rwa [Nat.cast_mul, mul_div_assoc, hpow]
  · next hle =>
    rw [if_neg hle] at hpow
    refine ofRatio_eq _ hproper hpos (Nat.pow_pos (by norm_num)) ?_
    rwa [← mul_one_div, ← Nat.cast_one, hpow]

end Decimal

/-! ## Texts of doubles -/

theorem toList_pushn (s : String) (c : Char) (n : Nat) :
    (s.pushn c n).toList = s.toList ++ List.replicate n c := by
  rw [String.pushn]
  induction n with
  | zero => rw [List.replicate_zero, List.append_nil]; rfl
  | succ n ih =>
    show ((Nat.repeat (fun s => s.push c) n s).push c).toList = _
    rw [String.toList_push, ih, List.replicate_succ', List.append_assoc]

section

variable (digits : String)

theorem Positional.toList_render_natCast (k : Nat) :
    (Positional.render digits k).toList = digits.toList ++ List.replicate k '0' := by
  simp [Positional.render, toList_pushn]

theorem Positional.toList_render_of_lt {places : Nat} (hpos : 0 < places)
    (h : places < digits.length) :
    (Positional.render digits (-places)).toList = digits.toList.take (digits.length - places) ++
      '.' :: digits.toList.drop (digits.length - places) := by
  simp [Positional.render, h, Nat.ne_of_gt hpos]

theorem Positional.toList_render_of_le {places : Nat} (hpos : 0 < places)
    (h : digits.length ≤ places) :
    (Positional.render digits (-places)).toList =
      '0' :: '.' :: (List.replicate (places - digits.length) '0' ++ digits.toList) := by
  simp [Positional.render, Nat.not_lt.2 h, Nat.ne_of_gt hpos, toList_pushn]

theorem Dump.toList_scientific (e : Int) : (Dump.scientific digits e).toList =
    digits.toList.take 1 ++
      ((if (digits.toList.drop 1).isEmpty then [] else '.' :: digits.toList.drop 1) ++
        'e' :: (if e < 0 then '-' else '+') :: Nat.toDigits 10 e.natAbs) := by
  unfold Dump.scientific
  dsimp only
  split <;> split <;> simp [*]

end

namespace Numeral

section

variable (negative : Bool) (n : Nat)

theorem mem_toDigits {c : Char} (h : c ∈ Nat.toDigits 10 n) : c.isDigit = true :=
  Nat.isDigit_of_mem_toDigits (by norm_num) (le_refl _) h

theorem isDigit_zeros {k : Nat} {c : Char} (h : c ∈ List.replicate k '0') : c.isDigit = true := by
  rw [List.eq_of_mem_replicate h]
  rfl

/-- The digits of a number with a point in front of the last `places` ones. -/
def pointed (places : Nat) (exponent : Option Int) (h : places < (Nat.toDigits 10 n).length) :
    Numeral where
  negative := negative
  whole := (Nat.toDigits 10 n).take ((Nat.toDigits 10 n).length - places)
  fraction := (Nat.toDigits 10 n).drop ((Nat.toDigits 10 n).length - places)
  exponent := exponent.map fun e => (decide (e < 0), Nat.toDigits 10 e.natAbs)
  whole_ne_nil := by
    rw [Ne, List.take_eq_nil_iff]
    exact fun hnil => hnil.elim (by omega) Nat.toDigits_ne_nil
  whole_digits c hc := mem_toDigits n (List.mem_of_mem_take hc)
  no_leading_zero hzero := by
    rw [List.head?_take, if_neg (by omega)] at hzero
    obtain rfl : n = 0 := by
      by_contra hne
      exact Digits.head?_toDigits (Nat.pos_of_ne_zero hne) hzero
    obtain rfl : places = 0 := Nat.lt_one_iff.1 h
    rfl
  fraction_digits c hc := mem_toDigits n (List.mem_of_mem_drop hc)
  exponent_ne_nil e he := by
    obtain ⟨x, -, rfl⟩ := Option.map_eq_some_iff.1 he
    exact Nat.toDigits_ne_nil
  exponent_digits e he := by
    obtain ⟨x, -, rfl⟩ := Option.map_eq_some_iff.1 he
    exact fun c hc => mem_toDigits _ hc

theorem decimal_pointed {places : Nat} {exponent : Option Int}
    (h : places < (Nat.toDigits 10 n).length) :
    (pointed negative n places exponent h).decimal = ⟨negative, n, exponent.getD 0 - places⟩ := by
  have hpower : (pointed negative n places exponent h).power = exponent.getD 0 := by
    cases exponent with
    | none => rfl
    | some e =>
      simp only [power, pointed, Option.map_some, Digits.toNat_toDigits, Option.getD_some,
        decide_eq_true_eq]
      split <;> omega
  rw [decimal, DecimalText.toDecimal, hpower]
  simp only [pointed, List.take_append_drop, Digits.toNat_toDigits, List.length_drop]
  congr
  omega

/-- All the digits in front of the point, with zeros behind them. -/
def integral (k : Nat) (h : n = 0 → k = 0) : Numeral where
  negative := negative
  whole := Nat.toDigits 10 n ++ List.replicate k '0'
  fraction := ['0']
  exponent := none
  whole_ne_nil := List.append_ne_nil_of_left_ne_nil Nat.toDigits_ne_nil _
  whole_digits _ hc := (List.mem_append.1 hc).elim (mem_toDigits n) isDigit_zeros
  no_leading_zero hzero := by
    rw [List.head?_append_of_ne_nil _ Nat.toDigits_ne_nil] at hzero
    obtain rfl : n = 0 := by
      by_contra hne
      exact Digits.head?_toDigits (Nat.pos_of_ne_zero hne) hzero
    rw [h rfl]
    rfl
  fraction_digits := List.forall_mem_singleton.2 rfl
  exponent_ne_nil := nofun
  exponent_digits := nofun

theorem decimal_integral {k : Nat} (h : n = 0 → k = 0) :
    (integral negative n k h).decimal = ⟨negative, n * 10 ^ k * 10, -1⟩ := by
  have hzero : Digits.toNat ['0'] = 0 := rfl
  rw [decimal, DecimalText.toDecimal]
  simp [integral, power, Digits.toNat_append, Digits.toNat_toDigits, Digits.toNat_replicate, hzero,
    pow_succ, mul_assoc]

/-- All of them behind the point, with zeros in front of them. -/
def small (zeros : Nat) : Numeral where
  negative := negative
  whole := ['0']
  fraction := List.replicate zeros '0' ++ Nat.toDigits 10 n
  exponent := none
  whole_ne_nil := List.cons_ne_nil _ _
  whole_digits := List.forall_mem_singleton.2 rfl
  no_leading_zero _ := rfl
  fraction_digits _ hc := (List.mem_append.1 hc).elim isDigit_zeros (mem_toDigits n)
  exponent_ne_nil := nofun
  exponent_digits := nofun

theorem decimal_small (zeros : Nat) :
    (small negative n zeros).decimal =
      ⟨negative, n, -(zeros + (Nat.toDigits 10 n).length : Nat)⟩ := by
  have hzero : Digits.toNat ['0'] = 0 := rfl
  rw [decimal, DecimalText.toDecimal]
  simp only [small, power, Digits.toNat_append, Digits.toNat_toDigits, Digits.toNat_replicate,
    hzero, Nat.zero_mul, Nat.zero_add, List.length_append, List.length_replicate, Int.zero_sub]

end

end Numeral

namespace Dump

/-- The digits of `n * 10 ^ k`, in the notation that its size calls for. -/
def decimalText (n : Nat) (k : Int) : String :=
  let digits := toString n
  let lead : Int := digits.length - 1 + k
  if positional lead then
    if 0 ≤ k then Positional.render digits k ++ ".0" else Positional.render digits k
  else scientific digits lead

theorem number?_eq {x : Float} {negative : Bool} {m : Nat} {e : Int}
    (h : Binary64.ofFloat x = .finite negative m e) :
    number? x =
      some ((if negative then "-" else "") ++
        decimalText (shortest .even m e).1 (shortest .even m e).2) := by
  unfold number?
  rw [h]
  cases negative with
  | false => rw [if_neg Bool.false_ne_true, String.empty_append]; rfl
  | true => rfl

/-- It is a number of the grammar, and has the value of its digits. -/
theorem exists_numeral (negative : Bool) {n : Nat} {k : Int} (h : n = 0 → k = 0) : ∃ N : Numeral,
    N.negative = negative ∧ N.chars = ((if negative then "-" else "") ++ decimalText n k).toList ∧
      (N.decimal.coefficient * 10 ^ N.decimal.exponent : ℚ) = n * 10 ^ k := by
  have hdigits := Digits.toList_toString n
  have hlength : (toString n).length = (Nat.toDigits 10 n).length := by
    rw [← String.length_toList, hdigits]
  have hpos : 0 < (Nat.toDigits 10 n).length := List.length_pos_of_ne_nil Nat.toDigits_ne_nil
  have hsign (N : Numeral) (hN : N.negative = negative) : N.sign =
      (if negative then "-" else "").toList := by
    rw [Numeral.sign, hN]
    cases negative <;> rfl
  unfold decimalText
  dsimp only
  rw [String.toList_append]
  by_cases hplain : positional ((toString n).length - 1 + k) = true
  · rw [if_pos hplain]
    by_cases hk : 0 ≤ k
    · rw [if_pos hk]
      obtain ⟨k, rfl⟩ := Int.eq_ofNat_of_zero_le hk
      refine ⟨.integral negative n k (by simpa using h), rfl, ?_, ?_⟩
      · rw [Numeral.chars, hsign _ rfl, String.toList_append, Positional.toList_render_natCast,
          hdigits]
        simp [Numeral.integral, Numeral.point, Numeral.scale]
      · rw [Numeral.decimal_integral]
        push_cast
        rw [zpow_natCast, zpow_neg_one]
        field_simp
    · rw [if_neg hk]
      obtain ⟨places, hplaces⟩ := Int.eq_ofNat_of_zero_le (show 0 ≤ -k by omega)
      obtain rfl : k = -(places : ℤ) := by omega
      have hzero : 0 < places := by omega
      by_cases hlt : places < (Nat.toDigits 10 n).length
      · refine ⟨.pointed negative n places none hlt, rfl, ?_, ?_⟩
        · have hne : ¬(Nat.toDigits 10 n).length ≤ (Nat.toDigits 10 n).length - places := by omega
          rw [Numeral.chars, hsign _ rfl, Positional.toList_render_of_lt _ hzero (hlength ▸ hlt),
            hdigits, hlength]
          simp [Numeral.pointed, Numeral.point, Numeral.scale, hne]
        · rw [Numeral.decimal_pointed]
          simp
      · refine ⟨.small negative n (places - (Nat.toDigits 10 n).length), rfl, ?_, ?_⟩
        · rw [Numeral.chars, hsign _ rfl, Positional.toList_render_of_le _ hzero
            (hlength ▸ not_lt.1 hlt), hdigits, hlength]
          simp [Numeral.small, Numeral.point, Numeral.scale]
        · rw [Numeral.decimal_small, Nat.sub_add_cancel (not_lt.1 hlt)]
  · rw [if_neg hplain]
    refine ⟨.pointed negative n ((Nat.toDigits 10 n).length - 1)
      (some ((toString n).length - 1 + k)) (by omega), rfl, ?_, ?_⟩
    · have hone : (Nat.toDigits 10 n).length - ((Nat.toDigits 10 n).length - 1) = 1 := by omega
      rw [Numeral.chars, hsign _ rfl, toList_scientific, hdigits]
      simp [Numeral.pointed, Numeral.point, Numeral.scale, hone]
    · rw [Numeral.decimal_pointed, Option.getD_some, hlength]
      congr 2
      show ((Nat.toDigits 10 n).length - 1 + k - ((Nat.toDigits 10 n).length - 1 : Nat) : Int) = k
      omega

/-- The text of a finite double is read as that double. -/
theorem number?_read {x : Float} (h : x.isFinite = true) :
    ∃ N : Numeral, number? x = some (.ofList N.chars) ∧ N.decimal.toFloat = x := by
  obtain ⟨negative, m, e, hx⟩ := Binary64.exists_finite h
  obtain ⟨hproper, hlt, hback⟩ := Binary64.ofFloat_eq_finite hx
  have he := Binary64.exponent_le_of_magnitudeBits hproper hlt
  rcases Nat.eq_zero_or_pos m with rfl | hm
  · obtain ⟨N, hnegative, hchars, hvalue⟩ := exists_numeral (n := 0) (k := 0) negative fun _ => rfl
    refine ⟨N, by rw [number?_eq hx, hchars, String.ofList_toList]; rfl, ?_⟩
    have hcoefficient : N.decimal.coefficient = 0 := by simpa [zpow_ne_zero] using hvalue
    have hbits : Binary64.magnitudeBits 0 e = 0 := by
      rw [hproper.normal.resolve_left (by norm_num)]
      rfl
    rw [Decimal.toFloat, if_pos hcoefficient, ← hback, hbits, ← hnegative]
    rfl
  · obtain ⟨hpos, hnearest⟩ := Shortest.nearest_shortest .even hm hproper.lt hproper.le he
    obtain ⟨N, hnegative, hchars, hvalue⟩ := exists_numeral negative fun hzero =>
      absurd hzero (Nat.ne_of_gt hpos)
    refine ⟨N, by rw [number?_eq hx, hchars, String.ofList_toList], ?_⟩
    have hcoefficient : 0 < N.decimal.coefficient := by
      refine Nat.pos_of_ne_zero fun hzero => ?_
      have hne : ((shortest .even m e).1 : ℚ) * 10 ^ (shortest .even m e).2 ≠ 0 := by positivity
      rw [← hvalue, hzero] at hne
      simp at hne
    rw [Decimal.toFloat_eq hm hproper he hcoefficient (hvalue ▸ hnearest), ← hback, ← hnegative]
    rfl

end Dump

/-- A number of 32 bits is a number of the grammar, and its text is read. -/
theorem Json.ofNat_read {n : Nat} (h : n < 2 ^ 32) :
    ∃ N : Numeral, Json.ofNat n = .number (.ofList N.chars) ∧ N.decimal.toFloat.isInf = false := by
  have hlength : 0 < (Nat.toDigits 10 n).length := List.length_pos_of_ne_nil Nat.toDigits_ne_nil
  refine ⟨.pointed false n 0 none hlength, ?_, ?_⟩
  · rw [Json.ofNat, ← String.ofList_toList (s := toString n), Digits.toList_toString]
    simp [Numeral.chars, Numeral.sign, Numeral.point, Numeral.scale, Numeral.pointed]
  · rw [Numeral.decimal_pointed]
    refine Binary64.not_isInf ?_
    rcases Nat.eq_zero_or_pos n with rfl | hpos
    · exact Binary64.isFinite_ofMagnitudeBits false (by norm_num)
    · obtain ⟨m, e, hm, hproper, he, hvalue⟩ := Binary64.exists_proper hpos (h.trans (by norm_num))
      rw [Decimal.toFloat_eq hm hproper (by omega) hpos
        (by simpa [hvalue] using Binary64.nearest_self m e)]
      refine Binary64.isFinite_ofMagnitudeBits false ?_
      have hlt := hproper.lt
      unfold Binary64.magnitudeBits Binary64.minExponent
      omega

end FrameLedger
