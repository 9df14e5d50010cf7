import Mathlib
import FrameLedger.Number.Decimal

/-!
# Rounding to the nearest double

A finite double is `± m * 2 ^ e` with a significand and an exponent of its own (`Binary64.Proper`),
and its bits are those of `m` behind as many binades as `e` is above the least exponent. The
rationals that round to it are those between the points halfway to its neighbours
(`Binary64.Nearest`): `Binary64.ofRatio_eq`.
-/

namespace FrameLedger

namespace Binary64

/-- `m * 2 ^ e` is the magnitude of a double, written with the significand and the exponent that it
has. -/
structure Proper (m : Nat) (e : Int) : Prop where
  lt : m < 2 ^ 53
  le : minExponent ≤ e
  normal : 2 ^ 52 ≤ m ∨ e = minExponent

/-- The bits of `m * 2 ^ e`, the sign left out. -/
def magnitudeBits (m : Nat) (e : Int) : Nat := (e - minExponent).toNat * 2 ^ 52 + m

/-- How far it is to the halfway point below, in quarters of the last place. -/
def below (m : Nat) (e : Int) : Nat := if m = 2 ^ 52 ∧ minExponent < e then 1 else 2

/-- Numbers that round to `m * 2 ^ e`. The halfway points do if `m` is even. -/
structure Nearest (m : Nat) (e : Int) (r : ℚ) : Prop where
  low : (4 * m - below m e) * 2 ^ (e - 2) ≤ r
  high : r ≤ (4 * m + 2) * 2 ^ (e - 2)
  odd : m % 2 = 1 → (4 * m - below m e) * 2 ^ (e - 2) < r ∧ r < (4 * m + 2) * 2 ^ (e - 2)

/-! ## Powers of two -/

theorem powerOfTwo_pos (e : Int) : 0 < (powerOfTwo e).1 ∧ 0 < (powerOfTwo e).2 := by
  unfold powerOfTwo
  split <;> simp [Nat.pow_eq]

theorem powerOfTwo_eq (e : Int) : ((powerOfTwo e).1 : ℚ) / (powerOfTwo e).2 = 2 ^ e := by
  unfold powerOfTwo
  split
  · next h =>
    obtain ⟨n, rfl⟩ := Int.eq_ofNat_of_zero_le h
    simp [Nat.pow_eq]
  · next h =>
    obtain ⟨n, hn⟩ := Int.eq_ofNat_of_zero_le (show 0 ≤ -e by omega)
    obtain rfl : e = -(n : ℤ) := by omega
    simp [Nat.pow_eq]

/-- Scaling a quotient by a power of two. -/
theorem scaled_eq (num den : Nat) (e : Int) :
    ((num * (powerOfTwo e).2 : Nat) : ℚ) / (den * (powerOfTwo e).1 : Nat) = num / den / 2 ^ e := by
  obtain ⟨hp, hq⟩ := powerOfTwo_pos e
  rw [← powerOfTwo_eq e]
  push_cast
  have hp' : ((powerOfTwo e).1 : ℚ) ≠ 0 := by positivity
  have hq' : ((powerOfTwo e).2 : ℚ) ≠ 0 := by positivity
  rcases eq_or_ne (den : ℚ) 0 with h | h
  · simp [h]
  · field_simp

/-- The exponent of the leading bit of a quotient. -/
def leading (num den : Nat) : Int :=
  let e : Int := num.log2 - den.log2
  if num * (powerOfTwo e).2 < den * (powerOfTwo e).1 then e - 1 else e

theorem two_pow_log2 {n : Nat} (h : 0 < n) :
    (2 : ℚ) ^ (n.log2 : ℤ) ≤ n ∧ (n : ℚ) < 2 ^ (n.log2 + 1 : ℤ) := by
  constructor
  · rw [zpow_natCast]
    exact_mod_cast Nat.log2_self_le (Nat.ne_of_gt h)
  · have hlt := Nat.lt_log2_self (n := n)
    rw [← Nat.cast_succ, zpow_natCast]
    exact_mod_cast hlt

theorem leading_spec {num den : Nat} (hnum : 0 < num) (hden : 0 < den) :
    (2 : ℚ) ^ leading num den ≤ num / den ∧ (num / den : ℚ) < 2 ^ (leading num den + 1) := by
  obtain ⟨hn, hn'⟩ := two_pow_log2 hnum
  obtain ⟨hd, hd'⟩ := two_pow_log2 hden
  have hden' : (0 : ℚ) < den := by exact_mod_cast hden
  have hlow : (2 : ℚ) ^ ((num.log2 : ℤ) - den.log2 - 1) ≤ num / den := by
    rw [le_div_iff₀ hden']
    calc (2 : ℚ) ^ ((num.log2 : ℤ) - den.log2 - 1) * den
        ≤ 2 ^ ((num.log2 : ℤ) - den.log2 - 1) * 2 ^ (den.log2 + 1 : ℤ) := by gcongr
      _ = 2 ^ (num.log2 : ℤ) := by
        rw [← zpow_add₀ two_ne_zero]
        congr 1
        ring
      _ ≤ num := hn
  have hhigh : (num / den : ℚ) < 2 ^ ((num.log2 : ℤ) - den.log2 + 1) := by
    rw [div_lt_iff₀ hden']
    calc (num : ℚ) < 2 ^ (num.log2 + 1 : ℤ) := hn'
      _ = 2 ^ ((num.log2 : ℤ) - den.log2 + 1) * 2 ^ (den.log2 : ℤ) := by
        rw [← zpow_add₀ two_ne_zero]
        congr 1
        ring
      _ ≤ 2 ^ ((num.log2 : ℤ) - den.log2 + 1) * den := by gcongr
  obtain ⟨hp, hq⟩ := powerOfTwo_pos ((num.log2 : ℤ) - den.log2)
  have hcmp : num * (powerOfTwo ((num.log2 : ℤ) - den.log2)).2 <
      den * (powerOfTwo ((num.log2 : ℤ) - den.log2)).1 ↔
      (num / den : ℚ) < 2 ^ ((num.log2 : ℤ) - den.log2) := by
    rw [← powerOfTwo_eq, div_lt_div_iff₀ hden' (by exact_mod_cast hq), mul_comm den]
    exact_mod_cast Iff.rfl
  unfold leading
  dsimp only
  split
  · next h =>
    rw [sub_add_cancel]
    exact ⟨hlow, hcmp.1 h⟩
  · next h => exact ⟨not_lt.1 (mt hcmp.2 h), hhigh⟩

theorem le_leading {num den : Nat} (hnum : 0 < num) (hden : 0 < den) {k : ℤ}
    (h : (2 : ℚ) ^ k ≤ num / den) :
    k ≤ leading num den := by
  have := h.trans_lt (leading_spec hnum hden).2
  have := (zpow_lt_zpow_iff_right₀ (one_lt_two (α := ℚ))).1 this
  omega

theorem leading_lt {num den : Nat} (hnum : 0 < num) (hden : 0 < den) {k : ℤ}
    (h : (num / den : ℚ) < 2 ^ k) :
    leading num den < k :=
  (zpow_lt_zpow_iff_right₀ (one_lt_two (α := ℚ))).1 ((leading_spec hnum hden).1.trans_lt h)

/-! ## Rounding -/

theorem roundHalfEven_eq {num den n : Nat} (hden : 0 < den) (hlow : (n : ℚ) - 1 / 2 ≤ num / den)
    (hhigh : (num / den : ℚ) ≤ n + 1 / 2)
    (hodd : n % 2 = 1 → (n : ℚ) - 1 / 2 < num / den ∧ (num / den : ℚ) < n + 1 / 2) :
    roundHalfEven num den = n := by
  have hden' : (0 : ℚ) < den := by exact_mod_cast hden
  -- The bounds without quotients.
  have h₁ : 2 * n * den ≤ 2 * num + den := by
    rw [le_div_iff₀ hden'] at hlow
    have : (2 * n * den : ℚ) ≤ 2 * num + den := by linarith
    exact_mod_cast this
  have h₂ : 2 * num ≤ 2 * n * den + den := by
    rw [div_le_iff₀ hden'] at hhigh
    have : (2 * num : ℚ) ≤ 2 * n * den + den := by linarith
    exact_mod_cast this
  have h₃ : n % 2 = 1 → 2 * n * den < 2 * num + den ∧ 2 * num < 2 * n * den + den := by
    intro h
    obtain ⟨ha, hb⟩ := hodd h
    rw [lt_div_iff₀ hden'] at ha
    rw [div_lt_iff₀ hden'] at hb
    have ha' : (2 * n * den : ℚ) < 2 * num + den := by linarith
    have hb' : (2 * num : ℚ) < 2 * n * den + den := by linarith
    exact ⟨by exact_mod_cast ha', by exact_mod_cast hb'⟩
  have hdiv := Nat.div_add_mod num den
  have hmod := Nat.mod_lt num hden
  unfold roundHalfEven
  dsimp only
  generalize num / den = q at *
  generalize num % den = r at *
  subst hdiv
  have hle : n ≤ q + 1 := by
    by_contra h
    have : (q + 2) * den ≤ n * den := Nat.mul_le_mul_right _ (by omega)
    nlinarith
  have hge : q ≤ n := by
    by_contra h
    have : (n + 1) * den ≤ q * den := Nat.mul_le_mul_right _ (by omega)
    nlinarith
  rcases (show n = q ∨ n = q + 1 by omega) with rfl | rfl
  · have hr : 2 * r ≤ den := by nlinarith
    split
    · rfl
    · split
      · omega
      · have : n % 2 = 1 → 2 * r < den := fun h => by nlinarith [(h₃ h).2]
        omega
  · have hr : den ≤ 2 * r := by nlinarith
    split
    · omega
    · split
      · rfl
      · have : (q + 1) % 2 = 1 → den < 2 * r := fun h => by nlinarith [(h₃ h).1]
        omega

theorem ofRatio_of_pos (negative : Bool) {num den : Nat} (hnum : 0 < num) :
    ofRatio negative num den =
      let unit := max (leading num den - 52) minExponent
      ofMagnitudeBits negative ((unit - minExponent).toNat * 2 ^ 52 +
        roundHalfEven (num * (powerOfTwo unit).2) (den * (powerOfTwo unit).1)) := by
  rw [ofRatio, if_neg (Nat.ne_of_gt hnum)]
  rfl

section

variable {m : Nat} {e : Int} {r : ℚ}

theorem Nearest.scaled (h : Nearest m e r) : (m : ℚ) - below m e / 4 ≤ r / 2 ^ e ∧
    r / 2 ^ e ≤ m + 1 / 2 ∧
    (m % 2 = 1 → (m : ℚ) - below m e / 4 < r / 2 ^ e ∧ r / 2 ^ e < m + 1 / 2) := by
  have hpos : (0 : ℚ) < 2 ^ e := by positivity
  have hquarter : (2 : ℚ) ^ (e - 2) = 2 ^ e / 4 := by
    rw [zpow_sub₀ two_ne_zero]
    norm_num
  obtain ⟨hlow, hhigh, hodd⟩ := h
  rw [hquarter] at hlow hhigh hodd
  rw [le_div_iff₀ hpos, div_le_iff₀ hpos, lt_div_iff₀ hpos, div_lt_iff₀ hpos]
  refine ⟨by linarith, by linarith, fun h => ?_⟩
  obtain ⟨ha, hb⟩ := hodd h
  exact ⟨by linarith, by linarith⟩

theorem below_le (m : Nat) (e : Int) : below m e ≤ 2 := by
  unfold below
  split <;> decide

end

/-- What rounds to a double is rounded to it. -/
theorem ofRatio_eq (negative : Bool) {num den m : Nat} {e : Int} (hm : Proper m e) (hnum : 0 < num)
    (hden : 0 < den) (h : Nearest m e (num / den)) :
    ofRatio negative num den = ofMagnitudeBits negative (magnitudeBits m e) := by
  obtain ⟨hlow, hhigh, hodd⟩ := h.scaled
  have hpos : (0 : ℚ) < 2 ^ e := by positivity
  have hm53 : (m : ℚ) + 1 ≤ 2 ^ 53 := by exact_mod_cast hm.lt
  have hbelow : (below m e : ℚ) ≤ 2 := by exact_mod_cast below_le m e
  have hlt : leading num den < 53 + e := by
    refine leading_lt hnum hden ?_
    rw [zpow_add₀ two_ne_zero, ← div_lt_iff₀ hpos]
    calc (num / den / 2 ^ e : ℚ) ≤ m + 1 / 2 := hhigh
      _ < 2 ^ (53 : ℤ) := by norm_num at hm53 ⊢; linarith
  have hge := hm.le
  rw [ofRatio_of_pos negative hnum, magnitudeBits]
  dsimp only
  obtain ⟨hp, -⟩ := powerOfTwo_pos (max (leading num den - 52) minExponent)
  by_cases hunit : max (leading num den - 52) minExponent = e
  · rw [hunit, roundHalfEven_eq]
    · rw [hunit] at hp
      positivity
    · rw [scaled_eq]
      linarith
    · rw [scaled_eq]
      exact hhigh
    · rw [scaled_eq]
      intro hmod
      obtain ⟨ha, hb⟩ := hodd hmod
      exact ⟨by linarith, hb⟩
  · -- The quotient lies in the binade below, and is rounded up into the next.
    have hlead : leading num den < 52 + e := by omega
    have hmin : minExponent < e := by omega
    have hsmall : (num / den / 2 ^ e : ℚ) < 2 ^ 52 := by
      by_contra hle
      refine absurd (le_leading hnum hden (k := 52 + e) ?_) (not_le.2 hlead)
      rw [zpow_add₀ two_ne_zero, ← le_div_iff₀ hpos]
      exact_mod_cast not_lt.1 hle
    have hnormal : 2 ^ 52 ≤ m := hm.normal.resolve_right (ne_of_gt hmin)
    obtain rfl : m = 2 ^ 52 := by
      by_contra hne
      have : (2 : ℚ) ^ 52 + 1 ≤ m := by
        have : 2 ^ 52 + 1 ≤ m := by omega
        exact_mod_cast this
      linarith
    have hone : below (2 ^ 52) e = 1 := if_pos ⟨rfl, hmin⟩
    rw [hone] at hlow
    push_cast at hlow
    have hlead' : leading num den = 51 + e := by
      have hle : 51 + e ≤ leading num den := by
        refine le_leading hnum hden ?_
        rw [zpow_add₀ two_ne_zero, ← le_div_iff₀ hpos]
        norm_num at hlow ⊢
        linarith
      omega
    have hunit' : max (leading num den - 52) minExponent = e - 1 := by omega
    have hscaled : (num / den / 2 ^ (e - 1) : ℚ) = 2 * (num / den / 2 ^ e) := by
      rw [zpow_sub_one₀ two_ne_zero]
      field_simp
    have hsucc : (e - minExponent).toNat = (e - 1 - minExponent).toNat + 1 := by omega
    rw [hunit', hsucc, roundHalfEven_eq (n := 2 ^ 53)]
    · have hcarry : (2 : Nat) ^ 53 = 1 * 2 ^ 52 + 2 ^ 52 := by norm_num
      rw [hcarry, Nat.add_mul, Nat.add_assoc]
    · rw [hunit'] at hp
      positivity
    · rw [scaled_eq, hscaled]
      push_cast
      norm_num at hlow ⊢
      linarith
    · rw [scaled_eq, hscaled]
      push_cast
      norm_num at hsmall ⊢
      linarith
    · intro h
      norm_num at h

/-! ## Doubles -/

open Float.Model (Format UnpackedFloat)

/-- The field of the exponent is all ones in infinities and where there is no number. -/
theorem isFinite_iff (x : Float) : x.isFinite = true ↔ x.toBits.toNat / 2 ^ 52 % 2 ^ 11 ≠ 2047 := by
  have hfield : (@UnpackedFloat.unpackExponent Format.binary64 x.toBits.toBitVec).toNat =
      x.toBits.toNat / 2 ^ 52 % 2 ^ 11 := by
    rw [UnpackedFloat.unpackExponent_def]
    simp [BitVec.extractLsb'_toNat, Nat.shiftRight_eq_div_pow]
  have hones : @UnpackedFloat.unpackExponent Format.binary64 x.toBits.toBitVec =
      -BitVec.ofNat Format.binary64.exponentBits 1 ↔ x.toBits.toNat / 2 ^ 52 % 2 ^ 11 = 2047 := by
    rw [← hfield, ← BitVec.toNat_inj]
    rfl
  rw [Ne, ← hones]
  show (UnpackedFloat.unpack Format.binary64 x.toBits.toBitVec).isFinite = true ↔ _
  unfold UnpackedFloat.unpack
  dsimp only
  split
  · next h =>
    refine iff_of_false ?_ (not_not.2 h)
    split <;> exact Bool.false_ne_true
  · next h =>
    refine iff_of_true ?_ h
    split
    · split <;> rfl
    · rfl

theorem not_isInf {x : Float} (h : x.isFinite = true) : x.isInf = false := by
  have hmodel : x.toModel.unpack.isFinite = true := h
  show x.toModel.unpack.isInf = false
  revert hmodel
  cases x.toModel.unpack <;> simp [UnpackedFloat.isFinite, UnpackedFloat.isInf]

theorem exists_finite {x : Float} (h : x.isFinite = true) :
    ∃ negative m e, ofFloat x = .finite negative m e := by
  rw [isFinite_iff] at h
  unfold ofFloat
  simp only [Nat.pow_eq]
  rw [if_neg h]
  split
  · exact ⟨_, _, _, rfl⟩
  · exact ⟨_, _, _, rfl⟩

/-- The bits of a double are its fraction, its exponent and its sign. -/
theorem bits_eq {b : Nat} (h : b < 2 ^ 64) :
    b = b / 2 ^ 52 % 2 ^ 11 * 2 ^ 52 + b % 2 ^ 52 + if b / 2 ^ 63 == 1 then 2 ^ 63 else 0 := by
  rcases (show b / 2 ^ 63 = 0 ∨ b / 2 ^ 63 = 1 by omega) with hs | hs
  · rw [hs, if_neg (by decide)]
    omega
  · rw [hs, if_pos (by decide)]
    omega

/-- A finite double is given by its magnitude and its sign. -/
theorem ofFloat_eq_finite {x : Float} {negative : Bool} {m : Nat} {e : Int}
    (h : ofFloat x = .finite negative m e) :
    Proper m e ∧ magnitudeBits m e < 2047 * 2 ^ 52 ∧ ofMagnitudeBits negative (magnitudeBits m e) =
      x := by
  have hbits := bits_eq x.toBits.toNat_lt
  have hround : Float.ofBits (.ofNat x.toBits.toNat) = x := by
    rw [UInt64.ofNat_toNat, Float.ofBits_toBits]
  unfold ofFloat at h
  simp only [Nat.pow_eq] at h
  unfold ofMagnitudeBits
  simp only [Nat.pow_eq]
  generalize x.toBits.toNat = b at *
  generalize hf : b / 2 ^ 52 % 2 ^ 11 = f at *
  generalize hfr : b % 2 ^ 52 = fraction at *
  have hflt : f < 2 ^ 11 := hf ▸ Nat.mod_lt _ (by norm_num)
  have hfrlt : fraction < 2 ^ 52 := hfr ▸ Nat.mod_lt _ (by norm_num)
  split at h
  · split at h <;> nomatch h
  · next hne =>
    have hmagnitude (hm : magnitudeBits m e = f * 2 ^ 52 + fraction) : magnitudeBits m e <
        2047 * 2 ^ 52 := by
      rw [hm]
      omega
    split at h
    · next hz =>
      obtain ⟨rfl, rfl, rfl⟩ := Binary64.finite.inj h
      have hm : magnitudeBits fraction minExponent = f * 2 ^ 52 + fraction := by
        simp [magnitudeBits, hz]
      refine ⟨⟨by omega, le_refl _, .inr rfl⟩, hmagnitude hm, ?_⟩
      rw [Nat.min_eq_left (Nat.le_of_lt (hmagnitude hm)), hm, ← hbits, hround]
    · next hz =>
      obtain ⟨rfl, rfl, rfl⟩ := Binary64.finite.inj h
      have hm : magnitudeBits (2 ^ 52 + fraction) (f - 1075) = f * 2 ^ 52 + fraction := by
        have hto : ((f : Int) - 1075 - minExponent).toNat + 1 = f := by
          rw [minExponent]
          omega
        rw [magnitudeBits]
        generalize ((f : Int) - 1075 - minExponent).toNat = k at hto
        omega
      refine ⟨⟨by omega, by rw [minExponent]; omega, .inl (Nat.le_add_right _ _)⟩, hmagnitude hm,
        ?_⟩
      rw [Nat.min_eq_left (Nat.le_of_lt (hmagnitude hm)), hm, ← hbits, hround]

theorem toBits_ofBits {u : UInt64} (h : u.toNat / 2 ^ 52 % 2 ^ 11 ≠ 2047) :
    (Float.ofBits u).toBits = u := by
  have hvalid : Format.binary64.Valid u.toBitVec := by
    refine ⟨fun hones => absurd ?_ h⟩
    rw [UnpackedFloat.unpackExponent_def, ← BitVec.toNat_inj] at hones
    simpa [BitVec.extractLsb'_toNat, Nat.shiftRight_eq_div_pow] using hones
  exact UInt64.toBitVec_inj.1 (UnpackedFloat.pack_unpack_of_valid hvalid)

/-- Magnitudes below infinity are those of finite doubles. -/
theorem isFinite_ofMagnitudeBits (negative : Bool) {bits : Nat} (h : bits < 2047 * 2 ^ 52) :
    (ofMagnitudeBits negative bits).isFinite = true := by
  have hnat : ∀ sign ∈ [0, 2 ^ 63], (UInt64.ofNat (bits + sign)).toNat / 2 ^ 52 % 2 ^ 11 ≠
      2047 := by
    intro sign hsign
    rw [UInt64.toNat_ofNat']
    simp only [List.mem_cons, List.not_mem_nil, or_false] at hsign
    omega
  unfold ofMagnitudeBits
  simp only [Nat.pow_eq]
  rw [Nat.min_eq_left (Nat.le_of_lt h), isFinite_iff]
  have hfield := hnat (if negative = true then 2 ^ 63 else 0) (by cases negative <;> simp)
  rwa [toBits_ofBits hfield]

end Binary64

end FrameLedger
