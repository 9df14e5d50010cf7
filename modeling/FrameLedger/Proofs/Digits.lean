import FrameLedger.Number.Shortest
import FrameLedger.Proofs.Rounding

/-!
# Shortest digits round back

The search for the shortest decimal of a double tries ever finer grids, and a grid finer than half
the last place has a point that rounds to the double. Twenty-five grids reach that far:
`Shortest.nearest_shortest`.
-/

namespace FrameLedger

/-! ## Powers of ten and of two -/

/-- `10 ^ 28` is just above `2 ^ 93`. -/
theorem two_pow_le_ten_pow {a b : Nat} (h : 28 * a ≤ 93 * b) : 2 ^ a ≤ 10 ^ b := by
  have hpow : (2 ^ a) ^ 93 ≤ (10 ^ b) ^ 93 :=
    calc (2 ^ a) ^ 93 = (2 ^ 93) ^ a := by rw [← pow_mul, ← pow_mul, mul_comm]
      _ ≤ (10 ^ 28) ^ a := Nat.pow_le_pow_left (by norm_num) a
      _ = 10 ^ (28 * a) := by rw [← pow_mul]
      _ ≤ 10 ^ (93 * b) := Nat.pow_le_pow_right (by norm_num) h
      _ = (10 ^ b) ^ 93 := by rw [← pow_mul, mul_comm]
  exact (Nat.pow_le_pow_iff_left (by norm_num)).1 hpow

/-- `10 ^ 3` is just below `2 ^ 10`. -/
theorem ten_pow_le_two_pow {a b : Nat} (h : 10 * a ≤ 3 * b) : 10 ^ a ≤ 2 ^ b := by
  have hpow : (10 ^ a) ^ 3 ≤ (2 ^ b) ^ 3 :=
    calc (10 ^ a) ^ 3 = (10 ^ 3) ^ a := by rw [← pow_mul, ← pow_mul, mul_comm]
      _ ≤ (2 ^ 10) ^ a := Nat.pow_le_pow_left (by norm_num) a
      _ = 2 ^ (10 * a) := by rw [← pow_mul]
      _ ≤ 2 ^ (3 * b) := Nat.pow_le_pow_right (by norm_num) h
      _ = (2 ^ b) ^ 3 := by rw [← pow_mul, mul_comm]
  exact (Nat.pow_le_pow_iff_left (by norm_num)).1 hpow

namespace Shortest

open Binary64 (below powerOfTwo powerOfTwo_eq powerOfTwo_pos minExponent Nearest Proper)

/-- `10 ^ k` as a quotient. -/
def powerOfTen (k : Int) : Nat × Nat :=
  if 0 ≤ k then (Nat.pow 10 k.toNat, 1) else (1, Nat.pow 10 (-k).toNat)

theorem powerOfTen_pos (k : Int) : 0 < (powerOfTen k).1 ∧ 0 < (powerOfTen k).2 := by
  unfold powerOfTen
  split <;> simp [Nat.pow_eq]

theorem powerOfTen_eq (k : Int) : ((powerOfTen k).1 : ℚ) / (powerOfTen k).2 = 10 ^ k := by
  unfold powerOfTen
  split
  · next h =>
    obtain ⟨n, rfl⟩ := Int.eq_ofNat_of_zero_le h
    simp [Nat.pow_eq]
  · next h =>
    obtain ⟨n, hn⟩ := Int.eq_ofNat_of_zero_le (show 0 ≤ -k by omega)
    obtain rfl : k = -(n : ℤ) := by omega
    simp [Nat.pow_eq]

section

variable (m : Nat) (e k : Int)

theorem scale_low :
    (scale m e k).low = (4 * m - below m e) * (powerOfTwo (e - 2)).1 * (powerOfTen k).2 := by
  unfold scale below powerOfTen
  by_cases h : 0 ≤ k <;> simp [h]

theorem scale_value : (scale m e k).value = 4 * m * (powerOfTwo (e - 2)).1 * (powerOfTen k).2 := by
  unfold scale powerOfTen
  by_cases h : 0 ≤ k <;> simp [h]

theorem scale_high :
    (scale m e k).high = (4 * m + 2) * (powerOfTwo (e - 2)).1 * (powerOfTen k).2 := by
  unfold scale powerOfTen
  by_cases h : 0 ≤ k <;> simp [h]

theorem scale_unit : (scale m e k).unit = (powerOfTwo (e - 2)).2 * (powerOfTen k).1 := by
  unfold scale powerOfTen
  by_cases h : 0 ≤ k <;> simp [h]

theorem scale_closed : (scale m e k).closed = (m % 2 == 0) := by
  unfold scale
  rfl

/-- Multiples of the grid and multiples of a quarter of the last place. -/
theorem le_iff (x c : Nat) :
    x * (powerOfTwo (e - 2)).1 * (powerOfTen k).2 ≤ c * (scale m e k).unit ↔
    (x : ℚ) * 2 ^ (e - 2) ≤ c * 10 ^ k := by
  obtain ⟨hp, hq⟩ := powerOfTwo_pos (e - 2)
  obtain ⟨ha, hb⟩ := powerOfTen_pos k
  rw [scale_unit, ← powerOfTwo_eq, ← powerOfTen_eq, mul_div_assoc', mul_div_assoc',
    div_le_div_iff₀ (by exact_mod_cast hq) (by exact_mod_cast hb)]
  rw [show c * ((powerOfTwo (e - 2)).2 * (powerOfTen k).1) =
    c * (powerOfTen k).1 * (powerOfTwo (e - 2)).2 by ring]
  exact_mod_cast Iff.rfl

theorem ge_iff (x c : Nat) :
    c * (scale m e k).unit ≤ x * (powerOfTwo (e - 2)).1 * (powerOfTen k).2 ↔
    (c : ℚ) * 10 ^ k ≤ x * 2 ^ (e - 2) := by
  obtain ⟨hp, hq⟩ := powerOfTwo_pos (e - 2)
  obtain ⟨ha, hb⟩ := powerOfTen_pos k
  rw [scale_unit, ← powerOfTwo_eq, ← powerOfTen_eq, mul_div_assoc', mul_div_assoc',
    div_le_div_iff₀ (by exact_mod_cast hb) (by exact_mod_cast hq)]
  rw [show c * ((powerOfTwo (e - 2)).2 * (powerOfTen k).1) =
    c * (powerOfTen k).1 * (powerOfTwo (e - 2)).2 by ring]
  exact_mod_cast Iff.rfl

end

section

variable {m : Nat} {e k : Int}

/-- What a grid holds rounds to the value. -/
theorem nearest_of_holds (hm : 0 < m) {c : Nat} (h : (scale m e k).holds c = true) :
    Nearest m e (c * 10 ^ k) := by
  have hbelow : below m e ≤ 4 * m := by
    have := Binary64.below_le m e
    omega
  have hcast : ((4 * m - below m e : Nat) : ℚ) = 4 * m - below m e := by
    rw [Nat.cast_sub hbelow]
    push_cast
    rfl
  have hlow := le_iff m e k (4 * m - below m e) c
  have hlow' := ge_iff m e k (4 * m - below m e) c
  have hhigh := ge_iff m e k (4 * m + 2) c
  have hhigh' := le_iff m e k (4 * m + 2) c
  rw [← scale_low, hcast] at hlow hlow'
  rw [← scale_high] at hhigh hhigh'
  push_cast at hhigh hhigh'
  unfold Scaled.holds at h
  dsimp only at h
  rw [scale_closed] at h
  rcases Nat.mod_two_eq_zero_or_one m with hmod | hmod
  · simp only [hmod, BEq.rfl, if_true, Bool.and_eq_true, decide_eq_true_eq] at h
    exact ⟨hlow.1 h.1, hhigh.1 h.2, fun h => by omega⟩
  · simp only [hmod, Nat.one_ne_zero, beq_iff_eq, if_false, Bool.and_eq_true,
      decide_eq_true_eq] at h
    have hlt := not_le.1 (mt hlow'.2 (not_le.2 h.1))
    have hgt := not_le.1 (mt hhigh'.2 (not_le.2 h.2))
    exact ⟨hlt.le, hgt.le, fun _ => ⟨hlt, hgt⟩⟩

theorem of_hit? {tie : Tie} {s : Scaled} {c : Nat} (h : s.hit? tie = some c) :
    s.holds c = true ∧ 0 < c := by
  unfold Scaled.hit? at h
  dsimp only at h
  split at h
  · next hc hc' =>
    simp only [Bool.and_eq_true, bne_iff_ne] at hc
    have hpos := Nat.pos_of_ne_zero hc.2
    split at h
    · exact Option.some.inj h ▸ ⟨hc.1, hpos⟩
    · split at h
      · exact Option.some.inj h ▸ ⟨hc', Nat.succ_pos _⟩
      · cases tie with
        | up => exact Option.some.inj h ▸ ⟨hc', Nat.succ_pos _⟩
        | even =>
          obtain rfl := Option.some.inj h
          rcases Nat.mod_two_eq_zero_or_one (s.value / s.unit) with hmod | hmod <;> rw [hmod]
          · exact ⟨hc.1, hpos⟩
          · exact ⟨hc', Nat.succ_pos _⟩
  · next hc _ =>
    simp only [Bool.and_eq_true, bne_iff_ne] at hc
    exact Option.some.inj h ▸ ⟨hc.1, Nat.pos_of_ne_zero hc.2⟩
  · next hc' => exact Option.some.inj h ▸ ⟨hc', Nat.succ_pos _⟩
  · nomatch h

/-- A grid finer than half the last place has a point above the value that rounds to it. -/
theorem isSome_hit? (tie : Tie) (hfine : (10 : ℚ) ^ k < 2 ^ (e - 1)) :
    ((scale m e k).hit? tie).isSome = true := by
  obtain ⟨hp, hq⟩ := powerOfTwo_pos (e - 2)
  obtain ⟨ha, hb⟩ := powerOfTen_pos k
  have hunit : (scale m e k).unit < 2 * (powerOfTwo (e - 2)).1 * (powerOfTen k).2 := by
    have h := le_iff m e k 2 1
    rw [Nat.one_mul] at h
    refine not_le.1 (mt h.1 (not_le.2 ?_))
    have hexp : 1 + (e - 2) = e - 1 := by omega
    rwa [Nat.cast_one, one_mul, Nat.cast_ofNat, ← zpow_one_add₀ two_ne_zero, hexp]
  have hpos : 0 < (scale m e k).unit := by
    rw [scale_unit]
    positivity
  have hholds : (scale m e k).holds ((scale m e k).value / (scale m e k).unit + 1) = true := by
    have hlt := Nat.lt_div_mul_add (a := (scale m e k).value) hpos
    have hle := Nat.div_mul_le_self (scale m e k).value (scale m e k).unit
    have hlow : (scale m e k).low ≤ (scale m e k).value := by
      rw [scale_low, scale_value]
      gcongr
      omega
    have hhigh : (scale m e k).value + 2 * (powerOfTwo (e - 2)).1 * (powerOfTen k).2 =
        (scale m e k).high := by
      rw [scale_value, scale_high]
      ring
    unfold Scaled.holds
    dsimp only
    rw [Nat.add_mul, Nat.one_mul]
    split <;> rw [Bool.and_eq_true, decide_eq_true_eq, decide_eq_true_eq] <;> omega
  unfold Scaled.hit?
  dsimp only
  rw [hholds]
  split
  · split
    · rfl
    · split
      · rfl
      · cases tie <;> rfl
  · next h => nomatch h
  · rfl
  · next h => nomatch h

/-- A search that has a grid to hit hits one. -/
theorem search_spec (tie : Tie) (hm : 0 < m) : ∀ (fuel : Nat) (k : Int),
    (∃ j : Nat, j < fuel ∧ (10 : ℚ) ^ (k - j) < 2 ^ (e - 1)) →
      0 < (search tie m e fuel k).1 ∧
        Nearest m e ((search tie m e fuel k).1 * 10 ^ (search tie m e fuel k).2)
  | 0, _, ⟨_, h, _⟩ => absurd h (Nat.not_lt_zero _)
  | fuel + 1, k, ⟨j, hj, hfine⟩ => by
    rw [search]
    rcases hhit : (scale m e k).hit? tie with _ | c
    · refine search_spec tie hm fuel (k - 1) ?_
      rcases j with _ | j
      · have := isSome_hit? (m := m) tie (by simpa using hfine)
        rw [hhit] at this
        nomatch this
      · refine ⟨j, Nat.lt_of_succ_lt_succ hj, ?_⟩
        convert hfine using 2
        push_cast
        ring
    · obtain ⟨hholds, hpos⟩ := of_hit? hhit
      exact ⟨hpos, nearest_of_holds hm hholds⟩

/-- Twenty-four grids below the first, steps are finer than half the last place. -/
theorem fine_firstGrid (hm : m < 2 ^ 53) (he : -1074 ≤ e) (he' : e ≤ 971) :
    (10 : ℚ) ^ (firstGrid m e - 24) < 2 ^ (e - 1) := by
  have hlog : m.log2 ≤ 52 := by
    rcases Nat.eq_zero_or_pos m with rfl | hpos
    · decide
    · have := (Nat.log2_lt (Nat.ne_of_gt hpos)).2 hm
      omega
  have hfloor : 100000 * (firstGrid m e - 1) ≤ (53 + e) * 30103 := by
    have hmul : 100000 * ((m.log2 + 1 + e) * 30103).fdiv 100000 ≤ (m.log2 + 1 + e) * 30103 :=
      Int.mul_fdiv_self_le (by norm_num)
    rw [firstGrid]
    omega
  generalize firstGrid m e = g at hfloor
  rcases le_or_gt 0 (g - 24) with hg | hg
  · -- Both exponents are positive.
    obtain ⟨a, ha⟩ := Int.eq_ofNat_of_zero_le hg
    obtain ⟨b, hb⟩ := Int.eq_ofNat_of_zero_le (show 0 ≤ e - 2 by omega)
    have hle : 10 ^ a ≤ 2 ^ b := ten_pow_le_two_pow (by omega)
    calc (10 : ℚ) ^ (g - 24) = (10 ^ a : Nat) := by rw [ha]; simp
      _ ≤ (2 ^ b : Nat) := by exact_mod_cast hle
      _ = 2 ^ (e - 2) := by rw [hb]; simp
      _ < 2 ^ (e - 1) := zpow_lt_zpow_right₀ one_lt_two (by omega)
  · rcases le_or_gt 1 e with hone | hone
    · calc (10 : ℚ) ^ (g - 24) < 10 ^ (0 : ℤ) := zpow_lt_zpow_right₀ (by norm_num) hg
        _ = 2 ^ (0 : ℤ) := by simp
        _ ≤ 2 ^ (e - 1) := zpow_le_zpow_right₀ one_le_two (by omega)
    · -- Both are negative, and the inverses are compared.
      obtain ⟨a, ha⟩ := Int.eq_ofNat_of_zero_le (show 0 ≤ 2 - e by omega)
      obtain ⟨b, hb⟩ := Int.eq_ofNat_of_zero_le (show 0 ≤ 24 - g by omega)
      have hle : 2 ^ a ≤ 10 ^ b := two_pow_le_ten_pow (by omega)
      calc (10 : ℚ) ^ (g - 24) = ((10 ^ b : Nat) : ℚ)⁻¹ := by
            rw [show g - 24 = -(b : ℤ) by omega]
            simp
        _ ≤ ((2 ^ a : Nat) : ℚ)⁻¹ := by
            have hpos : (0 : ℚ) < (2 ^ a : Nat) := by positivity
            exact inv_anti₀ hpos (by exact_mod_cast hle)
        _ = 2 ^ (e - 2) := by
            rw [show e - 2 = -(a : ℤ) by omega]
            simp
        _ < 2 ^ (e - 1) := zpow_lt_zpow_right₀ one_lt_two (by omega)

/-- The shortest decimal of a double rounds to it. -/
theorem nearest_shortest (tie : Tie) (hm : 0 < m) (hlt : m < 2 ^ 53) (he : -1074 ≤ e)
    (he' : e ≤ 971) :
    0 < (shortest tie m e).1 ∧ Nearest m e ((shortest tie m e).1 * 10 ^ (shortest tie m e).2) := by
  rw [shortest, if_neg (Nat.ne_of_gt hm)]
  exact search_spec tie hm 25 _ ⟨24, by norm_num, by exact_mod_cast fine_firstGrid hlt he he'⟩

end

end Shortest

end FrameLedger
