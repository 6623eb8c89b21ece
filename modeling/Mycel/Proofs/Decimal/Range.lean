import Mathlib
import Mycel.Decimal.Reading

/-!
# Numbers in range

A literal has a value as long as it is less than the middle between the greatest double and the next
power of two, which is `(2 ^ 54 - 1) * 2 ^ 970`. Below that, rounding does not reach the power of
two (`FloatFormat.round_lt`), and a magnitude that does not reach it has a finite double
(`Binary.isInf_toFloat`).
-/

namespace Mycel

/-! ## Finite doubles -/

namespace Binary

open Float.Model

theorem isInf_unpack {b : BitVec 64} (h : @UnpackedFloat.unpackExponent .binary64 b ≠ -1#11) :
    (UnpackedFloat.unpack .binary64 b).isInf = false := by
  fun_cases UnpackedFloat.unpack .binary64 b with
  | case1 _ _ _ _ hexponent => exact absurd hexponent h
  | _ => rfl

/-- A double is finite unless all the bits of its exponent are set. -/
theorem isInf_ofBits {u : UInt64} (h : u.toNat / leastNormal % 2048 ≠ 2047) :
    (Float.ofBits u).isInf = false := by
  show (UnpackedFloat.unpack .binary64 (UnpackedFloat.pack .binary64
    (UnpackedFloat.unpack .binary64 u.toBitVec))).isInf = false
  rw [UnpackedFloat.pack_unpack]
  split_ifs with hnan
  · rw [UnpackedFloat.unpack_packedNaN]
    rfl
  · refine isInf_unpack fun heq => h ?_
    have hnat : u.toNat >>> 52 % 2048 = 2047 := congrArg BitVec.toNat heq
    rwa [Nat.shiftRight_eq_div_pow] at hnat

/-- A mantissa that is shifted to full length has an exponent in range. -/
theorem shift_bounds {m shift : Nat} {e : Int} (hmantissa : m ≤ 2 ^ 53)
    (hbound : m.log2 + e < 1024) (hshift : shift ≤ 52 - m.log2) (hnormal : 2 ^ 52 ≤ m * 2 ^ shift) :
    m * 2 ^ shift < 2 ^ 53 ∧ e - shift ≤ 971 ∨ m * 2 ^ shift = 2 ^ 53 ∧ e - shift ≤ 970 := by
  have hne : m ≠ 0 := by
    rintro rfl
    simp at hnormal
  by_cases hlog : m.log2 ≤ 52
  · have hlt : m * 2 ^ shift < 2 ^ (m.log2 + 1 + shift) := by
      rw [Nat.pow_add]
      exact Nat.mul_lt_mul_of_pos_right Nat.lt_log2_self (Nat.two_pow_pos shift)
    have hlength : 52 < m.log2 + 1 + shift :=
      (Nat.pow_lt_pow_iff_right (by decide)).1 (Nat.lt_of_le_of_lt hnormal hlt)
    have hupper : 2 ^ (m.log2 + 1 + shift) ≤ 2 ^ 53 := Nat.pow_le_pow_right (by decide) (by omega)
    exact .inl ⟨Nat.lt_of_lt_of_le hlt hupper, by omega⟩
  · have hpow : 2 ^ 53 ≤ m :=
      Nat.le_trans (Nat.pow_le_pow_right (by decide) (by omega)) (Nat.log2_self_le hne)
    obtain rfl : shift = 0 := by omega
    exact .inr ⟨by omega, by omega⟩

/-- A magnitude below `2 ^ 1024` whose mantissa fits is a finite double. -/
theorem isInf_toFloat {b : Binary} (hmantissa : b.mantissa ≤ 2 ^ 53)
    (hleast : leastExponent ≤ b.exponent) (hbound : b.mantissa.log2 + b.exponent < 1024) :
    b.toFloat.isInf = false := by
  obtain ⟨m, e⟩ := b
  unfold toFloat
  by_cases hzero : m = 0
  · rw [if_pos hzero]
    exact isInf_ofBits (by decide)
  · rw [if_neg hzero]
    simp only [leastExponent, Nat.shiftLeft_eq] at hleast ⊢
    split_ifs with hsmall
    · have hnat := UInt64.toNat_ofNat_of_lt' (Nat.lt_trans hsmall (by decide))
      refine isInf_ofBits ?_
      rw [Nat.toUInt64, hnat, Nat.div_eq_of_lt hsmall]
      decide
    · have hbounds := shift_bounds hmantissa hbound (Nat.min_le_left _ _)
        (Nat.le_of_not_lt hsmall)
      generalize min (52 - m.log2) (e - -1074).toNat = shift at hsmall hbounds ⊢
      simp only [leastNormal] at hsmall hbounds ⊢
      generalize hbits : ((e - shift - -1074).toNat + 1) * 4503599627370496 +
        (m * 2 ^ shift - 4503599627370496) = bits
      have hlt : bits < 2047 * 4503599627370496 := by omega
      have hnat := UInt64.toNat_ofNat_of_lt' (Nat.lt_trans hlt (by decide))
      refine isInf_ofBits ?_
      rw [Nat.toUInt64, hnat, leastNormal]
      omega

end Binary

/-! ## Rounding -/

namespace FloatFormat

theorem nearestWhole_le {a b k : Nat} (h : 2 * a < (2 * k + 1) * b) : nearestWhole a b ≤ k := by
  have hb : 0 < b := by
    rcases Nat.eq_zero_or_pos b with rfl | hb
    · simp at h
    · exact hb
  have hle : a / b ≤ k := by
    refine Nat.le_of_lt_succ ((Nat.div_lt_iff_lt_mul hb).2 ?_)
    rw [Nat.succ_mul]
    rw [Nat.add_mul, Nat.mul_assoc] at h
    omega
  unfold nearestWhole
  simp only
  split_ifs with hup
  · -- Rounding up takes a remainder of at least half of `b`.
    by_contra hgt
    obtain hq : a / b = k := by omega
    have hsplit := Nat.div_add_mod a b
    rw [hq, Nat.mul_comm] at hsplit
    rw [Nat.add_mul, Nat.mul_assoc] at h
    omega
  · exact hle

theorem shifted_ratio (n d : Nat) (e : Int) :
    ((shifted n d e).1 : ℚ) / (shifted n d e).2 = n / d / 2 ^ e := by
  unfold shifted
  simp only [Nat.shiftLeft_eq]
  push_cast
  rcases Int.le_total 0 e with he | he
  · obtain ⟨k, rfl⟩ := Int.eq_ofNat_of_zero_le he
    simp [div_div]
  · obtain ⟨k, hk⟩ := Int.eq_ofNat_of_zero_le (Int.neg_nonneg_of_nonpos he)
    obtain rfl : e = -(k : Int) := by omega
    simp [div_mul_eq_mul_div]

theorem ratio_bounds {n d : Nat} (hn : n ≠ 0) (hd : d ≠ 0) :
    (2 : ℚ) ^ ((n.log2 : Int) - d.log2 - 1) ≤ n / d ∧
      (n : ℚ) / d < 2 ^ ((n.log2 : Int) - d.log2 + 1) := by
  have hlow : ∀ {m : Nat}, m ≠ 0 → (2 : ℚ) ^ (m.log2 : Int) ≤ m := fun {m} hm => by
    exact_mod_cast Nat.log2_self_le hm
  have hhigh : ∀ m : Nat, (m : ℚ) < 2 ^ ((m.log2 : Int) + 1) := fun m => by
    exact_mod_cast Nat.lt_log2_self
  have hpos : (0 : ℚ) < d := by exact_mod_cast Nat.pos_of_ne_zero hd
  constructor
  · rw [le_div_iff₀ hpos]
    calc (2 : ℚ) ^ ((n.log2 : Int) - d.log2 - 1) * d
        ≤ 2 ^ ((n.log2 : Int) - d.log2 - 1) * 2 ^ ((d.log2 : Int) + 1) := by
          have := hhigh d
          gcongr
      _ = 2 ^ (n.log2 : Int) := by
          rw [← zpow_add₀ two_ne_zero]
          congr 1
          omega
      _ ≤ n := hlow hn
  · rw [div_lt_iff₀ hpos]
    calc (n : ℚ) < 2 ^ ((n.log2 : Int) + 1) := hhigh n
      _ = 2 ^ ((n.log2 : Int) - d.log2 + 1) * 2 ^ (d.log2 : Int) := by
          rw [← zpow_add₀ two_ne_zero]
          congr 1
          omega
      _ ≤ 2 ^ ((n.log2 : Int) - d.log2 + 1) * d := by
          have := hlow hd
          gcongr

theorem shifted_snd_pos {d : Nat} (hd : d ≠ 0) (n : Nat) (e : Int) : 0 < (shifted n d e).2 := by
  simp only [shifted, Nat.shiftLeft_eq]
  exact Nat.mul_pos (Nat.pos_of_ne_zero hd) (Nat.two_pow_pos _)

theorem shifted_lt_iff {n d : Nat} (hd : d ≠ 0) (e : Int) (q : ℚ) :
    ((shifted n d e).1 : ℚ) < q * (shifted n d e).2 ↔ (n : ℚ) / d < q * 2 ^ e := by
  have hpos : (0 : ℚ) < (shifted n d e).2 := by exact_mod_cast shifted_snd_pos hd n e
  rw [← div_lt_iff₀ (zpow_pos two_pos e), ← shifted_ratio, div_lt_iff₀ hpos]

theorem log2_lt_iff {q k : Nat} (hk : 0 < k) : q.log2 < k ↔ q < 2 ^ k := by
  by_cases hq : q = 0
  · simp [hq, hk]
  · exact Nat.log2_lt hq

theorem log2_shifted_lt_iff {n d : Nat} (hd : d ≠ 0) (e : Int) :
    ((shifted n d e).1 / (shifted n d e).2).log2 < 53 ↔ (n : ℚ) / d < 2 ^ (e + 53) := by
  have hcast := shifted_lt_iff (n := n) hd e (2 ^ 53)
  rw [log2_lt_iff (by decide), Nat.div_lt_iff_lt_mul (shifted_snd_pos hd n e), Int.add_comm,
    zpow_add₀ two_ne_zero]
  exact_mod_cast hcast

/-- Up to the least exponent, the last digit is where a mantissa has full length. -/
theorem lastExponent_eq {n d : Nat} (hn : n ≠ 0) (hd : d ≠ 0) : ∃ e : Int,
    double.lastExponent n d = max Binary.leastExponent e ∧ (n : ℚ) / d < 2 ^ (e + 53) ∧
      (2 : ℚ) ^ (e + 52) ≤ n / d := by
  obtain ⟨hlow, hhigh⟩ := ratio_bounds hn hd
  by_cases hlog : ((shifted n d ((n.log2 : Int) - d.log2 - 53)).1 /
      (shifted n d ((n.log2 : Int) - d.log2 - 53)).2).log2 < 53
  · refine ⟨(n.log2 : Int) - d.log2 - 53, ?_, (log2_shifted_lt_iff hd _).1 hlog, ?_⟩
    · simp only [lastExponent, double]
      exact congrArg _ (if_pos hlog)
    · convert hlow using 2
      omega
  · refine ⟨(n.log2 : Int) - d.log2 - 53 + 1, ?_, ?_, ?_⟩
    · simp only [lastExponent, double]
      exact congrArg _ (if_neg hlog)
    · convert hhigh using 2
      omega
    · have hsum : (n.log2 : Int) - d.log2 - 53 + 1 + 52 = (n.log2 : Int) - d.log2 - 53 + 53 := by
        omega
      rw [log2_shifted_lt_iff hd, not_lt] at hlog
      rwa [hsum]

/-- The middle between the greatest double and the power of two after it. -/
def overflow : Nat := (2 ^ 54 - 1) * 2 ^ 970

theorem overflow_eq : (overflow : ℚ) = 2 ^ (1024 : Int) - 2 ^ (970 : Int) := by
  have hsplit : (2 : ℚ) ^ (1024 : Int) = 2 ^ 54 * 2 ^ (970 : Int) := by
    rw [← zpow_natCast, ← zpow_add₀ two_ne_zero]
    rfl
  have hmantissa : ((2 ^ 54 - 1 : Nat) : ℚ) = 2 ^ 54 - 1 := by norm_num
  have hscale : ((2 ^ 970 : Nat) : ℚ) = 2 ^ (970 : Int) := by
    rw [Nat.cast_pow, Nat.cast_two, ← zpow_natCast]
    rfl
  rw [hsplit, overflow, Nat.cast_mul, hmantissa, hscale, sub_mul, one_mul]

theorem nearestWhole_shifted_le {n d k : Nat} (hd : d ≠ 0) {e : Int}
    (h : (n : ℚ) / d < (k + 1 / 2) * 2 ^ e) :
    nearestWhole (shifted n d e).1 (shifted n d e).2 ≤ k := by
  refine nearestWhole_le ?_
  have hcast := (shifted_lt_iff hd e _).2 h
  have htwice : (2 : ℚ) * (shifted n d e).1 < (2 * k + 1) * (shifted n d e).2 := by linarith
  exact_mod_cast htwice

theorem ratio_lt {n d : Nat} (hd : d ≠ 0) (h : n < overflow * d) :
    (n : ℚ) / d < 2 ^ (1024 : Int) - 2 ^ (970 : Int) := by
  have hpos : (0 : ℚ) < d := by exact_mod_cast Nat.pos_of_ne_zero hd
  rw [← overflow_eq, div_lt_iff₀ hpos]
  exact_mod_cast h

theorem lastExponent_bounds {n d : Nat} (hn : n ≠ 0) (hd : d ≠ 0) (h : n < overflow * d) :
    Binary.leastExponent ≤ double.lastExponent n d ∧ double.lastExponent n d ≤ 971 ∧
      (n : ℚ) / d < 2 ^ (double.lastExponent n d + 53) := by
  obtain ⟨e, hlast, hlt, hle⟩ := lastExponent_eq hn hd
  have he : e ≤ 971 := by
    by_contra hgt
    have hpow : (2 : ℚ) ^ (1024 : Int) ≤ 2 ^ (e + 52) := zpow_le_zpow_right₀ one_le_two (by omega)
    have hgap : (0 : ℚ) < 2 ^ (970 : Int) := zpow_pos two_pos _
    exact absurd (hpow.trans hle) (not_le.2 ((ratio_lt hd h).trans (sub_lt_self _ hgap)))
  have hexponent : e + 53 ≤ max Binary.leastExponent e + 53 :=
    Int.add_le_add_right (Int.le_max_right _ _) _
  rw [hlast]
  exact ⟨Int.le_max_left _ _, Int.max_le.2 ⟨by decide, he⟩,
    hlt.trans_le (zpow_le_zpow_right₀ one_le_two hexponent)⟩

/-- A fraction below the middle is not rounded up to the power of two: half a unit of the last digit
is not more than what it lacks. -/
theorem nearestWhole_lt {n d : Nat} (hd : d ≠ 0) (h : n < overflow * d) {e : Int} (he : e ≤ 971)
    {k : Nat} (hk : 1024 - e = k) :
    nearestWhole (shifted n d e).1 (shifted n d e).2 < 2 ^ k := by
  have hratio := ratio_lt hd h
  have hhalf : (2 : ℚ) ^ e ≤ 2 * 2 ^ (970 : Int) := by
    rw [← zpow_one_add₀ two_ne_zero]
    exact zpow_le_zpow_right₀ one_le_two (by omega)
  have hwhole : (2 : ℚ) ^ (1024 : Int) = 2 ^ k * 2 ^ e := by
    rw [← zpow_natCast, ← zpow_add₀ two_ne_zero]
    congr 1
    omega
  have hle : nearestWhole (shifted n d e).1 (shifted n d e).2 ≤ 2 ^ k - 1 := by
    refine nearestWhole_shifted_le hd ?_
    rw [Nat.cast_sub Nat.one_le_two_pow]
    push_cast
    linarith
  have hpos := Nat.two_pow_pos k
  omega

theorem round_lt {n d : Nat} (hn : n ≠ 0) (hd : d ≠ 0) (h : n < overflow * d) :
    (double.round n d).mantissa ≤ 2 ^ 53 ∧ Binary.leastExponent ≤ (double.round n d).exponent ∧
      (double.round n d).mantissa.log2 + (double.round n d).exponent < 1024 := by
  obtain ⟨hleast, he, hlt⟩ := lastExponent_bounds hn hd h
  refine ⟨nearestWhole_shifted_le hd (hlt.trans_le ?_), hleast, ?_⟩
  · have hunit : (0 : ℚ) < 2 ^ double.lastExponent n d := zpow_pos two_pos _
    rw [zpow_add₀ two_ne_zero]
    push_cast
    linarith
  · obtain ⟨k, hk⟩ := Int.eq_ofNat_of_zero_le (show 0 ≤ 1024 - double.lastExponent n d by omega)
    have hlog : (double.round n d).mantissa.log2 < k :=
      (log2_lt_iff (by omega)).2 (nearestWhole_lt hd h he hk)
    show ((double.round n d).mantissa.log2 : Int) + double.lastExponent n d < 1024
    omega

theorem isInf_ofRatio {n d : Nat} (hn : n ≠ 0) (hd : d ≠ 0) (h : n < overflow * d) :
    (double.ofRatio n d).isInf = false := by
  obtain ⟨hmantissa, hleast, hbound⟩ := round_lt hn hd h
  unfold ofRatio
  simp only
  rw [if_neg (by simpa [double] using hbound)]
  exact Binary.isInf_toFloat hmantissa hleast hbound

end FloatFormat

/-! ## Literals -/

/-- The digits of a literal denote a number that is rounded to a double. -/
def Text.InRange (w : Text) : Prop :=
  let places := (w.dropWhile Decimal.isDigit).drop 1
  Decimal.digitsValue (w.takeWhile Decimal.isDigit ++ places) <
    FloatFormat.overflow * 10 ^ places.length

instance (w : Text) : Decidable w.InRange := inferInstanceAs (Decidable (_ < _))

theorem Decimal.ofLiteral?_of_inRange {w : Text} (h : w.InRange) :
    ofLiteral? w = some (literalValue w) := by
  have hfinite : (literalValue w).isInf = false := by
    unfold literalValue FloatFormat.nearest
    simp only
    split_ifs with hzero hfar
    · decide
    · unfold FloatFormat.far at hfar
      omega
    · have hne := (not_or.1 hzero).1
      have hexponent : (-(((w.dropWhile isDigit).drop 1).length : Int)).toNat = 0 := by omega
      rw [hexponent, Int.neg_neg, Int.toNat_natCast]
      have hwhole : ∀ n : Nat, n * Nat.pow 10 0 = n := Nat.mul_one
      rw [hwhole]
      exact FloatFormat.isInf_ofRatio hne (Nat.pos_iff_ne_zero.1 (Nat.pow_pos (by decide))) h
  simp [ofLiteral?, hfinite]

end Mycel
