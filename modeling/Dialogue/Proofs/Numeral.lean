import Mathlib
import Dialogue.Value

/-!
# Written numbers read back

The shortest numeral of a finite double is rounded to that very double. Either the
search has hit a numeral that reads back, or all digits of the double are written,
and an exact value is rounded to itself (`nearestBits_of_exact`): its binary
exponent is the one it was made with.
-/

namespace Dialogue

namespace Decimal

theorem eq_of_zpow_bounds {f g : Int} {x : ℚ} (hf : (2 : ℚ) ^ f ≤ x) (hf' : x < 2 ^ (f + 1))
    (hg : (2 : ℚ) ^ g ≤ x) (hg' : x < 2 ^ (g + 1)) : f = g := by
  have h2 : (1 : ℚ) < 2 := by norm_num
  have h1 : f < g + 1 := (zpow_lt_zpow_iff_right₀ h2).1 (lt_of_le_of_lt hf hg')
  have h3 : g < f + 1 := (zpow_lt_zpow_iff_right₀ h2).1 (lt_of_le_of_lt hg hf')
  omega

def quotientExponent (num den : Nat) : Int :=
  if belowLeadingPower num den then (num.log2 : Int) - den.log2 - 1
  else (num.log2 : Int) - den.log2

theorem roundingExponent_eq (num den : Nat) :
    roundingExponent num den = (quotientExponent num den + 1022).toNat := by
  unfold roundingExponent quotientExponent
  split <;> omega

theorem log2_bounds (n : Nat) (h : n ≠ 0) :
    (2 : ℚ) ^ (n.log2 : Int) ≤ n ∧ (n : ℚ) < 2 ^ ((n.log2 : Int) + 1) := by
  have hl : 2 ^ n.log2 ≤ n := Nat.log2_self_le h
  have hr : n < 2 ^ (n.log2 + 1) := Nat.lt_log2_self
  constructor
  · rw [zpow_natCast]
    exact_mod_cast hl
  · have hc : (n.log2 : Int) + 1 = ((n.log2 + 1 : Nat) : Int) := by simp
    rw [hc, zpow_natCast]
    exact_mod_cast hr

theorem zpow_sub_toNat (a b : Nat) :
    (2 : ℚ) ^ (a - b) = 2 ^ ((a : Int) - b) * 2 ^ (b - a) := by
  rw [← zpow_natCast, ← zpow_natCast, ← zpow_add₀ (by norm_num)]
  congr 1
  omega

theorem belowLeadingPower_iff (num den : Nat) (hd : den ≠ 0) :
    belowLeadingPower num den = true ↔
      (num : ℚ) / den < 2 ^ ((num.log2 : Int) - den.log2) := by
  have hpos : (0 : ℚ) < den := by exact_mod_cast Nat.pos_of_ne_zero hd
  have hp : (0 : ℚ) < 2 ^ (den.log2 - num.log2) := by positivity
  have hz := zpow_sub_toNat num.log2 den.log2
  have hc : belowLeadingPower num den = true ↔
      (num : ℚ) * 2 ^ (den.log2 - num.log2) < den * 2 ^ (num.log2 - den.log2) := by
    unfold belowLeadingPower twoPow
    rw [decide_eq_true_iff]
    norm_cast
  rw [hc, hz, div_lt_iff₀ hpos]
  constructor
  · intro h
    have h' : (num : ℚ) * 2 ^ (den.log2 - num.log2) <
        2 ^ ((num.log2 : Int) - den.log2) * den * 2 ^ (den.log2 - num.log2) := by linarith
    exact lt_of_mul_lt_mul_right h' hp.le
  · intro h
    have h' := mul_lt_mul_of_pos_right h hp
    linarith

theorem quotientExponent_bounds (num den : Nat) (hn : num ≠ 0) (hd : den ≠ 0) :
    (2 : ℚ) ^ quotientExponent num den ≤ (num : ℚ) / den ∧
      (num : ℚ) / den < 2 ^ (quotientExponent num den + 1) := by
  have hpos : (0 : ℚ) < den := by exact_mod_cast Nat.pos_of_ne_zero hd
  obtain ⟨hnl, hnr⟩ := log2_bounds num hn
  obtain ⟨hdl, hdr⟩ := log2_bounds den hd
  have h2 : (2 : ℚ) ≠ 0 := by norm_num
  have hbelow := belowLeadingPower_iff num den hd
  unfold quotientExponent
  split
  · rename_i hb
    constructor
    · rw [le_div_iff₀ hpos]
      calc (2 : ℚ) ^ ((num.log2 : Int) - den.log2 - 1) * den
          ≤ 2 ^ ((num.log2 : Int) - den.log2 - 1) * 2 ^ ((den.log2 : Int) + 1) := by
            exact mul_le_mul_of_nonneg_left hdr.le (by positivity)
        _ = 2 ^ (num.log2 : Int) := by
            rw [← zpow_add₀ h2]
            congr 1
            omega
        _ ≤ num := hnl
    · have h := hbelow.1 hb
      rwa [sub_add_cancel]
  · rename_i hb
    constructor
    · exact not_lt.1 fun h => hb (hbelow.2 h)
    · rw [div_lt_iff₀ hpos]
      calc (num : ℚ) < 2 ^ ((num.log2 : Int) + 1) := hnr
        _ = 2 ^ ((num.log2 : Int) - den.log2 + 1) * 2 ^ (den.log2 : Int) := by
            rw [← zpow_add₀ h2]
            congr 1
            omega
        _ ≤ 2 ^ ((num.log2 : Int) - den.log2 + 1) * den := by
            exact mul_le_mul_of_nonneg_left hdl (by positivity)

/-! ### Exact values -/

theorem significand_bounds (bits : Nat) (h : patternsPerExponent ≤ bits) :
    2 ^ 52 ≤ significand bits ∧ significand bits < 2 ^ 53 := by
  have hp : patternsPerExponent = 2 ^ 52 := rfl
  rw [hp] at h
  unfold significand
  rw [hp, if_neg (by omega)]
  omega

theorem quotient_of_exact (num den bits : Nat) (hd : den ≠ 0)
    (hx : num * exactDen bits = exactNum bits * den) :
    (num : ℚ) / den = significand bits * 2 ^ ((exponent bits : Int) - 1074) := by
  have hpos : (den : ℚ) ≠ 0 := by exact_mod_cast hd
  have hp : (2 : ℚ) ^ (1074 - exponent bits) ≠ 0 := by positivity
  have hz := zpow_sub_toNat (exponent bits) 1074
  have hq : (num : ℚ) * 2 ^ (1074 - exponent bits) =
      significand bits * 2 ^ (exponent bits - 1074) * den := by
    unfold exactDen exactNum twoPow at hx
    exact_mod_cast hx
  rw [hz] at hq
  rw [div_eq_iff hpos]
  apply mul_right_cancel₀ hp
  rw [hq]
  push_cast
  ring

theorem roundingExponent_of_exact (num den bits : Nat) (hn : num ≠ 0) (hd : den ≠ 0)
    (hx : num * exactDen bits = exactNum bits * den) :
    roundingExponent num den = exponent bits := by
  have hq := quotient_of_exact num den bits hd hx
  obtain ⟨hl, hr⟩ := quotientExponent_bounds num den hn hd
  have h2 : (2 : ℚ) ≠ 0 := by norm_num
  have hp : (0 : ℚ) < 2 ^ ((exponent bits : Int) - 1074) := by positivity
  rw [roundingExponent_eq]
  by_cases hb : patternsPerExponent ≤ bits
  · -- A significand of 53 bits fixes the exponent of the quotient.
    obtain ⟨hsl, hsr⟩ := significand_bounds bits hb
    have hsl' : (2 : ℚ) ^ (52 : Int) ≤ significand bits := by exact_mod_cast hsl
    have hsr' : (significand bits : ℚ) < 2 ^ (53 : Int) := by exact_mod_cast hsr
    have he : quotientExponent num den = 52 + ((exponent bits : Int) - 1074) := by
      refine eq_of_zpow_bounds hl hr ?_ ?_
      · rw [hq, zpow_add₀ h2]
        exact mul_le_mul_of_nonneg_right hsl' hp.le
      · rw [hq, show 52 + ((exponent bits : Int) - 1074) + 1 = 53 + ((exponent bits : Int) - 1074)
          by omega, zpow_add₀ h2]
        exact mul_lt_mul_of_pos_right hsr' hp
    rw [he]
    omega
  · -- A smaller one stands below all numbers of the next exponent.
    have hlt : bits < patternsPerExponent := Nat.lt_of_not_le hb
    have he : exponent bits = 0 := by
      unfold exponent
      rw [Nat.div_eq_of_lt hlt]
    have hs : (significand bits : ℚ) < 2 ^ (52 : Int) := by
      have hs' : significand bits < 2 ^ 52 := by
        unfold significand
        rw [if_pos hlt]
        exact hlt
      exact_mod_cast hs'
    have hx' : (num : ℚ) / den < 2 ^ (-1022 : Int) := by
      rw [hq, he, show (-1022 : Int) = 52 + (((0 : Nat) : Int) - 1074) by norm_num, zpow_add₀ h2]
      refine mul_lt_mul_of_pos_right hs (by positivity)
    have hf := (zpow_lt_zpow_iff_right₀ (by norm_num : (1 : ℚ) < 2)).1 (lt_of_le_of_lt hl hx')
    rw [he]
    omega

theorem nearestBits_of_exact (num den bits : Nat) (hd : den ≠ 0) (hb : bits < infinityBits)
    (hx : num * exactDen bits = exactNum bits * den) : nearestBits num den = bits := by
  have hpat := pattern_significand_exponent bits
  unfold nearestBits
  simp only
  split
  · rename_i hn
    rw [hn, Nat.zero_mul, eq_comm, Nat.mul_eq_zero] at hx
    have hz : exactNum bits = 0 := hx.resolve_right hd
    have hs : significand bits = 0 := by
      unfold exactNum at hz
      exact (Nat.mul_eq_zero.1 hz).resolve_right (Nat.ne_of_gt (Nat.two_pow_pos _))
    unfold significand at hs
    have hp : patternsPerExponent = 2 ^ 52 := rfl
    split at hs <;> omega
  · rename_i hn
    have he := roundingExponent_of_exact num den bits hn hd hx
    have hpos : 0 < den * twoPow (exponent bits - 1074) :=
      Nat.mul_pos (Nat.pos_of_ne_zero hd) (Nat.two_pow_pos _)
    have hr : num * twoPow (1074 - exponent bits) =
        significand bits * (den * twoPow (exponent bits - 1074)) := by
      unfold exactDen exactNum at hx
      rw [hx, Nat.mul_assoc, Nat.mul_comm (twoPow _) den]
    rw [he, hr, roundEven_mul _ _ hpos, hpat]
    exact Nat.min_eq_right hb.le

theorem readsBack_exact (bits : Nat) (h : bits < infinityBits) :
    readsBack bits (exact bits) = true := by
  have hdvd : exactDen bits ∣ tenPow (1074 - exponent bits) := by
    unfold exactDen twoPow tenPow
    exact pow_dvd_pow_of_dvd (by decide : 2 ∣ 10) _
  have hten : tenPow (1074 - exponent bits) ≠ 0 := Nat.ne_of_gt (Nat.pow_pos (by decide))
  unfold readsBack
  rw [decide_eq_true_iff]
  refine nearestBits_of_exact _ _ _ hten h ?_
  exact Nat.div_mul_cancel (Dvd.dvd.mul_left hdvd _)

theorem nearestBits_shortest (bits : Nat) (h : bits < infinityBits) :
    nearestBits (shortest bits).coefficient (tenPow (shortest bits).scale) = bits := by
  unfold shortest
  simp only
  split
  · rename_i hz
    rw [hz]
    rfl
  · cases hs : searchGrids bits (exactNum bits) (exactDen bits)
        ((Nat.toDigits 10 (exactNum bits / exactDen bits)).length + 1075)
        ((Nat.toDigits 10 (exactNum bits / exactDen bits)).length : Nat) with
    | some d =>
      have hr := readsBack_of_searchGrids _ _ _ _ _ _ hs
      simpa [readsBack] using hr
    | none =>
      have hr := readsBack_exact bits h
      simpa [readsBack] using hr

open Float.Model Float.Model.UnpackedFloat

theorem toBitVec_ofBitVec (s : BitVec 1) : (Sign.ofBitVec s).toBitVec = s := by
  revert s
  decide

theorem packComponents_unpack (b : BitVec 64) :
    packComponents .binary64 (Sign.ofBitVec (@unpackSign .binary64 b))
      (@unpackExponent .binary64 b) (@unpackMantissa .binary64 b) = b := by
  unfold packComponents
  rw [toBitVec_ofBitVec]
  ext i hi
  change i < 64 at hi
  have hb : b.getLsbD i = b[i] := BitVec.getLsbD_eq_getElem hi
  simp only [unpackSign, unpackExponent, unpackMantissa, BitVec.extractLsb,
    BitVec.getElem_append, BitVec.getElem_cast, BitVec.getElem_extractLsb']
  show (if i < 52 then b.getLsbD (0 + i) else
    if i - 52 < 11 then b.getLsbD (52 + (i - 52)) else b.getLsbD (52 + 11 + (i - 52 - 11))) = _
  rw [← hb]
  split
  · rw [Nat.zero_add]
  · split <;> (congr 1; omega)

theorem pack_subnormal (s : Sign) (m : BitVec 52) (hm : 0 < m.toNat) :
    UnpackedFloat.pack .binary64 (.finite s m.toNat (-1074) hm) =
      packComponents .binary64 s 0#11 m := by
  have hl : m.toNat.log2 < 52 := (Nat.log2_lt (by omega)).2 m.isLt
  have hb : (-1074 + (Format.binary64.exponentBias : Int) + (52 : Nat)).toNat = 1 := by decide
  have hn : ¬m.toNat.log2 + 1 = Format.binary64.mantissaBits := by
    show ¬m.toNat.log2 + 1 = 53
    omega
  simp only [UnpackedFloat.pack]
  rw [hb, if_neg (by decide), if_neg hn, BitVec.ofNat_toNat]
  simp

theorem toNat_one_append (m : BitVec 52) : (1#1 ++ m).toNat = 2 ^ 52 + m.toNat := by
  rw [BitVec.toNat_append, ← Nat.shiftLeft_add_eq_or_of_lt m.isLt]
  rfl

theorem pack_normal (s : Sign) (e : BitVec 11) (m : BitVec 52) (he : e ≠ -1#11)
    (hm : 0 < (1#1 ++ m).toNat) :
    UnpackedFloat.pack .binary64 (.finite s (1#1 ++ m).toNat ((e.toNat : Int) - 1075) hm) =
      packComponents .binary64 s e m := by
  have hlt := e.isLt
  have hmax : e.toNat ≠ 2047 := by
    intro h
    apply he
    apply BitVec.eq_of_toNat_eq
    rw [h]
    rfl
  have hv := toNat_one_append m
  have hl : (1#1 ++ m).toNat.log2 = 52 := by
    have hs := m.isLt
    rw [hv, Nat.log2_eq_iff (by omega)]
    omega
  have hb : ((e.toNat : Int) - 1075 + (Format.binary64.exponentBias : Int) + (52 : Nat)).toNat =
      e.toNat := by
    have : Format.binary64.exponentBias = 1023 := by decide
    rw [this]
    omega
  simp only [UnpackedFloat.pack]
  rw [hb, if_neg (by omega), hl, if_pos (by decide)]
  have hes : BitVec.ofNat 11 e.toNat = e := by simp
  have hms : BitVec.ofNat 52 (1#1 ++ m).toNat = m := by
    have hs := m.isLt
    apply BitVec.eq_of_toNat_eq
    rw [hv, BitVec.toNat_ofNat]
    omega
  rw [hes, hms]

theorem pack_unpack (b : BitVec 64)
    (h : @unpackExponent .binary64 b = -1#11 → @unpackMantissa .binary64 b = 0#52) :
    UnpackedFloat.pack .binary64 (UnpackedFloat.unpack .binary64 b) = b := by
  have hc := packComponents_unpack b
  unfold UnpackedFloat.unpack
  simp only
  split
  · rename_i he
    rw [if_pos (h he)]
    rw [he, h he] at hc
    exact hc
  · rename_i he
    split
    · rename_i hz
      split
      · rename_i hm
        rw [hz, hm] at hc
        exact hc
      · rename_i hm
        rw [hz] at hc
        have hp : 0 < (@unpackMantissa .binary64 b).toNat := by
          simpa [BitVec.toNat_pos, BitVec.pos_iff_ne_zero] using hm
        have hs := pack_subnormal (Sign.ofBitVec (@unpackSign .binary64 b)) _ hp
        rw [hc] at hs
        convert hs using 3
        rw [hz]
        rfl
    · have hn := pack_normal (Sign.ofBitVec (@unpackSign .binary64 b))
        (@unpackExponent .binary64 b) (@unpackMantissa .binary64 b) he
        (by rw [toNat_one_append]; omega)
      rw [hc] at hn
      exact hn

theorem toNat_unpackExponent (b : BitVec 64) :
    (@unpackExponent .binary64 b).toNat = b.toNat / 2 ^ 52 % 2 ^ 11 := by
  simp [unpackExponent, Nat.shiftRight_eq_div_pow]

theorem toNat_unpackMantissa (b : BitVec 64) :
    (@unpackMantissa .binary64 b).toNat = b.toNat % 2 ^ 52 := by
  simp [unpackMantissa]

theorem ofBits_toBits (x : Float) : Float.ofBits x.toBits = x := by
  obtain ⟨⟨bits, valid⟩⟩ := x
  have hp : UnpackedFloat.pack .binary64 (UnpackedFloat.unpack .binary64 bits.toBitVec) =
      bits.toBitVec := by
    by_cases h : @unpackExponent .binary64 bits.toBitVec = -1#11 ∧
        @unpackMantissa .binary64 bits.toBitVec ≠ 0#52
    · rw [valid.eq_packedNaN h.1 h.2]
      decide
    · exact pack_unpack _ fun he => by_contra fun hm => h ⟨he, hm⟩
  simp only [Float.ofBits, Float.toBits, Float.Model.ofBits, Float.Model.pack, hp]

theorem toBits_ofBits (bits : Nat) (h : bits ≤ infinityBits) :
    (Float.ofBits bits.toUInt64).toBits.toNat = bits := by
  have hi : infinityBits = 0x7FF0000000000000 := rfl
  have hn : bits.toUInt64.toBitVec.toNat = bits := by
    show bits % 2 ^ 64 = bits
    omega
  have hp : UnpackedFloat.pack .binary64 (UnpackedFloat.unpack .binary64 bits.toUInt64.toBitVec) =
      bits.toUInt64.toBitVec := by
    refine pack_unpack _ fun he => ?_
    have he' := congrArg BitVec.toNat he
    rw [toNat_unpackExponent, hn] at he'
    apply BitVec.eq_of_toNat_eq
    rw [toNat_unpackMantissa, hn]
    have h1 : (-1#11).toNat = 2047 := rfl
    rw [h1] at he'
    show bits % 2 ^ 52 = 0
    omega
  simp only [Float.ofBits, Float.toBits, Float.Model.ofBits, Float.Model.pack, hp]
  exact hn

/-- A double that is not a NaN and whose sign is positive. -/
def isUnsigned (x : Float) : Bool := x.toBits.toNat ≤ infinityBits

def isFinite (x : Float) : Bool := x.toBits.toNat % signBit < infinityBits

theorem mod_signBit_of_isUnsigned (x : Float) (h : isUnsigned x = true) :
    x.toBits.toNat % signBit = x.toBits.toNat := by
  have hb : x.toBits.toNat ≤ infinityBits := by simpa [isUnsigned] using h
  have hi : infinityBits < signBit := by decide
  exact Nat.mod_eq_of_lt (by omega)

theorem floatChars_of_isUnsigned (x : Float) (h : isUnsigned x = true) :
    floatChars x = if isFinite x then (shortest x.toBits.toNat).chars else "inf".toList := by
  have hb : x.toBits.toNat ≤ infinityBits := by simpa [isUnsigned] using h
  have hi : infinityBits < signBit := by decide
  have hm := mod_signBit_of_isUnsigned x h
  have hn : ¬infinityBits < x.toBits.toNat := by omega
  have hp : x.toBits.toNat < signBit := by omega
  simp only [floatChars, isFinite, hm, if_neg hn, if_pos hp]
  by_cases he : x.toBits.toNat = infinityBits
  · rw [if_pos he, he]
    rfl
  · have hlt : x.toBits.toNat < infinityBits := by omega
    rw [if_neg he, if_pos (by simpa using hlt)]

theorem toFloat_shortest (x : Float) (h : isUnsigned x = true) (hf : isFinite x = true) :
    (shortest x.toBits.toNat).toFloat = x := by
  have hb : x.toBits.toNat < infinityBits := by
    rw [isFinite, mod_signBit_of_isUnsigned x h] at hf
    simpa using hf
  unfold toFloat
  rw [nearestBits_shortest _ hb]
  have hu : x.toBits.toNat.toUInt64 = x.toBits := by simp
  rw [hu, ofBits_toBits]

theorem isUnsigned_toFloat (d : Decimal) : isUnsigned d.toFloat = true := by
  have hle : nearestBits d.coefficient (tenPow d.scale) ≤ infinityBits := by
    unfold nearestBits
    simp only
    split
    · exact Nat.zero_le _
    · exact Nat.min_le_left _ _
  unfold isUnsigned toFloat
  rw [toBits_ofBits _ hle]
  exact decide_eq_true hle

end Decimal

end Dialogue
