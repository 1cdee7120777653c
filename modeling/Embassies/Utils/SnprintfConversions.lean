import Embassies.Lib.Numeral
import Embassies.Utils.CheesySnprintf

/-! What the conversions of `cheesy_snprintf` print, and when a conversion overruns its buffer.

    Eight hexadecimal digits and a NUL fit the ten bytes of `hexbuf`, ten decimal digits and a NUL do not. -/

namespace Embassies.Utils

open Checked List Nat

variable {val : ℕ} {m : ℤ}

lemma nybbleToHex_eq (n : ℕ) : nybbleToHex n = digitChar n := by
  unfold nybbleToHex digitChar
  congr 1
  split <;> split <;> omega

lemma nybble_eq (val d : ℕ) : (val >>> (d * 4)) &&& 0x0f = val / 16 ^ d % 16 := by
  rw [shiftRight_eq_div_pow, show (0x0f : ℕ) = 2 ^ 4 - 1 from rfl, and_two_pow_sub_one_eq_mod, mul_comm d 4, pow_mul]
  norm_num

lemma hexstrLoop_begun (val : ℕ) (m : ℤ) : ∀ (d : ℕ) (buf : Bytes) (oi : ℕ), oi + d ≤ buf.length →
    hexstrLoop val m d true buf oi = .ok (splice buf oi (fixedDigits 16 d val), oi + d)
  | 0, buf, oi, _ => by simp [hexstrLoop, fixedDigits]
  | d + 1, buf, oi, h => by
    have hone : oi + [digitChar (val / 16 ^ d % 16)].length ≤ buf.length := by
      rw [length_singleton]
      omega
    have hrest := hexstrLoop_begun val m d (splice buf oi [digitChar (val / 16 ^ d % 16)]) (oi + 1)
      (by rw [length_splice hone]; omega)
    have hjoin := splice_splice (fixedDigits 16 d val) hone
    rw [length_singleton] at hjoin
    simp only [hexstrLoop, true_or, if_true, nybble_eq, nybbleToHex_eq]
    rw [writeAt_of_fits hone, ok_bind, hrest, hjoin, add_assoc, add_comm 1 d, fixedDigits,
      singleton_append]

/-- HEXADECIMAL: the digits of the number, and zeros in front of them up to the least number of digits. -/
lemma hexstrLoop_eq (hm : 1 ≤ m) : ∀ (d : ℕ) (buf : Bytes), 0 < d → d ≤ buf.length → val < 16 ^ d →
    hexstrLoop val m d false buf 0 =
      .ok (splice buf 0 (fixedDigits 16 (max (min m.toNat d) (numDigits 16 val)) val),
        max (min m.toNat d) (numDigits 16 val))
  | d + 1, buf, _, hlen, hval => by
    have hle : numDigits 16 val ≤ d + 1 := (numDigits_le_iff (by norm_num) (Nat.succ_pos d)).mpr hval
    have hnybble : val / 16 ^ d % 16 = val / 16 ^ d := Nat.mod_eq_of_lt (by
      rw [Nat.div_lt_iff_lt_mul (by positivity), ← pow_succ']
      exact hval)
    by_cases hprint : 0 < val / 16 ^ d ∨ (d : ℤ) < m
    · -- the first digit that is printed: from here on it is all of them
      have hmax : max (min m.toNat (d + 1)) (numDigits 16 val) = d + 1 := by
        rcases hprint with hpos | hm'
        · have hlarge : ¬val < 16 ^ d := fun hlt => absurd hpos (by rw [Nat.div_eq_of_lt hlt]; exact Nat.lt_irrefl 0)
          rcases Nat.eq_zero_or_pos d with rfl | hd
          · unfold numDigits at hle ⊢
            omega
          · have := mt (numDigits_le_iff (by norm_num) hd).mp hlarge
            omega
        · omega
      have hbegun := hexstrLoop_begun val m (d + 1) buf 0 (by omega)
      simp only [hexstrLoop, true_or, if_true, nybble_eq, hnybble] at hbegun ⊢
      rw [if_pos (.inr hprint), hbegun, hmax, Nat.zero_add]
    · have hsmall : val < 16 ^ d := by
        by_contra hlarge
        exact hprint (.inl (Nat.div_pos (Nat.not_lt.mp hlarge) (by positivity)))
      have hd : 0 < d := by omega
      have ih := hexstrLoop_eq hm d buf hd (by omega) hsmall
      have hmin : min m.toNat (d + 1) = min m.toNat d := by omega
      simp only [hexstrLoop, nybble_eq, hnybble]
      rw [if_neg (by simpa using hprint), ih, hmin]

lemma zero_notMem_fixedDigits {b : ℕ} (hb : 1 < b) (hb' : b ≤ 16) (k v : ℕ) : 0 ∉ fixedDigits b k v := by
  intro hmem
  obtain ⟨d, hd, heq⟩ := mem_fixedDigits hb hmem
  have hne : ∀ d < 16, (0 : UInt8) ≠ digitChar d := by decide
  exact hne d (by omega) heq

lemma cstringAt_splice {buf t : Bytes} (ht : 0 ∉ t) : cstringAt (splice buf 0 (t ++ [0])) 0 = t := by
  rw [splice_zero, append_assoc]
  exact cstringAt_middle (a := []) rfl ht

lemma writeAt_nul {b k : ℕ} (hk : k ≤ 9) (v : ℕ) : writeAt (splice hexbuf 0 (fixedDigits b k v)) k [0] =
    .ok (splice hexbuf 0 (fixedDigits b k v ++ [0])) := by
  have hfits : 0 + (fixedDigits b k v).length ≤ hexbuf.length := by
    rw [length_fixedDigits, hexbuf, length_replicate]
    omega
  have hnul := splice_splice [0] hfits
  rw [zero_add, length_fixedDigits] at hnul
  rw [writeAt_of_fits, hnul]
  rw [length_splice hfits, hexbuf, length_replicate, length_singleton]
  omega

lemma hexstrMin_eq (hm : 1 ≤ m) (hval : val < 2 ^ 32) : ∃ buf, hexstrMin hexbuf val m = .ok buf ∧
    cstringAt buf 0 = padLeft (chr '0') (min m.toNat 8) (numeral 16 val) := by
  have hval' : val < 16 ^ 8 := by omega
  have hle : numDigits 16 val ≤ 8 := (numDigits_le_iff (by norm_num) (by norm_num)).mpr hval'
  have hloop := hexstrLoop_eq hm 8 hexbuf (by norm_num) (by decide) hval'
  refine ⟨splice hexbuf 0 (fixedDigits 16 (max (min m.toNat 8) (numDigits 16 val)) val ++ [0]), ?_, ?_⟩
  · rw [hexstrMin, hloop, ok_bind]
    exact writeAt_nul (by omega) val
  · rw [cstringAt_splice (zero_notMem_fixedDigits (by norm_num) (le_refl _) _ _),
      show chr '0' = digitChar 0 from rfl, padLeft_numeral (by norm_num)]

lemma utoaCount_eq : ∀ (rounds val : ℕ), val ≤ rounds → utoaCount rounds val = (digits 10 val).length
  | 0, val, h => by
    obtain rfl : val = 0 := by omega
    rfl
  | rounds + 1, val, h => by
    rw [utoaCount]
    split
    case isTrue hpos =>
      rw [utoaCount_eq rounds (val / 10) (by omega), digits_def' (by norm_num) hpos, length_cons]
    case isFalse hzero =>
      obtain rfl : val = 0 := by omega
      rfl

/-- DECIMAL: the loop writes the digits from the last to the first. -/
lemma utoaLoop_eq (total : ℕ) : ∀ (rounds val digits : ℕ) (out : Bytes), val ≤ rounds →
    digits + (Nat.digits 10 val).length = total → total ≤ out.length →
    utoaLoop total rounds val digits out = .ok (splice out 0 (fixedDigits 10 (Nat.digits 10 val).length val))
  | 0, val, digits, out, hrounds, _, _ => by
    obtain rfl : val = 0 := by omega
    simp [utoaLoop, fixedDigits]
  | rounds + 1, val, digits, out, hrounds, htotal, hfits => by
    rw [utoaLoop]
    split
    case isTrue hpos =>
      rw [Nat.digits_def' (by norm_num) hpos, length_cons] at htotal ⊢
      have hplace : total - digits - 1 = (Nat.digits 10 (val / 10)).length := by omega
      have hchar : UInt8.ofNat (48 + val % 10) = digitChar (val % 10) := by
        rw [digitChar, if_pos (Nat.mod_lt _ (by norm_num))]
      have hone : (Nat.digits 10 (val / 10)).length + [digitChar (val % 10)].length ≤ out.length := by
        rw [length_singleton]
        omega
      have hrest := utoaLoop_eq total rounds (val / 10) (digits + 1)
        (splice out (Nat.digits 10 (val / 10)).length [digitChar (val % 10)]) (by omega) (by omega)
        (by rw [length_splice hone]; omega)
      have hboth : 0 + (fixedDigits 10 (Nat.digits 10 (val / 10)).length (val / 10)).length +
          [digitChar (val % 10)].length ≤ out.length := by
        rw [length_fixedDigits]
        omega
      have hjoin := splice_splice_before hboth
      rw [length_fixedDigits, Nat.zero_add] at hjoin
      rw [hplace, hchar, writeAt_of_fits hone, ok_bind, hrest, hjoin, fixedDigits_succ]
    case isFalse hzero =>
      obtain rfl : val = 0 := by omega
      simp [fixedDigits]

lemma utoa_eq (hval : val < 10 ^ 9) : ∃ buf, utoa hexbuf val = .ok buf ∧ cstringAt buf 0 = numeral 10 val := by
  unfold utoa
  split
  case isTrue hzero => exact ⟨[48, 0, 0, 0, 0, 0, 0, 0, 0, 0], by decide, by rw [hzero]; decide⟩
  case isFalse hpos =>
    have hlen : (digits 10 val).length ≤ 9 := (digits_length_le_iff (by norm_num) _).mpr hval
    refine ⟨splice hexbuf 0 (fixedDigits 10 (digits 10 val).length val ++ [0]), ?_, ?_⟩
    · dsimp only
      rw [utoaCount_eq val val (le_refl _), utoaLoop_eq _ val val 0 hexbuf (le_refl _) (zero_add _)
        (by rw [hexbuf, length_replicate]; omega), ok_bind, writeAt_nul hlen]
    · rw [cstringAt_splice (zero_notMem_fixedDigits (by norm_num) (by norm_num) _ _), numeral, if_neg hpos,
        map_digits_reverse (by norm_num)]

/-- OVERRUN: the NUL after ten digits is written behind the buffer. -/
lemma utoa_overrun (hlo : 10 ^ 9 ≤ val) (hhi : val < 2 ^ 32) : utoa hexbuf val = .error .outOfRange := by
  have hle : (Nat.digits 10 val).length ≤ 10 := (Nat.digits_length_le_iff (by norm_num) _).mpr (by omega)
  have hgt : 9 < (Nat.digits 10 val).length := (Nat.lt_digits_length_iff (by norm_num) _).mpr hlo
  have hlen : (Nat.digits 10 val).length = 10 := by omega
  have hfits : 0 + (fixedDigits 10 10 val).length ≤ hexbuf.length := by
    rw [length_fixedDigits]
    decide
  rw [utoa, if_neg (by omega)]
  simp only
  rw [utoaCount_eq val val (Nat.le_refl _), utoaLoop_eq _ val val 0 hexbuf (Nat.le_refl _) (Nat.zero_add _)
    (by rw [hlen]; decide), ok_bind, hlen, writeAt, if_neg]
  rw [length_splice hfits]
  decide

end Embassies.Utils
