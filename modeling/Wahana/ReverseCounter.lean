import Mathlib.Data.Nat.Bitwise

/-!
# Counting in reversed bits

A counter that is reversed, incremented and reversed again counts from its
highest bit down. `rank v` is the position of `v` in that order. All numbers
with the same low `n` bits have ranks in one block of `2 ^ (w - n)`
(`mod_eq_iff_rank_div`), and `advance` under a mask of `n` bits goes to the
start of the next block (`rank_advance`), whatever masks were used before.
So the numbers that an `advance` passes over agree in their low bits with
where it started (`mod_eq_of_passed`), and no masks, in whatever order, make
a counter go back (`rank_lt_advance`).
-/

namespace Wahana

namespace ReverseCounter

variable {w n : Nat} {v u m : BitVec w}

def rank (v : BitVec w) : Nat := v.reverse.toNat

def advance (m v : BitVec w) : BitVec w := ((v ||| ~~~m).reverse + 1#w).reverse

theorem testBit_rank (v : BitVec w) (i : Nat) :
    (rank v).testBit i = (decide (i < w) && v.getLsbD (w - 1 - i)) := by
  rw [rank, BitVec.testBit_toNat, BitVec.getLsbD_reverse, BitVec.getMsbD_eq_getLsbD]

theorem rank_lt (v : BitVec w) : rank v < 2 ^ w := v.reverse.isLt

theorem rank_zero : rank (0#w) = 0 := by
  apply Nat.eq_of_testBit_eq
  intro i
  simp [testBit_rank]

theorem eq_zero_of_rank (h : rank v = 0) : v = 0#w := by
  have hrev : v.reverse = 0#w := BitVec.eq_of_toNat_eq (by simpa [rank] using h)
  have hzero : (0#w).reverse = 0#w := BitVec.eq_of_toNat_eq (by simpa [rank] using rank_zero (w := w))
  rw [← BitVec.reverse_reverse_eq (x := v), hrev, hzero]

/-- The low bits of a number are the high bits of its rank. -/
theorem mod_eq_iff_rank_div (hn : n ≤ w) :
    v.toNat % 2 ^ n = u.toNat % 2 ^ n ↔ rank v / 2 ^ (w - n) = rank u / 2 ^ (w - n) := by
  constructor
  · intro h
    apply Nat.eq_of_testBit_eq
    intro i
    rw [Nat.testBit_div_two_pow, Nat.testBit_div_two_pow, testBit_rank, testBit_rank]
    by_cases hi : i + (w - n) < w
    · have hbit := congrArg (fun x => x.testBit (w - 1 - (i + (w - n)))) h
      simp only [Nat.testBit_mod_two_pow, BitVec.testBit_toNat] at hbit
      have hlt : w - 1 - (i + (w - n)) < n := by omega
      simpa [hi, hlt] using hbit
    · simp [hi]
  · intro h
    apply Nat.eq_of_testBit_eq
    intro i
    rw [Nat.testBit_mod_two_pow, Nat.testBit_mod_two_pow]
    by_cases hi : i < n
    · have hbit := congrArg (fun x => x.testBit (n - 1 - i)) h
      simp only [Nat.testBit_div_two_pow, testBit_rank] at hbit
      have hlt : n - 1 - i + (w - n) < w := by omega
      have hidx : w - 1 - (n - 1 - i + (w - n)) = i := by omega
      simpa [hi, hlt, hidx, BitVec.testBit_toNat] using hbit
    · simp [hi]

theorem getLsbD_mask (hm : m.toNat = 2 ^ n - 1) (i : Nat) : m.getLsbD i = decide (i < n) := by
  rw [← BitVec.testBit_toNat, hm, Nat.testBit_two_pow_sub_one]

theorem rank_or_not (hn : n ≤ w) (hm : m.toNat = 2 ^ n - 1) :
    rank (v ||| ~~~m) = 2 ^ (w - n) * (rank v / 2 ^ (w - n)) + (2 ^ (w - n) - 1) := by
  have hpos := Nat.two_pow_pos (w - n)
  apply Nat.eq_of_testBit_eq
  intro i
  rw [Nat.testBit_two_pow_mul_add _ (by omega), testBit_rank]
  split
  · rename_i hi
    have hw : i < w := by omega
    have hj : ¬ (w - 1 - i < n) := by omega
    have hjw : w - 1 - i < w := by omega
    rw [BitVec.getLsbD_or, BitVec.getLsbD_not, getLsbD_mask hm]
    simp [hi, hw, hj, hjw]
  · rename_i hi
    rw [Nat.testBit_div_two_pow, show i - (w - n) + (w - n) = i by omega, testBit_rank]
    by_cases hw : i < w
    · have hj : w - 1 - i < n := by omega
      simp [getLsbD_mask hm, hw, hj]
    · simp [hw]

/-- An advance goes to the start of the next block, and from the last block
to zero. -/
theorem rank_advance (hn : n ≤ w) (hm : m.toNat = 2 ^ n - 1) :
    rank (advance m v) = (rank v / 2 ^ (w - n) + 1) * 2 ^ (w - n) % 2 ^ w := by
  have hpos := Nat.two_pow_pos (w - n)
  have hor : (v ||| ~~~m).reverse.toNat =
      2 ^ (w - n) * (rank v / 2 ^ (w - n)) + (2 ^ (w - n) - 1) := rank_or_not hn hm
  rw [rank, advance, BitVec.reverse_reverse_eq, BitVec.toNat_add, hor, BitVec.toNat_ofNat,
    Nat.add_mod_mod]
  congr 1
  rw [Nat.add_mul, Nat.mul_comm]
  omega

theorem advance_cases (hn : n ≤ w) (hm : m.toNat = 2 ^ n - 1) :
    (advance m v = 0#w ∧ (rank v / 2 ^ (w - n) + 1) * 2 ^ (w - n) = 2 ^ w) ∨
      rank (advance m v) = (rank v / 2 ^ (w - n) + 1) * 2 ^ (w - n) := by
  have hrank := rank_advance (v := v) hn hm
  have hpow : 2 ^ w = 2 ^ n * 2 ^ (w - n) := by
    rw [← Nat.pow_add, show n + (w - n) = w by omega]
  have hq : rank v / 2 ^ (w - n) < 2 ^ n := by
    rw [Nat.div_lt_iff_lt_mul (Nat.two_pow_pos _), ← hpow]
    exact rank_lt v
  have hle : (rank v / 2 ^ (w - n) + 1) * 2 ^ (w - n) ≤ 2 ^ w := by
    rw [hpow]
    exact Nat.mul_le_mul_right _ hq
  rcases Nat.lt_or_eq_of_le hle with hlt | heq
  · right
    rw [hrank, Nat.mod_eq_of_lt hlt]
  · left
    refine ⟨eq_zero_of_rank ?_, heq⟩
    rw [hrank, heq, Nat.mod_self]

/-- No advance goes back. -/
theorem rank_lt_advance (hn : n ≤ w) (hm : m.toNat = 2 ^ n - 1) :
    advance m v = 0#w ∨ rank v < rank (advance m v) := by
  rcases advance_cases (v := v) hn hm with ⟨hzero, -⟩ | hrank
  · exact .inl hzero
  · right
    rw [hrank, Nat.mul_comm]
    exact Nat.lt_mul_div_succ _ (Nat.two_pow_pos _)

/-- The numbers that an advance passes over have the low bits of the one it
started from. -/
theorem mod_eq_of_passed (hn : n ≤ w) (hm : m.toNat = 2 ^ n - 1) (hle : rank v ≤ rank u)
    (hlt : advance m v = 0#w ∨ rank u < rank (advance m v)) :
    u.toNat % 2 ^ n = v.toNat % 2 ^ n := by
  have hpos := Nat.two_pow_pos (w - n)
  have hnext : rank u < (rank v / 2 ^ (w - n) + 1) * 2 ^ (w - n) := by
    rcases advance_cases (v := v) hn hm with ⟨-, hend⟩ | hrank
    · rw [hend]
      exact rank_lt u
    · rcases hlt with hzero | hlt
      · rw [hzero, rank_zero] at hrank
        exact absurd hrank (Nat.mul_pos (Nat.succ_pos _) hpos).ne
      · exact hrank ▸ hlt
  rw [mod_eq_iff_rank_div hn]
  have hge := Nat.div_le_div_right (c := 2 ^ (w - n)) hle
  have hle' := (Nat.div_lt_iff_lt_mul hpos).mpr hnext
  omega

/-! ## Two masks -/

theorem dvd_rank_iff (hn : n ≤ w) :
    2 ^ (w - n) ∣ rank v ↔ ∀ j, n ≤ j → v.getLsbD j = false := by
  constructor
  · rintro ⟨q, hq⟩ j hj
    by_cases hjw : j < w
    · have hbit := testBit_rank v (w - 1 - j)
      rw [hq, ← Nat.add_zero (2 ^ (w - n) * q), Nat.testBit_two_pow_mul_add q (Nat.two_pow_pos _),
        if_pos (by omega), Nat.zero_testBit] at hbit
      have hidx : w - 1 - (w - 1 - j) = j := by omega
      have hlt : w - 1 - j < w := by omega
      simpa [hidx, hlt] using hbit.symm
    · exact BitVec.getLsbD_of_ge v j (by omega)
  · intro h
    apply Nat.dvd_of_mod_eq_zero
    apply Nat.eq_of_testBit_eq
    intro i
    rw [Nat.testBit_mod_two_pow, testBit_rank, Nat.zero_testBit]
    by_cases hi : i < w - n
    · rw [h (w - 1 - i) (by omega)]
      simp
    · simp [hi]

variable {n₀ n₁ : Nat} {m₀ m₁ : BitVec w}

theorem dvd_rank_advance (hn : n ≤ w) (hm : m.toNat = 2 ^ n - 1) :
    2 ^ (w - n) ∣ rank (advance m v) := by
  rcases advance_cases (v := v) hn hm with ⟨hzero, -⟩ | hrank
  · rw [hzero, rank_zero]
    exact Nat.dvd_zero _
  · rw [hrank]
    exact Nat.dvd_mul_left ..

/-- The bits between two masks are zero at the start of a larger block. -/
theorem and_xor_eq_zero_iff (h₀₁ : n₀ ≤ n₁) (h₁ : n₁ ≤ w) (hm₀ : m₀.toNat = 2 ^ n₀ - 1)
    (hm₁ : m₁.toNat = 2 ^ n₁ - 1) (hv : 2 ^ (w - n₁) ∣ rank v) :
    v &&& (m₀ ^^^ m₁) = 0#w ↔ 2 ^ (w - n₀) ∣ rank v := by
  rw [dvd_rank_iff h₁] at hv
  rw [dvd_rank_iff (by omega)]
  constructor
  · intro h j hj
    by_cases hj₁ : j < n₁
    · have hbit := congrArg (fun x => x.getLsbD j) h
      have hnot : ¬ j < n₀ := by omega
      simpa [getLsbD_mask hm₀, getLsbD_mask hm₁, hj₁, hnot] using hbit
    · exact hv j (by omega)
  · intro h
    apply BitVec.eq_of_getLsbD_eq
    intro j hj
    rw [BitVec.getLsbD_and, BitVec.getLsbD_xor, getLsbD_mask hm₀, getLsbD_mask hm₁]
    by_cases hj₀ : j < n₀
    · have hj₁ : j < n₁ := by omega
      simp [hj₀, hj₁]
    · simp [h j (by omega)]

/-- An advance by the smaller blocks stays in a larger block until it
reaches the start of one. -/
theorem mod_advance (h₀₁ : n₀ ≤ n₁) (h₁ : n₁ ≤ w) (hm₁ : m₁.toNat = 2 ^ n₁ - 1)
    (hnot : ¬ 2 ^ (w - n₀) ∣ rank (advance m₁ v)) :
    (advance m₁ v).toNat % 2 ^ n₀ = v.toNat % 2 ^ n₀ := by
  have hpow : 2 ^ (w - n₀) = 2 ^ (w - n₁) * 2 ^ (n₁ - n₀) := by
    rw [← Nat.pow_add, show w - n₁ + (n₁ - n₀) = w - n₀ by omega]
  rw [mod_eq_iff_rank_div (by omega)]
  rcases advance_cases (v := v) h₁ hm₁ with ⟨hzero, -⟩ | hrank
  · rw [hzero, rank_zero] at hnot
    exact absurd (Nat.dvd_zero _) hnot
  · rw [hrank, hpow] at hnot ⊢
    rw [Nat.mul_comm (2 ^ (w - n₁)), Nat.mul_dvd_mul_iff_right (Nat.two_pow_pos _)] at hnot
    rw [← Nat.div_div_eq_div_mul, ← Nat.div_div_eq_div_mul, Nat.mul_div_cancel _ (Nat.two_pow_pos _)]
    exact Nat.succ_div_of_not_dvd hnot

/-- Short of a larger block, the number of the smaller block inside the
larger one goes up by one. -/
theorem block_advance (h₀₁ : n₀ ≤ n₁) (h₁ : n₁ ≤ w) (hm₁ : m₁.toNat = 2 ^ n₁ - 1)
    (hnot : ¬ 2 ^ (w - n₀) ∣ rank (advance m₁ v)) :
    rank (advance m₁ v) / 2 ^ (w - n₁) % 2 ^ (n₁ - n₀) =
      rank v / 2 ^ (w - n₁) % 2 ^ (n₁ - n₀) + 1 := by
  have hpow : 2 ^ (w - n₀) = 2 ^ (n₁ - n₀) * 2 ^ (w - n₁) := by
    rw [← Nat.pow_add, show n₁ - n₀ + (w - n₁) = w - n₀ by omega]
  rcases advance_cases (v := v) h₁ hm₁ with ⟨hzero, -⟩ | hrank
  · rw [hzero, rank_zero] at hnot
    exact absurd (Nat.dvd_zero _) hnot
  · rw [hrank, hpow, Nat.mul_dvd_mul_iff_right (Nat.two_pow_pos _)] at hnot
    rw [hrank, Nat.mul_div_cancel _ (Nat.two_pow_pos _)]
    generalize rank v / 2 ^ (w - n₁) = q at hnot ⊢
    have hlt := Nat.mod_lt q (Nat.two_pow_pos (n₁ - n₀))
    rcases Nat.lt_or_eq_of_le (Nat.succ_le_of_lt hlt) with hless | heq
    · rw [← Nat.mod_add_mod, Nat.mod_eq_of_lt hless]
    · refine absurd (Nat.dvd_of_mod_eq_zero ?_) hnot
      rw [← Nat.mod_add_mod, show q % 2 ^ (n₁ - n₀) + 1 = 2 ^ (n₁ - n₀) from heq, Nat.mod_self]

end ReverseCounter

end Wahana
