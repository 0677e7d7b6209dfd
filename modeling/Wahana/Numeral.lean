import Mathlib.Tactic.IntervalCases
import Mathlib.Tactic.Push
import Wahana.Bytes

/-!
# Decimal numerals

The numeral `decimal n` taken apart from its last digit, and read back.
A string of digits is read by `digitsValue`; among the strings of one value
the numeral is the one without a leading zero (`decimal_digitsValue`), so
numerals and numbers determine each other (`decimal_injective`). `signed`
is the numeral of an integer.
-/

namespace Wahana

/-- The byte of the digit `d`. -/
def digit (d : Nat) : UInt8 := (48 + d).toUInt8

theorem ch_digitChar {d : Nat} (h : d < 10) : ch (Nat.digitChar d) = digit d := by
  interval_cases d <;> rfl

theorem toNat_digit {d : Nat} (h : d < 10) : (digit d).toNat = 48 + d := by
  interval_cases d <;> rfl

theorem isDigit_iff {b : UInt8} : isDigit b = true ↔ 48 ≤ b.toNat ∧ b.toNat ≤ 57 := by
  simp only [isDigit, Bool.and_eq_true, decide_eq_true_eq, UInt8.le_iff_toNat_le]
  exact Iff.rfl

theorem digit_of_isDigit {b : UInt8} (h : isDigit b = true) : digit (b.toNat - 48) = b := by
  rw [isDigit_iff] at h
  apply UInt8.toNat.inj
  rw [toNat_digit (by omega)]
  omega

/-! ## The last digit -/

theorem decimal_of_lt {n : Nat} (h : n < 10) : decimal n = [digit n] := by
  rw [decimal, Nat.toDigits_of_lt_base h]
  simp [ch_digitChar h]

theorem decimal_of_ge {n : Nat} (h : 10 ≤ n) :
    decimal n = decimal (n / 10) ++ [digit (n % 10)] := by
  rw [decimal, Nat.toDigits_of_base_le (by omega) h]
  simp [decimal, ch_digitChar (Nat.mod_lt n (by omega : 0 < 10))]

theorem decimal_append_digit {m d : Nat} (hm : 0 < m) (hd : d < 10) :
    decimal (10 * m + d) = decimal m ++ [digit d] := by
  rw [decimal_of_ge (by omega), show (10 * m + d) / 10 = m by omega,
    show (10 * m + d) % 10 = d by omega]

theorem length_decimal_of_ge {n : Nat} (h : 10 ≤ n) :
    (decimal n).length = (decimal (n / 10)).length + 1 := by
  rw [decimal_of_ge h, List.length_append, List.length_singleton]

theorem length_decimal_pos (n : Nat) : 0 < (decimal n).length :=
  List.length_pos_of_ne_nil (decimal_ne_nil n)

/-- A numeral has at most `k` digits exactly below `10 ^ k`. -/
theorem length_decimal_le_iff {n k : Nat} (hk : 0 < k) : (decimal n).length ≤ k ↔ n < 10 ^ k := by
  rw [decimal, List.length_map]
  exact Nat.length_toDigits_le_iff (by omega) hk

/-! ## Reading -/

/-- The value of a string of digits read after `v`. -/
def digitsValue (v : Nat) (s : Bytes) : Nat :=
  s.foldl (fun v b => 10 * v + (b.toNat - 48)) v

@[simp] theorem digitsValue_nil (v : Nat) : digitsValue v [] = v := rfl

theorem digitsValue_cons (v : Nat) (b : UInt8) (s : Bytes) :
    digitsValue v (b :: s) = digitsValue (10 * v + (b.toNat - 48)) s := by
  rw [digitsValue, List.foldl_cons, digitsValue]

theorem digitsValue_append (v : Nat) (s t : Bytes) :
    digitsValue v (s ++ t) = digitsValue (digitsValue v s) t :=
  List.foldl_append

theorem digitsValue_digit {v d : Nat} (h : d < 10) : digitsValue v [digit d] = 10 * v + d := by
  rw [digitsValue_cons, digitsValue_nil, toNat_digit h]
  omega

theorem digitsValue_decimal (n : Nat) : digitsValue 0 (decimal n) = n := by
  induction n using Nat.strongRecOn with
  | ind n ih =>
      by_cases h : n < 10
      · rw [decimal_of_lt h, digitsValue_digit h, Nat.mul_zero, Nat.zero_add]
      · rw [decimal_of_ge (by omega), digitsValue_append, ih (n / 10) (by omega),
          digitsValue_digit (by omega)]
        omega

theorem decimal_injective {m n : Nat} (h : decimal m = decimal n) : m = n := by
  rw [← digitsValue_decimal m, h, digitsValue_decimal]

/-- Digits read after a non-zero value extend its numeral. -/
theorem decimal_digitsValue_of_pos : ∀ {s : Bytes} {v : Nat}, 0 < v →
    (∀ b ∈ s, isDigit b = true) → decimal (digitsValue v s) = decimal v ++ s
  | [], v, _, _ => by rw [digitsValue_nil, List.append_nil]
  | b :: s, v, hv, hs => by
      have hb : isDigit b = true := hs b (by simp)
      have hlt : b.toNat - 48 < 10 := by
        rw [isDigit_iff] at hb
        omega
      rw [digitsValue_cons, decimal_digitsValue_of_pos (by omega) fun c hc => hs c (by simp [hc]),
        decimal_append_digit hv hlt, digit_of_isDigit hb, List.append_assoc]
      rfl

/-- A string of digits that does not start with `0` is a numeral. -/
theorem decimal_digitsValue {b : UInt8} {s : Bytes} (hb : isDigit b = true) (hb0 : b ≠ ch '0')
    (hs : ∀ c ∈ s, isDigit c = true) : decimal (digitsValue (b.toNat - 48) s) = b :: s := by
  have hpos : 0 < b.toNat - 48 := by
    rw [isDigit_iff] at hb
    have : b.toNat ≠ 48 := fun h => hb0 (UInt8.toNat.inj h)
    omega
  have hlt : b.toNat - 48 < 10 := by
    rw [isDigit_iff] at hb
    omega
  rw [decimal_digitsValue_of_pos hpos hs, decimal_of_lt hlt, digit_of_isDigit hb]
  rfl

/-- Only the numeral of `0` starts with `0`. -/
theorem decimal_head_ne_zero {n : Nat} (h : 0 < n) :
    ∃ b s, decimal n = b :: s ∧ isDigit b = true ∧ b ≠ ch '0' := by
  induction n using Nat.strongRecOn with
  | ind n ih =>
      by_cases hn : n < 10
      · refine ⟨digit n, [], decimal_of_lt hn, ?_, ?_⟩
        · rw [isDigit_iff, toNat_digit hn]
          omega
        · intro h0
          have := congrArg UInt8.toNat h0
          rw [toNat_digit hn] at this
          exact absurd this (by simp [ch]; omega)
      · obtain ⟨b, s, hs, hb⟩ := ih (n / 10) (by omega) (by omega)
        exact ⟨b, s ++ [digit (n % 10)], by rw [decimal_of_ge (by omega), hs]; rfl, hb⟩

/-! ## Integers -/

def signed (v : Int) : Bytes :=
  if v < 0 then ch '-' :: decimal v.natAbs else decimal v.natAbs

theorem signed_of_neg {v : Int} (h : v < 0) : signed v = ch '-' :: decimal v.natAbs := by
  rw [signed, if_pos h]

theorem signed_of_nonneg {v : Int} (h : 0 ≤ v) : signed v = decimal v.natAbs := by
  rw [signed, if_neg (by omega)]

theorem signed_natCast (n : Nat) : signed n = decimal n := by
  rw [signed, if_neg (by omega), Int.natAbs_natCast]

theorem minus_cons_eq_signed {p : Bytes} {v : Int} :
    ch '-' :: p = signed v ↔ v < 0 ∧ p = decimal v.natAbs := by
  by_cases h : v < 0
  · simp [signed_of_neg h, h]
  · rw [signed_of_nonneg (by omega)]
    refine ⟨fun heq => ?_, fun hv => absurd hv.1 h⟩
    have : isDigit (ch '-') = true := isDigit_of_mem_decimal (n := v.natAbs) (by simp [← heq])
    exact absurd this (by decide)

theorem cons_eq_signed {b : UInt8} {p : Bytes} {v : Int} (hb : b ≠ ch '-') :
    b :: p = signed v ↔ 0 ≤ v ∧ b :: p = decimal v.natAbs := by
  by_cases h : v < 0
  · rw [signed_of_neg h]
    constructor
    · intro heq
      exact absurd (List.head_eq_of_cons_eq heq) hb
    · intro hv
      omega
  · rw [signed_of_nonneg (by omega)]
    simp only [show 0 ≤ v by omega, true_and]

end Wahana
