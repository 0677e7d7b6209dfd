import Wahana.Numeral

/-!
# Redis: numbers in text

The conversions of `util.c` between a `long long` and its text, which the
server uses for the counts and lengths of the protocol, for integer
replies, and to store a value that looks like an integer as one.

`ll2string` writes two digits at a time from the end of the buffer, at
positions computed from `digits10`, a digit count without a loop. It fills
exactly the cells of the numeral and its terminator, and refuses a buffer
that has no room for both (`ll2string_eq`). `string2ll` accepts exactly the
texts that `ll2string` writes (`string2ll_iff_ll2string`): no leading zero,
no `+`, no `-0`, no blank and no number out of range. So a value stored as
an integer is read back byte for byte.
-/

namespace Wahana

def llongMin : Int := -2 ^ 63

def llongMax : Int := 2 ^ 63 - 1

def ullongMax : Nat := 2 ^ 64 - 1

/-- The values of a `long long`. -/
def IsLongLong (v : Int) : Prop := llongMin ≤ v ∧ v ≤ llongMax

instance (v : Int) : Decidable (IsLongLong v) := inferInstanceAs (Decidable (_ ∧ _))

/-! ## The source -/

def digits10 (v : Nat) : Nat :=
  if v < 10 then 1
  else if v < 100 then 2
  else if v < 1000 then 3
  else if v < 1000000000000 then
    if v < 100000000 then
      if v < 1000000 then
        if v < 10000 then 4 else 5 + (if v ≥ 100000 then 1 else 0)
      else 7 + (if v ≥ 10000000 then 1 else 0)
    else if v < 10000000000 then 9 + (if v ≥ 1000000000 then 1 else 0)
    else 11 + (if v ≥ 100000000000 then 1 else 0)
  else 12 + digits10 (v / 1000000000000)

/-- The absolute value as an `unsigned long long`; that of `LLONG_MIN` is
taken apart because it has no positive `long long`. -/
def unsignedAbs (v : Int) : Nat :=
  if v < 0 then
    if v ≠ llongMin then (-v).toNat else llongMax.toNat + 1
  else v.toNat

def sdigits10 (v : Int) : Nat :=
  if v < 0 then digits10 (unsignedAbs v) + 1 else digits10 (unsignedAbs v)

/-- `static const char digits[201]` -/
def digitPairs : Bytes :=
  bytes "0001020304050607080910111213141516171819" ++
  bytes "2021222324252627282930313233343536373839" ++
  bytes "4041424344454647484950515253545556575859" ++
  bytes "6061626364656667686970717273747576777879" ++
  bytes "8081828384858687888990919293949596979899"

/-- Two digits of the table, the second one at `next`. -/
def putPair (dst : Bytes) (next i : Nat) : Bytes :=
  (dst.set next (digitPairs.getD (i + 1) 0)).set (next - 1) (digitPairs.getD i 0)

/-- `a - b` of two `uint32_t`. -/
def uint32Sub (a b : Nat) : Nat := (a + 2 ^ 32 - b) % 2 ^ 32

/-- The loop of `ll2string` and the last one or two digits. -/
def putDigits (dst : Bytes) (next value : Nat) : Bytes :=
  if value ≥ 100 then
    putDigits (putPair dst next (value % 100 * 2)) (uint32Sub next 2) (value / 100)
  else if value < 10 then dst.set next (48 + value).toUInt8
  else putPair dst next (value * 2)
termination_by value
decreasing_by omega

/-- Returns the number of bytes written and the buffer; `dstlen` is the
buffer's length. -/
def ll2string (dst : Bytes) (svalue : Int) : Nat × Bytes :=
  let negative := svalue < 0
  let value := unsignedAbs svalue
  let length := digits10 value + (if negative then 1 else 0)
  if length ≥ dst.length then (0, dst)
  else
    let dst := putDigits (dst.set length 0) (length - 1) value
    (length, if negative then dst.set 0 (ch '-') else dst)

/-- The digits after the first one: the value and what is left, or `none`
on overflow. -/
def scanDigits (v : Nat) : Bytes → Option (Nat × Bytes)
  | [] => some (v, [])
  | b :: p =>
      if ch '0' ≤ b ∧ b ≤ ch '9' then
        if v > ullongMax / 10 then none
        else
          let v := v * 10 % 2 ^ 64
          if v > ullongMax - (b.toNat - 48) then none
          else scanDigits ((v + (b.toNat - 48)) % 2 ^ 64) p
      else some (v, b :: p)

/-- From the first digit on. -/
def string2llFrom (negative : Bool) : Bytes → Option Int
  | [] => none
  | b :: p =>
      if ch '1' ≤ b ∧ b ≤ ch '9' then
        match scanDigits (b.toNat - 48) p with
        | some (v, []) =>
            if negative then
              if (v : Int) > -(llongMin + 1) + 1 then none else some (-(v : Int))
            else if (v : Int) > llongMax then none else some v
        | _ => none
      else none

def string2ll (s : Bytes) : Option Int :=
  match s with
  | [] => none
  | b :: p =>
      if p = [] ∧ b = ch '0' then some 0
      else if b = ch '-' then string2llFrom true p
      else string2llFrom false (b :: p)

/-! ## Counting digits -/

theorem length_decimal_eq {n k : Nat} (hlo : 10 ^ k ≤ n) (hhi : n < 10 ^ (k + 1)) :
    (decimal n).length = k + 1 := by
  have hle := (length_decimal_le_iff (by omega)).mpr hhi
  by_cases hk : k = 0
  · have := length_decimal_pos n
    omega
  · have := mt (length_decimal_le_iff (n := n) (Nat.pos_of_ne_zero hk)).mp (by omega)
    omega

theorem length_decimal_div : ∀ (k : Nat) {n : Nat}, 10 ^ k ≤ n →
    (decimal n).length = k + (decimal (n / 10 ^ k)).length
  | 0, n, _ => by simp
  | k + 1, n, h => by
      rw [Nat.pow_succ] at h
      have hpos : 0 < 10 ^ k := Nat.pow_pos (by omega)
      have hdiv : 10 ^ k ≤ n / 10 := (Nat.le_div_iff_mul_le (by omega)).mpr h
      rw [length_decimal_of_ge (by omega), length_decimal_div k hdiv, Nat.div_div_eq_div_mul,
        ← Nat.pow_succ', Nat.succ_eq_add_one]
      omega

/-- One comparison decides between two neighbouring digit counts. -/
theorem length_decimal_or_next {n k : Nat} (hlo : 10 ^ k ≤ n) (hhi : n < 10 ^ (k + 2)) :
    k + 1 + (if n ≥ 10 ^ (k + 1) then 1 else 0) = (decimal n).length := by
  split
  · exact (length_decimal_eq (by assumption) hhi).symm
  · exact (length_decimal_eq hlo (by omega)).symm

theorem digits10_eq (v : Nat) : digits10 v = (decimal v).length := by
  fun_induction digits10 v with
  | case1 v h => rw [decimal_of_lt h]; rfl
  | case2 => exact (length_decimal_eq (k := 1) (by omega) (by omega)).symm
  | case3 => exact (length_decimal_eq (k := 2) (by omega) (by omega)).symm
  | case4 => exact (length_decimal_eq (k := 3) (by omega) (by omega)).symm
  | case5 => exact length_decimal_or_next (k := 4) (by omega) (by omega)
  | case6 => exact length_decimal_or_next (k := 6) (by omega) (by omega)
  | case7 => exact length_decimal_or_next (k := 8) (by omega) (by omega)
  | case8 => exact length_decimal_or_next (k := 10) (by omega) (by omega)
  | case9 v h1 h2 h3 h4 ih =>
      rw [ih]
      exact (length_decimal_div 12 (by omega)).symm

/-! ## Writing -/

theorem digitPairs_getD : ∀ k < 100, digitPairs.getD (k * 2) 0 = digit (k / 10)
    ∧ digitPairs.getD (k * 2 + 1) 0 = digit (k % 10) := by
  decide +kernel

theorem decimal_pair {n : Nat} (h : 10 ≤ n) (h' : n < 100) :
    decimal n = [digit (n / 10), digit (n % 10)] := by
  rw [decimal_of_ge h, decimal_of_lt (by omega)]
  rfl

theorem decimal_append_pair {n : Nat} (h : 100 ≤ n) :
    decimal n = decimal (n / 100) ++ [digit (n % 100 / 10), digit (n % 100 % 10)] := by
  rw [decimal_of_ge (by omega), decimal_of_ge (by omega : 10 ≤ n / 10), List.append_assoc,
    Nat.div_div_eq_div_mul, show n / 10 % 10 = n % 100 / 10 by omega,
    show n % 10 = n % 100 % 10 by omega]
  rfl

/-- `putPair` replaces the two cells before `suf`. -/
theorem putPair_append (pre suf : Bytes) (x y : UInt8) {k : Nat} (hk : k < 100) :
    putPair (pre ++ x :: y :: suf) (pre.length + 1) (k * 2)
      = pre ++ digit (k / 10) :: digit (k % 10) :: suf := by
  obtain ⟨h0, h1⟩ := digitPairs_getD k hk
  rw [putPair, h0, h1]
  simp

/-- The cells before `suf` that `putDigits` fills are those of the numeral:
`pre` is what stands before it, `old` what it replaces. -/
theorem putDigits_append (pre : Bytes) (hpre : pre.length ≤ 1) {value : Nat} :
    ∀ {old : Bytes} (suf : Bytes), value < 2 ^ 64 → old.length = (decimal value).length →
      putDigits (pre ++ old ++ suf) (pre.length + old.length - 1) value
        = pre ++ decimal value ++ suf := by
  induction value using Nat.strongRecOn with
  | ind value ih =>
      intro old suf hvalue hold
      unfold putDigits
      by_cases h100 : value ≥ 100
      · -- one round: the last two cells of `old` are written and pass to the right side
        rw [if_pos h100]
        rw [decimal_append_pair h100, List.length_append] at hold
        obtain ⟨x, y, hxy⟩ := List.length_eq_two.mp
          (show (old.drop (decimal (value / 100)).length).length = 2 by
            rw [List.length_drop, hold]; simp)
        obtain ⟨old, rfl, hlen⟩ : ∃ old', old = old' ++ [x, y]
            ∧ old'.length = (decimal (value / 100)).length :=
          ⟨old.take (decimal (value / 100)).length, by rw [← hxy, List.take_append_drop],
            by rw [List.length_take]; simp at hold; omega⟩
        have hbound := (length_decimal_le_iff (n := value / 100) (k := 20) (by omega)).mpr
          (by omega)
        have hpos := length_decimal_pos (value / 100)
        have hnext : uint32Sub (pre.length + (old ++ [x, y]).length - 1) 2
            = pre.length + old.length - 1 := by
          rw [uint32Sub, List.length_append]
          simp only [List.length_cons, List.length_nil]
          omega
        have hput := putPair_append (pre ++ old) suf x y (Nat.mod_lt value (by omega : 0 < 100))
        rw [hnext, show pre.length + (old ++ [x, y]).length - 1 = (pre ++ old).length + 1 by
            simp; omega,
          show pre ++ (old ++ [x, y]) ++ suf = pre ++ old ++ x :: y :: suf by simp, hput,
          ih (value / 100) (by omega) _ (by omega) hlen, decimal_append_pair h100]
        simp
      · rw [if_neg h100]
        by_cases h10 : value < 10
        · rw [if_pos h10]
          rw [decimal_of_lt h10] at hold ⊢
          obtain ⟨x, rfl⟩ := List.length_eq_one_iff.mp hold
          simp [digit]
        · rw [if_neg h10]
          rw [decimal_pair (by omega) (by omega)] at hold ⊢
          obtain ⟨x, y, rfl⟩ := List.length_eq_two.mp hold
          simpa using putPair_append pre suf x y (by omega : value < 100)

theorem unsignedAbs_eq {v : Int} : unsignedAbs v = v.natAbs := by
  rw [unsignedAbs]
  split
  · split
    · omega
    · rename_i h
      rw [not_not.mp h]
      decide
  · omega

theorem length_signed (v : Int) :
    (signed v).length = digits10 (unsignedAbs v) + (if v < 0 then 1 else 0) := by
  rw [digits10_eq, unsignedAbs_eq, signed]
  split <;> simp

theorem sdigits10_eq (v : Int) : sdigits10 v = (signed v).length := by
  rw [length_signed, sdigits10]
  split <;> simp

/-- **Writing a number.** With room for the numeral and its terminator the
buffer holds both at its start and is otherwise as before; without it
nothing is written. -/
theorem ll2string_eq {v : Int} (hv : IsLongLong v) (dst : Bytes) :
    ll2string dst v = if (signed v).length < dst.length
      then ((signed v).length, signed v ++ 0 :: dst.drop ((signed v).length + 1))
      else (0, dst) := by
  have hlt : v.natAbs < 2 ^ 64 := by
    simp only [IsLongLong, llongMin, llongMax] at hv
    omega
  have hlen := length_signed v
  simp only [ll2string, ← hlen]
  by_cases hroom : (signed v).length < dst.length
  · rw [if_neg (by omega), if_pos hroom, unsignedAbs_eq]
    -- `old` is what the numeral replaces, `x` what its terminator replaces
    obtain ⟨old, x, suf, rfl, hold⟩ : ∃ old x suf, dst = old ++ x :: suf
        ∧ old.length = (signed v).length :=
      ⟨dst.take (signed v).length, dst[(signed v).length], dst.drop ((signed v).length + 1),
        by simp, by simp; omega⟩
    have hset : (old ++ x :: suf).set old.length 0 = old ++ 0 :: suf := by simp
    have hdrop : (old ++ x :: suf).drop (old.length + 1) = suf := by simp
    rw [← hold, hset, hdrop]
    by_cases hneg : v < 0
    · rw [signed_of_neg hneg] at hold ⊢
      obtain ⟨a, old, rfl⟩ := List.exists_cons_of_length_eq_add_one hold
      have hput := putDigits_append [a] (by simp) (0 :: suf) hlt (Nat.succ.inj hold)
      rw [if_pos hneg, show a :: old ++ 0 :: suf = [a] ++ old ++ 0 :: suf by simp,
        show (a :: old).length - 1 = [a].length + old.length - 1 by simp, hput]
      simp
    · rw [signed_of_nonneg (by omega)] at hold ⊢
      have hput := putDigits_append [] (by simp) (0 :: suf) hlt hold
      simp only [List.length_nil, Nat.zero_add, List.nil_append] at hput
      rw [if_neg hneg, hput]
  · rw [if_pos (by omega), if_neg hroom]

/-! ## Reading -/

theorem le_digitsValue : ∀ (v : Nat) (s : Bytes), v ≤ digitsValue v s
  | v, [] => Nat.le_refl v
  | v, b :: s => by
      rw [digitsValue_cons]
      have := le_digitsValue (10 * v + (b.toNat - 48)) s
      omega

/-- The loop reads a string of digits to its end exactly when the value
fits an `unsigned long long`, and then reads its value. -/
theorem scanDigits_eq_some_iff {w : Nat} : ∀ {s : Bytes} {v : Nat}, v ≤ ullongMax →
    (scanDigits v s = some (w, []) ↔
      (∀ b ∈ s, isDigit b = true) ∧ digitsValue v s = w ∧ w ≤ ullongMax)
  | [], v, hv => by
      simp [scanDigits]
      omega
  | b :: s, v, hv => by
      have hdig : (ch '0' ≤ b ∧ b ≤ ch '9') ↔ isDigit b = true := by simp [isDigit]
      have hle := le_digitsValue (10 * v + (b.toNat - 48)) s
      rw [scanDigits, digitsValue_cons]
      by_cases hb : isDigit b = true
      · have hd : b.toNat - 48 < 10 := by rw [isDigit_iff] at hb; omega
        rw [if_pos (hdig.mpr hb)]
        have hmax : ullongMax = 2 ^ 64 - 1 := rfl
        by_cases hfit : 10 * v + (b.toNat - 48) ≤ ullongMax
        · -- no check fires and nothing wraps around
          rw [if_neg (by omega), if_neg (by omega),
            show (v * 10 % 2 ^ 64 + (b.toNat - 48)) % 2 ^ 64 = 10 * v + (b.toNat - 48) by omega,
            scanDigits_eq_some_iff hfit]
          simp [hb]
        · have hover : ¬ (digitsValue (10 * v + (b.toNat - 48)) s = w ∧ w ≤ ullongMax) := by omega
          by_cases hten : v > ullongMax / 10
          · rw [if_pos hten]
            simp [hover]
          · rw [if_neg hten, if_pos (by omega)]
            simp [hover]
      · rw [if_neg (by rw [hdig]; exact hb)]
        simp [hb]

/-- The check of the first digit. -/
theorem firstDigit_iff {b : UInt8} :
    (ch '1' ≤ b ∧ b ≤ ch '9') ↔ isDigit b = true ∧ b ≠ ch '0' := by
  have h0 : b ≠ ch '0' ↔ b.toNat ≠ 48 := not_congr UInt8.toNat_inj.symm
  rw [isDigit_iff, h0, UInt8.le_iff_toNat_le, UInt8.le_iff_toNat_le]
  show 49 ≤ b.toNat ∧ b.toNat ≤ 57 ↔ _
  omega

theorem scanDigits_iff_decimal {b : UInt8} {p : Bytes} {w : Nat} (hb : isDigit b = true)
    (hb0 : b ≠ ch '0') :
    scanDigits (b.toNat - 48) p = some (w, []) ↔ b :: p = decimal w ∧ w ≤ ullongMax := by
  have hdig := isDigit_iff.mp hb
  rw [scanDigits_eq_some_iff (by simp only [ullongMax]; omega)]
  constructor
  · rintro ⟨hp, rfl, hle⟩
    exact ⟨(decimal_digitsValue hb hb0 hp).symm, hle⟩
  · rintro ⟨hs, hle⟩
    refine ⟨fun c hc => isDigit_of_mem_decimal (n := w) (by rw [← hs]; simp [hc]), ?_, hle⟩
    have := digitsValue_decimal w
    rwa [← hs, digitsValue_cons, Nat.mul_zero, Nat.zero_add] at this

theorem string2llFrom_eq_some_iff {negative : Bool} {v : Int} {s : Bytes} :
    string2llFrom negative s = some v ↔ ∃ w : Nat, 0 < w ∧ s = decimal w ∧
      v = (if negative then -(w : Int) else w) ∧ IsLongLong v := by
  have hmin : llongMin = -2 ^ 63 := rfl
  have hmax : llongMax = 2 ^ 63 - 1 := rfl
  have humax : ullongMax = 2 ^ 64 - 1 := rfl
  cases s with
  | nil => simp [string2llFrom, Ne.symm (decimal_ne_nil _)]
  | cons b p =>
      rw [string2llFrom]
      by_cases hb : isDigit b = true ∧ b ≠ ch '0'
      · rw [if_pos (firstDigit_iff.mpr hb)]
        constructor
        · intro h
          split at h
          · rename_i w heq
            obtain ⟨hs, -⟩ := (scanDigits_iff_decimal hb.1 hb.2).mp heq
            have hw : 0 < w := by
              by_contra h0
              rw [show w = 0 by omega] at hs
              exact hb.2 (List.head_eq_of_cons_eq hs)
            refine ⟨w, hw, hs, ?_⟩
            cases negative <;> simp at h ⊢ <;> exact ⟨h.2.symm, by omega, by omega⟩
          · cases h
        · rintro ⟨w, hw, hs, hv, hlo, hhi⟩
          have hfit : w ≤ ullongMax := by cases negative <;> simp at hv <;> omega
          rw [(scanDigits_iff_decimal hb.1 hb.2).mpr ⟨hs, hfit⟩]
          cases negative <;> simp at hv ⊢ <;> omega
      · rw [if_neg (by rw [firstDigit_iff]; exact hb)]
        simp only [reduceCtorEq, false_iff, not_exists]
        rintro w ⟨hw, hs, -⟩
        obtain ⟨c, t, hct, hc⟩ := decimal_head_ne_zero hw
        rw [← hs] at hct
        cases hct
        exact hb hc

/-- The texts that are read as numbers are the numerals. -/
theorem string2ll_eq_some_iff {s : Bytes} {v : Int} :
    string2ll s = some v ↔ IsLongLong v ∧ s = signed v := by
  cases s with
  | nil =>
      have hnil : [] ≠ signed v := by
        rw [signed]
        split <;> simp [Ne.symm (decimal_ne_nil _)]
      simp [string2ll, hnil]
  | cons b p =>
      rw [string2ll]
      by_cases h0 : p = [] ∧ b = ch '0'
      · obtain ⟨rfl, rfl⟩ := h0
        rw [if_pos ⟨rfl, rfl⟩, cons_eq_signed (by decide), show [ch '0'] = decimal 0 from rfl]
        constructor
        · intro h
          cases h
          exact ⟨by decide, by decide, rfl⟩
        · rintro ⟨-, hv, hz⟩
          have := decimal_injective hz
          rw [Option.some_inj]
          omega
      · rw [if_neg h0]
        by_cases hminus : b = ch '-'
        · subst hminus
          rw [if_pos rfl, string2llFrom_eq_some_iff, minus_cons_eq_signed]
          constructor
          · rintro ⟨w, hw, hp, rfl, hll⟩
            simp only [if_true] at hll ⊢
            exact ⟨hll, by omega, by rw [Int.natAbs_neg, Int.natAbs_natCast]; exact hp⟩
          · rintro ⟨hll, hv, hp⟩
            exact ⟨v.natAbs, by omega, hp, by simp only [if_true]; omega, hll⟩
        · rw [if_neg hminus, string2llFrom_eq_some_iff, cons_eq_signed hminus]
          constructor
          · rintro ⟨w, hw, hp, rfl, hll⟩
            exact ⟨hll, by simp, by simpa using hp⟩
          · rintro ⟨hll, hv, hp⟩
            refine ⟨v.natAbs, ?_, hp, by simp only [Bool.false_eq_true, if_false]; omega, hll⟩
            by_contra hz
            rw [show v.natAbs = 0 by omega] at hp
            cases hp
            exact h0 ⟨rfl, rfl⟩

theorem string2ll_signed {v : Int} (hv : IsLongLong v) : string2ll (signed v) = some v :=
  string2ll_eq_some_iff.mpr ⟨hv, rfl⟩

theorem isLongLong_natCast {n : Nat} (hn : (n : Int) ≤ llongMax) : IsLongLong n :=
  ⟨by simp only [llongMin]; omega, hn⟩

theorem string2ll_decimal {n : Nat} (hn : (n : Int) ≤ llongMax) :
    string2ll (decimal n) = some (n : Int) := by
  rw [← signed_natCast]
  exact string2ll_signed (isLongLong_natCast hn)

theorem length_signed_le {v : Int} (hv : IsLongLong v) : (signed v).length ≤ 20 := by
  obtain ⟨hlo, hhi⟩ := hv
  simp only [llongMin, llongMax] at hlo hhi
  have hdigits := (length_decimal_le_iff (n := v.natAbs) (k := 19) (by omega)).mpr (by omega)
  rw [signed]
  split
  · rw [List.length_cons]
    omega
  · omega

/-- **Reading undoes writing, and nothing else is read.** A text is read as
the number `v` exactly when `ll2string`, given any buffer of the size the
server uses, writes that text for `v`. -/
theorem string2ll_iff_ll2string (s : Bytes) (v : Int) (dst : Bytes) (hdst : 21 ≤ dst.length) :
    string2ll s = some v ↔ IsLongLong v ∧
      ll2string dst v = (s.length, s ++ 0 :: dst.drop (s.length + 1)) := by
  rw [string2ll_eq_some_iff]
  refine and_congr_right fun hv => ?_
  have hlen := length_signed_le hv
  rw [ll2string_eq hv, if_pos (by omega)]
  constructor
  · rintro rfl
    rfl
  · intro h
    obtain ⟨hlen', happ⟩ := Prod.mk.inj h
    exact (List.append_inj_left happ hlen').symm

/-- The smallest number fills the buffer. -/
theorem llongMin_written : ll2string (List.replicate 21 1) llongMin
    = (20, bytes "-9223372036854775808" ++ [0]) :=
  ((string2ll_iff_ll2string (bytes "-9223372036854775808") llongMin (List.replicate 21 1)
    (by decide)).mp (by decide +kernel)).2

end Wahana
