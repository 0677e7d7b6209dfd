import Wahana.Regex

/-!
# Byte strings

Strings are lists of bytes. The classes below are the ones the
converters' patterns use, in byte mode: `\s` is the six ASCII white-space
bytes, `\d` the ASCII digits, `.` everything but a line feed.
-/

namespace Wahana

abbrev Bytes := List UInt8

section

variable {p : UInt8 → Prop} [DecidablePred p]

/-- Decided along the string, not by trying all 256 bytes. -/
instance (priority := 2000) decidableForallByte (s : Bytes) : Decidable (∀ b ∈ s, p b) :=
  List.decidableBAll p s

@[inherit_doc decidableForallByte]
instance (priority := 2000) decidableForallByte? (b? : Option UInt8) : Decidable (∀ b ∈ b?, p b) :=
  b?.decidableForallMem

end

/-- The byte of an ASCII character. -/
def ch (c : Char) : UInt8 := c.toNat.toUInt8

/-- The bytes of a source text literal. -/
def bytes (s : String) : Bytes := s.toUTF8.data.toList

/-- The decimal numeral of a number. -/
def decimal (n : Nat) : Bytes := (Nat.toDigits 10 n).map ch

/-- `\s` -/
def isSpace (b : UInt8) : Bool :=
  b == ch ' ' || b == ch '\t' || b == ch '\n' || b == 11 || b == 12 || b == ch '\r'

/-- `\S` -/
def isWord (b : UInt8) : Bool := !isSpace b

/-- `\d` -/
def isDigit (b : UInt8) : Bool := ch '0' ≤ b && b ≤ ch '9'

/-- `.` -/
def isDot (b : UInt8) : Bool := b != ch '\n'

namespace Re

/-- A literal character. -/
def chr (c : Char) : Re UInt8 := one (· == ch c)

@[simp] theorem eats_chr {c : Char} {u : Bytes} {d : Caps UInt8} :
    Eats (chr c) u d ↔ u = [ch c] ∧ d = [] := by
  simp [chr, Eats]

end Re

theorem isWord_iff {b : UInt8} : isWord b = true ↔ isSpace b = false := by
  simp [isWord]

theorem isSpace_iff {b : UInt8} : isSpace b = true ↔
    b = ch ' ' ∨ b = ch '\t' ∨ b = ch '\n' ∨ b = 11 ∨ b = 12 ∨ b = ch '\r' := by
  simp [isSpace, or_assoc]

theorem isWord_of_isDigit {b : UInt8} (h : isDigit b = true) : isWord b = true := by
  rw [isWord_iff]
  by_contra hs
  rw [Bool.not_eq_false, isSpace_iff] at hs
  rcases hs with rfl | rfl | rfl | rfl | rfl | rfl <;> revert h <;> decide

theorem isDigit_ch {c : Char} (h : c.isDigit = true) : isDigit (ch c) = true := by
  simp only [Char.isDigit, Bool.and_eq_true, decide_eq_true_eq] at h
  have hlo : 48 ≤ c.toNat := h.1
  have hhi : c.toNat ≤ 57 := h.2
  have hch : (ch c).toNat = c.toNat := by
    simp only [ch, Nat.toUInt8, UInt8.toNat_ofNat']
    omega
  simp only [isDigit, Bool.and_eq_true, decide_eq_true_eq, UInt8.le_iff_toNat_le, hch]
  exact ⟨hlo, hhi⟩

theorem isDigit_of_mem_decimal {n : Nat} {b : UInt8} (h : b ∈ decimal n) :
    isDigit b = true := by
  obtain ⟨c, hc, rfl⟩ := List.mem_map.mp h
  exact isDigit_ch (Nat.isDigit_of_mem_toDigits (by omega) (by omega) hc)

theorem decimal_ne_nil (n : Nat) : decimal n ≠ [] := by
  simp [decimal, Nat.toDigits_ne_nil]

theorem two_le_length_decimal_iff {n : Nat} : 2 ≤ (decimal n).length ↔ 10 ≤ n := by
  have h := Nat.length_toDigits_le_iff (b := 10) (n := n) (k := 1) (by omega) (by omega)
  rw [decimal, List.length_map]
  omega

end Wahana
