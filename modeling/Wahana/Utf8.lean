import Mathlib.Data.List.Basic

/-!
# UTF-8 over byte lists

Characters are Lean's `Char` (Unicode scalar values), one character is
encoded by the core function `String.utf8EncodeChar`, and a byte string
is valid when it is the encoding of some list of characters.
`utf8Decode` is the partial inverse; `utf8Decode_eq_some` says it
succeeds exactly on valid strings. `decodeLossy` is what a reader makes of
any string: it puts a replacement character where `utf8Decode` fails.

The last section is about cutting: a valid string may be cut before or
after any ASCII byte, because such a byte never occurs inside the
encoding of another character.
-/

namespace Wahana

def utf8Encode (cs : List Char) : List UInt8 :=
  cs.flatMap String.utf8EncodeChar

/-- The string is well-formed UTF-8. -/
def ValidUtf8 (s : List UInt8) : Prop := ∃ cs, s = utf8Encode cs

@[simp] theorem utf8Encode_nil : utf8Encode [] = [] := rfl

theorem utf8Encode_cons (c : Char) (cs : List Char) :
    utf8Encode (c :: cs) = String.utf8EncodeChar c ++ utf8Encode cs := by
  simp [utf8Encode]

/-! ## Decoding -/

/-- The character at the front of the string, if one is encoded there. -/
def nextChar? (s : List UInt8) : Option Char :=
  s.toByteArray.utf8DecodeChar? 0

theorem nextChar?_encode (c : Char) (s : List UInt8) :
    nextChar? (String.utf8EncodeChar c ++ s) = some c := by
  rw [nextChar?, List.toByteArray_append]
  exact ByteArray.utf8DecodeChar?_utf8EncodeChar_append

theorem eq_of_nextChar? {s : List UInt8} {c : Char} (h : nextChar? s = some c) :
    s = String.utf8EncodeChar c ++ s.drop c.utf8Size := by
  obtain ⟨l, hl⟩ := ByteArray.exists_of_utf8DecodeChar?_eq_some h
  have hs : s = String.utf8EncodeChar c ++ l.data.toList := by
    have := congrArg (fun b => b.data.toList) hl
    simpa using this
  have hdrop : s.drop c.utf8Size = l.data.toList := by
    rw [hs, ← String.length_utf8EncodeChar, List.drop_left]
  rw [hdrop]
  exact hs

/-- Decode a string from the front; `fuel` bounds the number of characters. -/
def utf8DecodeAux : (fuel : Nat) → List UInt8 → Option (List Char)
  | _, [] => some []
  | 0, _ :: _ => none
  | fuel + 1, b :: s =>
      match nextChar? (b :: s) with
      | none => none
      | some c => (utf8DecodeAux fuel ((b :: s).drop c.utf8Size)).map (c :: ·)

def utf8Decode (s : List UInt8) : Option (List Char) :=
  utf8DecodeAux s.length s

theorem utf8DecodeAux_encode : ∀ (cs : List Char) {fuel : Nat},
    cs.length ≤ fuel → utf8DecodeAux fuel (utf8Encode cs) = some cs
  | [], fuel, _ => by cases fuel <;> rfl
  | c :: cs, fuel + 1, h => by
      have hne : String.utf8EncodeChar c ≠ [] := String.utf8EncodeChar_ne_nil
      have ih := @utf8DecodeAux_encode cs fuel (by simpa using h)
      have hnext : nextChar? (utf8Encode (c :: cs)) = some c := by
        rw [utf8Encode_cons]; exact nextChar?_encode c _
      have hdrop : (utf8Encode (c :: cs)).drop c.utf8Size = utf8Encode cs := by
        rw [utf8Encode_cons, ← String.length_utf8EncodeChar, List.drop_left]
      cases hs : utf8Encode (c :: cs) with
      | nil =>
          rw [utf8Encode_cons, List.append_eq_nil_iff] at hs
          exact absurd hs.1 hne
      | cons b s =>
          rw [hs] at hnext hdrop
          rw [utf8DecodeAux, hnext]
          simp only
          rw [hdrop, ih]
          rfl

theorem length_le_length_utf8Encode : ∀ cs : List Char,
    cs.length ≤ (utf8Encode cs).length
  | [] => Nat.le_refl 0
  | c :: cs => by
      have ih := length_le_length_utf8Encode cs
      have hpos := c.utf8Size_pos
      rw [utf8Encode_cons, List.length_append, String.length_utf8EncodeChar, List.length_cons]
      omega

theorem utf8Decode_encode (cs : List Char) : utf8Decode (utf8Encode cs) = some cs :=
  utf8DecodeAux_encode cs (length_le_length_utf8Encode cs)

theorem utf8DecodeAux_sound : ∀ {fuel : Nat} {s : List UInt8} {cs : List Char},
    utf8DecodeAux fuel s = some cs → s = utf8Encode cs
  | fuel, [], cs, h => by
      have : cs = [] := by cases fuel <;> simpa [utf8DecodeAux, eq_comm] using h
      rw [this]; rfl
  | fuel + 1, b :: s, cs, h => by
      rw [utf8DecodeAux] at h
      cases hc : nextChar? (b :: s) with
      | none => rw [hc] at h; cases h
      | some c =>
          rw [hc] at h
          obtain ⟨ds, hds, rfl⟩ := Option.map_eq_some_iff.mp h
          rw [utf8Encode_cons, ← utf8DecodeAux_sound hds]
          exact eq_of_nextChar? hc

theorem utf8Decode_eq_some {s : List UInt8} {cs : List Char} :
    utf8Decode s = some cs ↔ s = utf8Encode cs :=
  ⟨utf8DecodeAux_sound, fun h => h ▸ utf8Decode_encode cs⟩

theorem validUtf8_iff {s : List UInt8} : ValidUtf8 s ↔ (utf8Decode s).isSome = true := by
  rw [Option.isSome_iff_exists]
  exact exists_congr fun _ => utf8Decode_eq_some.symm

/-! ## Decoding with replacement -/

/-- The length of the broken sequence at the front that one replacement
character stands for: a lead byte with the trail bytes that may follow it. -/
def brokenLength (s : List UInt8) : Nat :=
  match s with
  | a :: b :: s =>
      let second : Bool :=
        if a = 0xE0 then 0xA0 ≤ b && b ≤ 0xBF
        else if a = 0xED then 0x80 ≤ b && b ≤ 0x9F
        else if a = 0xF0 then 0x90 ≤ b && b ≤ 0xBF
        else if a = 0xF4 then 0x80 ≤ b && b ≤ 0x8F
        else 0xE1 ≤ a && a ≤ 0xF3 && 0x80 ≤ b && b ≤ 0xBF
      if second then
        match s with
        | c :: _ => if 0xF0 ≤ a && 0x80 ≤ c && c ≤ 0xBF then 3 else 2
        | [] => 2
      else 1
  | _ => 1

def decodeLossyAux : (fuel : Nat) → List UInt8 → List Char
  | _, [] => []
  | 0, _ :: _ => []
  | fuel + 1, b :: s =>
      match nextChar? (b :: s) with
      | some c => c :: decodeLossyAux fuel ((b :: s).drop c.utf8Size)
      | none => '�' :: decodeLossyAux fuel ((b :: s).drop (brokenLength (b :: s)))

/-- The characters of a string, with U+FFFD for what is no UTF-8. -/
def decodeLossy (s : List UInt8) : List Char := decodeLossyAux s.length s

theorem decodeLossyAux_of_utf8DecodeAux : ∀ {fuel : Nat} {s : List UInt8} {cs : List Char},
    utf8DecodeAux fuel s = some cs → decodeLossyAux fuel s = cs
  | fuel, [], cs, h => by
      cases fuel <;> simpa [utf8DecodeAux, decodeLossyAux, eq_comm] using h
  | fuel + 1, b :: s, cs, h => by
      rw [utf8DecodeAux] at h
      cases hc : nextChar? (b :: s) with
      | none => rw [hc] at h; cases h
      | some c =>
          rw [hc] at h
          obtain ⟨ds, hds, rfl⟩ := Option.map_eq_some_iff.mp h
          rw [decodeLossyAux, hc]
          exact congrArg (c :: ·) (decodeLossyAux_of_utf8DecodeAux hds)

theorem decodeLossy_encode (cs : List Char) : decodeLossy (utf8Encode cs) = cs :=
  decodeLossyAux_of_utf8DecodeAux (utf8Decode_encode cs)

/-! ## Cutting at an ASCII byte -/

/-- A byte below 0x80 is a whole character. -/
theorem utf8EncodeChar_eq_of_mem {c : Char} {x : UInt8}
    (h : x ∈ String.utf8EncodeChar c) (hx : x < 0x80) :
    String.utf8EncodeChar c = [x] := by
  have hbig : ∀ n : Nat, 0x80 ≤ n → n < 256 → ¬ (UInt8.ofNat n < 0x80) := by
    intro n hlo hhi hlt
    have := UInt8.lt_iff_toNat_lt.mp hlt
    rw [UInt8.toNat_ofNat_of_lt' hhi] at this
    simp at this
    omega
  unfold String.utf8EncodeChar at h ⊢
  dsimp only at h ⊢
  split at h
  · rename_i h1
    rw [if_pos h1]
    rw [List.mem_singleton.mp h]
  · exfalso
    split at h
    · simp only [List.mem_cons, List.not_mem_nil, or_false] at h
      rcases h with rfl | rfl <;> exact hbig _ (by omega) (by omega) hx
    · split at h
      · simp only [List.mem_cons, List.not_mem_nil, or_false] at h
        rcases h with rfl | rfl | rfl <;> exact hbig _ (by omega) (by omega) hx
      · simp only [List.mem_cons, List.not_mem_nil, or_false] at h
        rcases h with rfl | rfl | rfl | rfl <;> exact hbig _ (by omega) (by omega) hx

theorem utf8Encode_cut {x : UInt8} (hx : x < 0x80) {b : List UInt8} :
    ∀ (cs : List Char) {a : List UInt8}, utf8Encode cs = a ++ x :: b →
      ValidUtf8 a ∧ ValidUtf8 b
  | [], a, h => by simp at h
  | c :: cs, a, h => by
      rw [utf8Encode_cons, List.append_eq_append_iff] at h
      rcases h with ⟨a', rfl, hcs⟩ | ⟨e, hc, hb⟩
      · obtain ⟨⟨ds, rfl⟩, hb⟩ := utf8Encode_cut hx cs hcs
        exact ⟨⟨c :: ds, (utf8Encode_cons c ds).symm⟩, hb⟩
      · cases e with
        | nil =>
            -- the cut is right behind `c`
            rw [List.append_nil] at hc
            rw [List.nil_append] at hb
            obtain ⟨-, hb'⟩ := utf8Encode_cut hx cs (a := []) hb.symm
            exact ⟨⟨[c], by simp [utf8Encode, hc]⟩, hb'⟩
        | cons y e =>
            -- the cut is inside `c`, so `c` is the ASCII byte itself
            obtain ⟨rfl, rfl⟩ : x = y ∧ b = e ++ utf8Encode cs := by
              simpa using hb
            have hone := utf8EncodeChar_eq_of_mem (c := c) (x := x) (by simp [hc]) hx
            rw [hone] at hc
            have hlen := congrArg List.length hc
            simp only [List.length_append, List.length_cons, List.length_nil] at hlen
            obtain rfl : a = [] := List.length_eq_zero_iff.mp (by omega)
            obtain rfl : e = [] := List.length_eq_zero_iff.mp (by omega)
            exact ⟨⟨[], rfl⟩, ⟨cs, rfl⟩⟩

theorem ValidUtf8.cut {a b : List UInt8} {x : UInt8} (h : ValidUtf8 (a ++ x :: b))
    (hx : x < 0x80) : ValidUtf8 a ∧ ValidUtf8 b := by
  obtain ⟨cs, hcs⟩ := h
  exact utf8Encode_cut hx cs hcs.symm

end Wahana
