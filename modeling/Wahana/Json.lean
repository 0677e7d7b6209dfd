import Wahana.Utf8

/-!
# JSON arrays of strings

The fragment of JSON in which string lists travel: an encoder with the
escapes and the layout of PHP's pretty printer, and a decoder for arrays
of strings. Both work on characters; `jsonEncode` and `jsonDecode` add
the UTF-8 step on either side, so encoding fails on a string that is not
valid UTF-8 and decoding fails on a text that is not, or that is not such
an array.

The one result is `jsonDecode_jsonEncode`: what was encoded is decoded to
the same strings. The argument follows the text: one escape
(`nextStrChar_escChar`), one string (`parseStr_quoted`), the elements of
an array (`parseElems_elems`).
-/

namespace Wahana

/-! ## Encoding -/

def hex4 (n : Nat) : List Char :=
  [Nat.digitChar (n / 4096 % 16), Nat.digitChar (n / 256 % 16),
   Nat.digitChar (n / 16 % 16), Nat.digitChar (n % 16)]

/-- A UTF-16 code unit as `\uXXXX`. -/
def escUnit (n : Nat) : List Char := '\\' :: 'u' :: hex4 n

/-- The two-character escapes: a character and its letter. -/
def shortEscs : List (Char × Char) :=
  [('"', '"'), ('\\', '\\'), ('/', '/'), ('\x08', 'b'), ('\x0c', 'f'),
   ('\n', 'n'), ('\r', 'r'), ('\t', 't')]

def shortEsc (c : Char) : Option Char := shortEscs.lookup c

/-- A character inside a string literal: a short escape if there is one,
`\u` for the other control characters and for everything beyond ASCII (a
surrogate pair beyond the basic plane), the character itself otherwise. -/
def escChar (c : Char) : List Char :=
  match shortEsc c with
  | some e => ['\\', e]
  | none =>
      if c.toNat < 0x20 then escUnit c.toNat
      else if c.toNat < 0x80 then [c]
      else if c.toNat < 0x10000 then escUnit c.toNat
      else escUnit (0xD800 + (c.toNat - 0x10000) / 1024)
        ++ escUnit (0xDC00 + (c.toNat - 0x10000) % 1024)

def indent : List Char := [' ', ' ', ' ', ' ']

def quoted (cs : List Char) : List Char :=
  '"' :: (cs.flatMap escChar ++ ['"'])

/-- The elements of a non-empty array, one a line. -/
def elems : List (List Char) → List Char
  | [] => []
  | [x] => indent ++ quoted x
  | x :: y :: xs => indent ++ quoted x ++ [',', '\n'] ++ elems (y :: xs)

def prettyArray : List (List Char) → List Char
  | [] => ['[', ']']
  | x :: xs => ['[', '\n'] ++ elems (x :: xs) ++ ['\n', ']']

/-- The text of an array of strings, if every string is valid UTF-8. -/
def jsonEncode (xs : List (List UInt8)) : Option (List UInt8) :=
  (xs.mapM utf8Decode).map fun cs => utf8Encode (prettyArray cs)

/-! ## Decoding -/

def hexVal (c : Char) : Option Nat :=
  if '0' ≤ c ∧ c ≤ '9' then some (c.toNat - '0'.toNat)
  else if 'a' ≤ c ∧ c ≤ 'f' then some (c.toNat - 'a'.toNat + 10)
  else if 'A' ≤ c ∧ c ≤ 'F' then some (c.toNat - 'A'.toNat + 10)
  else none

/-- A `\u` escape at the front: the code unit and what follows it. -/
def nextUnit : List Char → Option (Nat × List Char)
  | '\\' :: 'u' :: a :: b :: c :: d :: r => do
      let a ← hexVal a
      let b ← hexVal b
      let c ← hexVal c
      let d ← hexVal d
      pure (a * 4096 + b * 256 + c * 16 + d, r)
  | _ => none

def unescape (e : Char) : Option Char := (shortEscs.map Prod.swap).lookup e

/-- The next character of a string literal and what follows it; the
closing quote is the character `none`. -/
def nextStrChar : List Char → Option (Option Char × List Char)
  | [] => none
  | c :: r =>
      if c = '"' then some (none, r)
      else if c = '\\' then
        match nextUnit (c :: r) with
        | some (n, r₁) =>
            if 0xD800 ≤ n ∧ n < 0xDC00 then
              -- a high surrogate must be followed by a low one
              match nextUnit r₁ with
              | some (m, r₂) =>
                  if 0xDC00 ≤ m ∧ m < 0xE000 then
                    some (some (Char.ofNat (0x10000 + (n - 0xD800) * 1024 + (m - 0xDC00))), r₂)
                  else none
              | none => none
            else if 0xDC00 ≤ n ∧ n < 0xE000 then none
            else some (some (Char.ofNat n), r₁)
        | none =>
            match r with
            | [] => none
            | e :: r₁ => (unescape e).map fun d => (some d, r₁)
      else if c.toNat < 0x20 then none
      else some (some c, r)

def parseStr : (fuel : Nat) → List Char → Option (List Char × List Char)
  | 0, _ => none
  | fuel + 1, s =>
      match nextStrChar s with
      | none => none
      | some (none, r) => some ([], r)
      | some (some c, r) => (parseStr fuel r).map fun x => (c :: x.1, x.2)

def skipWs (s : List Char) : List Char :=
  s.dropWhile fun c => c = ' ' || c = '\t' || c = '\n' || c = '\r'

/-- The elements of an array up to its closing bracket. -/
def parseElems : (fuel : Nat) → List Char → Option (List (List Char) × List Char)
  | fuel + 1, '"' :: r =>
      match parseStr r.length r with
      | none => none
      | some (x, r₁) =>
          match skipWs r₁ with
          | ',' :: r₂ => (parseElems fuel (skipWs r₂)).map fun xs => (x :: xs.1, xs.2)
          | ']' :: r₂ => some ([x], r₂)
          | _ => none
  | _, _ => none

def parseArray (s : List Char) : Option (List (List Char)) :=
  match skipWs s with
  | '[' :: r =>
      match skipWs r with
      | ']' :: r₁ => if skipWs r₁ = [] then some [] else none
      | r₁ =>
          match parseElems s.length r₁ with
          | some (xs, r₂) => if skipWs r₂ = [] then some xs else none
          | none => none
  | _ => none

/-- The strings of a JSON array of strings. -/
def jsonDecode (t : List UInt8) : Option (List (List UInt8)) := do
  let cs ← utf8Decode t
  let xs ← parseArray cs
  pure (xs.map utf8Encode)

/-! ## One character -/

theorem hexVal_digitChar {n : Nat} (h : n < 16) : hexVal (Nat.digitChar n) = some n := by
  revert n; decide

theorem nextUnit_escUnit {n : Nat} (h : n < 0x10000) (r : List Char) :
    nextUnit (escUnit n ++ r) = some (n, r) := by
  have h₁ := hexVal_digitChar (n := n / 4096 % 16) (by omega)
  have h₂ := hexVal_digitChar (n := n / 256 % 16) (by omega)
  have h₃ := hexVal_digitChar (n := n / 16 % 16) (by omega)
  have h₄ := hexVal_digitChar (n := n % 16) (by omega)
  simp only [escUnit, hex4, List.cons_append, List.nil_append, nextUnit, h₁, h₂, h₃, h₄]
  simp only [Option.bind_eq_bind, Option.bind_some, Option.pure_def, Option.some.injEq,
    Prod.mk.injEq, and_true]
  omega

/-- A character is no surrogate. -/
theorem toNat_scalar (c : Char) :
    c.toNat < 0xD800 ∨ 0xE000 ≤ c.toNat ∧ c.toNat < 0x110000 := by
  have hvalid := c.valid
  have hval : c.val.toNat = c.toNat := rfl
  simp only [UInt32.isValidChar, Nat.isValidChar] at hvalid
  omega

theorem nextStrChar_escUnit {c : Char} (h : c.toNat < 0x10000) (r : List Char) :
    nextStrChar (escUnit c.toNat ++ r) = some (some c, r) := by
  have hunit := nextUnit_escUnit h r
  have hscalar := toNat_scalar c
  simp only [escUnit, List.cons_append] at hunit ⊢
  rw [nextStrChar, if_neg (by decide), if_pos rfl, hunit]
  simp only
  rw [if_neg (by omega), if_neg (by omega), Char.ofNat_toNat]

theorem nextStrChar_escPair {c : Char} (h : 0x10000 ≤ c.toNat) (r : List Char) :
    nextStrChar (escUnit (0xD800 + (c.toNat - 0x10000) / 1024)
      ++ escUnit (0xDC00 + (c.toNat - 0x10000) % 1024) ++ r) = some (some c, r) := by
  have hscalar := toNat_scalar c
  have hhi := nextUnit_escUnit (n := 0xD800 + (c.toNat - 0x10000) / 1024) (by omega)
    (escUnit (0xDC00 + (c.toNat - 0x10000) % 1024) ++ r)
  have hlo := nextUnit_escUnit (n := 0xDC00 + (c.toNat - 0x10000) % 1024) (by omega) r
  rw [List.append_assoc]
  generalize hx : escUnit (0xDC00 + (c.toNat - 0x10000) % 1024) ++ r = x at hhi hlo
  simp only [escUnit, List.cons_append] at hhi ⊢
  rw [nextStrChar, if_neg (by decide), if_pos rfl, hhi]
  simp only
  rw [if_pos (by omega), hlo]
  simp only
  rw [if_pos (by omega)]
  have hback : 0x10000 + (0xD800 + (c.toNat - 0x10000) / 1024 - 0xD800) * 1024
      + (0xDC00 + (c.toNat - 0x10000) % 1024 - 0xDC00) = c.toNat := by omega
  rw [hback, Char.ofNat_toNat]

theorem nextStrChar_short {e d : Char} (hu : e ≠ 'u') (he : unescape e = some d)
    (r : List Char) : nextStrChar ('\\' :: e :: r) = some (some d, r) := by
  have hunit : nextUnit ('\\' :: e :: r) = none := by
    unfold nextUnit
    split
    · rename_i heq
      simp only [List.cons.injEq, true_and] at heq
      exact absurd heq.1 hu
    · rfl
  rw [nextStrChar, if_neg (by decide), if_pos rfl, hunit]
  simp [he]

theorem unescape_shortEsc {c e : Char} (h : shortEsc c = some e) :
    e ≠ 'u' ∧ unescape e = some c := by
  have htable : ∀ x ∈ shortEscs, x.2 ≠ 'u' ∧ unescape x.2 = some x.1 := by decide
  obtain ⟨l₁, l₂, hmem, -⟩ := List.lookup_eq_some_iff.mp h
  exact htable (c, e) (by rw [hmem]; simp)

theorem nextStrChar_plain {c : Char} (hs : shortEsc c = none) (h : ¬ c.toNat < 0x20)
    (r : List Char) : nextStrChar (c :: r) = some (some c, r) := by
  have hq : c ≠ '"' := by rintro rfl; revert hs; decide
  have hb : c ≠ '\\' := by rintro rfl; revert hs; decide
  rw [nextStrChar.eq_def]
  simp only
  rw [if_neg hq, if_neg hb, if_neg h]

theorem nextStrChar_escChar (c : Char) (r : List Char) :
    nextStrChar (escChar c ++ r) = some (some c, r) := by
  unfold escChar
  split
  · rename_i e he
    obtain ⟨hu, hback⟩ := unescape_shortEsc he
    exact nextStrChar_short hu hback r
  · rename_i hs
    split
    · exact nextStrChar_escUnit (by omega) r
    · split
      · exact nextStrChar_plain hs ‹_› r
      · split
        · exact nextStrChar_escUnit ‹_› r
        · exact nextStrChar_escPair (by omega) r

/-! ## Strings and arrays -/

theorem escChar_ne_nil (c : Char) : 0 < (escChar c).length := by
  unfold escChar
  repeat' split
  all_goals simp [escUnit]

theorem parseStr_quoted (r : List Char) : ∀ (cs : List Char) {fuel : Nat},
    cs.length < fuel → parseStr fuel (cs.flatMap escChar ++ '"' :: r) = some (cs, r)
  | [], fuel + 1, _ => by simp [parseStr, nextStrChar]
  | c :: cs, fuel + 1, h => by
      have ih := @parseStr_quoted r cs fuel (by simpa using h)
      rw [List.flatMap_cons, List.append_assoc, parseStr, nextStrChar_escChar]
      simp only
      rw [ih]
      rfl

theorem length_le_length_flatMap_escChar : ∀ cs : List Char,
    cs.length ≤ (cs.flatMap escChar).length
  | [] => Nat.le_refl 0
  | c :: cs => by
      have ih := length_le_length_flatMap_escChar cs
      have hpos := escChar_ne_nil c
      rw [List.flatMap_cons, List.length_append, List.length_cons]
      omega

theorem parseStr_text (cs r : List Char) :
    parseStr (cs.flatMap escChar ++ '"' :: r).length (cs.flatMap escChar ++ '"' :: r)
      = some (cs, r) := by
  refine parseStr_quoted r cs ?_
  have := length_le_length_flatMap_escChar cs
  rw [List.length_append, List.length_cons]
  omega

theorem skipWs_quoted (cs r : List Char) :
    skipWs (indent ++ quoted cs ++ r) = '"' :: (cs.flatMap escChar ++ '"' :: r) := by
  rw [quoted, List.append_assoc, List.cons_append, List.append_assoc]
  rfl

theorem parseElems_elems (r : List Char) : ∀ (x : List Char) (xs : List (List Char)) {fuel : Nat},
    xs.length < fuel →
      parseElems fuel (skipWs (elems (x :: xs) ++ ['\n', ']'] ++ r)) = some (x :: xs, r)
  | x, [], fuel + 1, _ => by
      have hstr := parseStr_text x (['\n', ']'] ++ r)
      have hskip : skipWs (elems [x] ++ ['\n', ']'] ++ r)
          = '"' :: (x.flatMap escChar ++ '"' :: (['\n', ']'] ++ r)) := by
        rw [elems, List.append_assoc, skipWs_quoted]
      rw [hskip, parseElems, hstr]
      rfl
  | x, y :: ys, fuel + 1, h => by
      have ih := @parseElems_elems r y ys fuel (by simpa using h)
      have hstr := parseStr_text x ([',', '\n'] ++ (elems (y :: ys) ++ ['\n', ']'] ++ r))
      have hskip : skipWs (elems (x :: y :: ys) ++ ['\n', ']'] ++ r)
          = '"' :: (x.flatMap escChar
              ++ '"' :: ([',', '\n'] ++ (elems (y :: ys) ++ ['\n', ']'] ++ r))) := by
        rw [elems, List.append_assoc, List.append_assoc, List.append_assoc, skipWs_quoted,
          List.append_assoc]
      have hcomma : skipWs ([',', '\n'] ++ (elems (y :: ys) ++ ['\n', ']'] ++ r))
          = ',' :: '\n' :: (elems (y :: ys) ++ ['\n', ']'] ++ r) := rfl
      have hnl : skipWs ('\n' :: (elems (y :: ys) ++ ['\n', ']'] ++ r))
          = skipWs (elems (y :: ys) ++ ['\n', ']'] ++ r) := rfl
      rw [hskip, parseElems, hstr]
      simp only
      rw [hcomma]
      simp only
      rw [hnl, ih]
      rfl

theorem length_le_length_elems : ∀ xs : List (List Char), xs.length ≤ (elems xs).length
  | [] => Nat.le_refl 0
  | [x] => by simp [elems, quoted, indent]
  | x :: y :: xs => by
      have ih := length_le_length_elems (y :: xs)
      simp only [elems, quoted, List.length_append, List.length_cons] at ih ⊢
      omega

theorem parseArray_prettyArray : ∀ xs : List (List Char),
    parseArray (prettyArray xs) = some xs
  | [] => rfl
  | x :: xs => by
      have hopen : skipWs (prettyArray (x :: xs))
          = '[' :: '\n' :: (elems (x :: xs) ++ ['\n', ']']) := rfl
      have hnl : skipWs ('\n' :: (elems (x :: xs) ++ ['\n', ']']))
          = skipWs (elems (x :: xs) ++ ['\n', ']'] ++ []) := by
        rw [List.append_nil]; rfl
      obtain ⟨t, ht⟩ : ∃ t, skipWs (elems (x :: xs) ++ ['\n', ']'] ++ []) = '"' :: t := by
        cases xs with
        | nil => exact ⟨_, rfl⟩
        | cons y ys => exact ⟨_, rfl⟩
      have hlen : xs.length < (prettyArray (x :: xs)).length := by
        have := length_le_length_elems (x :: xs)
        simp only [prettyArray, List.length_append, List.length_cons] at this ⊢
        omega
      have helems := parseElems_elems [] x xs hlen
      rw [ht] at helems
      rw [parseArray, hopen]
      simp only
      rw [hnl, ht]
      show (match parseElems (prettyArray (x :: xs)).length ('"' :: t) with
        | some (xs, r₂) => if skipWs r₂ = [] then some xs else none
        | none => none) = some (x :: xs)
      rw [helems]
      rfl

theorem map_utf8Encode_of_mapM : ∀ {xs : List (List UInt8)} {css : List (List Char)},
    xs.mapM utf8Decode = some css → css.map utf8Encode = xs
  | [], css, h => by
      obtain rfl : css = [] := by simpa [eq_comm] using h
      rfl
  | x :: xs, css, h => by
      rw [List.mapM_cons] at h
      obtain ⟨cs, hcs, h⟩ := Option.bind_eq_some_iff.mp h
      obtain ⟨css', hcss', h⟩ := Option.bind_eq_some_iff.mp h
      obtain rfl := Option.some.inj h
      rw [List.map_cons, map_utf8Encode_of_mapM hcss', ← utf8Decode_eq_some.mp hcs]

theorem jsonDecode_jsonEncode {xs : List (List UInt8)} {t : List UInt8}
    (h : jsonEncode xs = some t) : jsonDecode t = some xs := by
  obtain ⟨css, hcss, rfl⟩ := Option.map_eq_some_iff.mp h
  rw [jsonDecode, utf8Decode_encode]
  simp [parseArray_prettyArray, map_utf8Encode_of_mapM hcss]

/-- Only valid UTF-8 is encoded. -/
theorem validUtf8_of_jsonEncode {xs : List (List UInt8)} {t : List UInt8}
    (h : jsonEncode xs = some t) : ∀ x ∈ xs, ValidUtf8 x := by
  obtain ⟨css, hcss, -⟩ := Option.map_eq_some_iff.mp h
  intro x hx
  rw [← map_utf8Encode_of_mapM hcss] at hx
  obtain ⟨cs, -, rfl⟩ := List.mem_map.mp hx
  exact ⟨cs, rfl⟩

theorem exists_mapM_utf8Decode : ∀ {xs : List (List UInt8)}, (∀ x ∈ xs, ValidUtf8 x) →
    ∃ css, xs.mapM utf8Decode = some css
  | [], _ => ⟨[], rfl⟩
  | x :: xs, h => by
      obtain ⟨cs, rfl⟩ := h x (by simp)
      obtain ⟨css, hcss⟩ := exists_mapM_utf8Decode fun y hy => h y (List.mem_cons_of_mem _ hy)
      exact ⟨cs :: css, by simp [List.mapM_cons, utf8Decode_encode, hcss]⟩

theorem exists_jsonEncode {xs : List (List UInt8)} (h : ∀ x ∈ xs, ValidUtf8 x) :
    ∃ t, jsonEncode xs = some t := by
  obtain ⟨css, hcss⟩ := exists_mapM_utf8Decode h
  exact ⟨_, by rw [jsonEncode, hcss]; rfl⟩

end Wahana
