import Mathlib.Data.List.TakeWhile
import Wahana.Bytes

/-!
# Redis: quoted arguments

`sdssplitargs` of `sds.c` splits a line typed by hand, or received as an
inline request, into its arguments: words between blanks, where a word may
have double quotes with escapes or single quotes in it. `sdscatrepr` is the
way back, the text of one argument in double quotes.

A line of arguments quoted by `sdscatrepr` is split into exactly those
arguments, whatever bytes they hold (`sdssplitargs_reprLine`). The line is a C
string: `sdssplitargs` stops at the first zero byte, which a quoted argument
never contains.
-/

namespace Wahana

/-! ## The source -/

/-- `isprint` in the C locale. -/
def isPrint (b : UInt8) : Bool := 32 ≤ b && b ≤ 126

def isHexDigit (c : UInt8) : Bool :=
  (ch '0' ≤ c && c ≤ ch '9') || (ch 'a' ≤ c && c ≤ ch 'f') || (ch 'A' ≤ c && c ≤ ch 'F')

def hexDigitToInt (c : UInt8) : Nat :=
  if ch '0' ≤ c ∧ c ≤ ch '9' then c.toNat - 48
  else if ch 'a' ≤ c ∧ c ≤ ch 'f' then c.toNat - 87
  else if ch 'A' ≤ c ∧ c ≤ ch 'F' then c.toNat - 55
  else 0

/-- A digit of `%02x`. -/
def hexDigit (d : Nat) : UInt8 := if d < 10 then (48 + d).toUInt8 else (87 + d).toUInt8

/-- One byte of `sdscatrepr`. -/
def reprByte (b : UInt8) : Bytes :=
  if b = ch '\\' ∨ b = ch '"' then [ch '\\', b]
  else if b = ch '\n' then [ch '\\', ch 'n']
  else if b = ch '\r' then [ch '\\', ch 'r']
  else if b = ch '\t' then [ch '\\', ch 't']
  else if b = 7 then [ch '\\', ch 'a']
  else if b = 8 then [ch '\\', ch 'b']
  else if isPrint b then [b]
  else [ch '\\', ch 'x', hexDigit (b.toNat / 16), hexDigit (b.toNat % 16)]

def sdscatrepr (s p : Bytes) : Bytes :=
  s ++ ch '"' :: p.flatMap reprByte ++ [ch '"']

/-- The byte of `xHH`. -/
def hexEscape : Bytes → Option UInt8
  | x :: h :: l :: _ =>
      if x = ch 'x' ∧ isHexDigit h ∧ isHexDigit l then
        some (hexDigitToInt h * 16 + hexDigitToInt l).toUInt8
      else none
  | _ => none

/-- The `switch` on the character after a backslash. -/
def unescapeChar (c : UInt8) : UInt8 :=
  if c = ch 'n' then ch '\n'
  else if c = ch 'r' then ch '\r'
  else if c = ch 't' then ch '\t'
  else if c = ch 'b' then 8
  else if c = ch 'a' then 7
  else c

def apostrophe : UInt8 := 39

/-- `inq` and `insq` -/
inductive Quotes where
  | none
  | double
  | single
  deriving DecidableEq, Repr

/-- A closing quote must be followed by a space or nothing at all. -/
def closes (p : Bytes) : Bool := p.head?.all isSpace

/-- `sdscatlen(current,p,1)` before the rest of a token. -/
def catByte (c : UInt8) : Option (Bytes × Bytes) → Option (Bytes × Bytes) :=
  Option.map fun t => (c :: t.1, t.2)

@[simp] theorem catByte_some (c : UInt8) (t r : Bytes) :
    catByte c (some (t, r)) = some (c :: t, r) := rfl

/-- The loop that gets a token: its bytes and what follows it. The end of
the list is the zero byte of the C string; `none` is `goto err`. -/
def getToken : Quotes → Bytes → Option (Bytes × Bytes)
  | .double, [] => none
  | .double, c :: p =>
      if c = ch '\\' ∧ (hexEscape p).isSome then
        catByte ((hexEscape p).getD 0) (getToken .double (p.drop 3))
      else if c = ch '\\' ∧ p ≠ [] then
        catByte (unescapeChar (p.headD 0)) (getToken .double (p.drop 1))
      else if c = ch '"' then if closes p then some ([], p) else none
      else catByte c (getToken .double p)
  | .single, [] => none
  | .single, c :: p =>
      if c = ch '\\' ∧ p.head? = some apostrophe then
        catByte apostrophe (getToken .single (p.drop 1))
      else if c = apostrophe then if closes p then some ([], p) else none
      else catByte c (getToken .single p)
  | .none, [] => some ([], [])
  | .none, c :: p =>
      if c = ch ' ' ∨ c = ch '\n' ∨ c = ch '\r' ∨ c = ch '\t' then some ([], p)
      else if c = ch '"' then getToken .double p
      else if c = apostrophe then getToken .single p
      else catByte c (getToken .none p)
termination_by _ p => p.length

theorem length_of_catByte {c : UInt8} {o : Option (Bytes × Bytes)} {t r : Bytes} {n : Nat}
    (h : catByte c o = some (t, r)) (ho : ∀ {t r}, o = some (t, r) → r.length ≤ n) :
    r.length ≤ n := by
  obtain ⟨⟨t', r'⟩, ho', heq⟩ := Option.map_eq_some_iff.mp h
  cases heq
  exact ho ho'

/-- A token takes at least one byte of the line. -/
theorem length_getToken {q : Quotes} {s t r : Bytes} (h : getToken q s = some (t, r)) :
    r.length ≤ s.length - 1 := by
  fun_induction getToken q s generalizing t r with
  | case1 | case5 | case7 | case10 => cases h
  | case4 | case9 | case12 | case13 => cases h; simp
  | case14 p _ ih | case15 p _ _ ih =>
      have := ih h
      simp only [List.length_cons]
      omega
  | _ =>
      have := length_of_catByte h (by assumption)
      simp only [List.length_cons, List.length_drop] at this ⊢
      omega

/-- `sdssplitargs` on what is left of the line: blanks are skipped, then a
token is read. -/
def splitFrom : Bytes → Option (List Bytes)
  | [] => some []
  | c :: p =>
      if isSpace c then splitFrom p
      else
        match _htoken : getToken .none (c :: p) with
        | none => none
        | some (current, rest) => (splitFrom rest).map (current :: ·)
termination_by line => line.length
decreasing_by
  · simp
  · have := length_getToken _htoken
    simp only [List.length_cons] at this ⊢
    omega

/-- The line is a C string. -/
def sdssplitargs (line : Bytes) : Option (List Bytes) :=
  splitFrom (line.takeWhile (· != 0))

/-! ## Quoting and splitting -/

theorem hexDigit_read : ∀ d < 16, isHexDigit (hexDigit d) = true
    ∧ hexDigitToInt (hexDigit d) = d := by
  decide

theorem hexEscape_of_ne {x : UInt8} (hx : x ≠ ch 'x') (s : Bytes) : hexEscape (x :: s) = none := by
  rcases s with _ | ⟨h, _ | ⟨l, s⟩⟩
  · rfl
  · rfl
  · rw [hexEscape, if_neg fun hand => hx hand.1]

theorem hexEscape_hexDigits (b : UInt8) (s : Bytes) :
    hexEscape (ch 'x' :: hexDigit (b.toNat / 16) :: hexDigit (b.toNat % 16) :: s) = some b := by
  have hb : b.toNat < 256 := b.toNat_lt
  obtain ⟨hhi, hhi'⟩ := hexDigit_read (b.toNat / 16) (by omega)
  obtain ⟨hlo, hlo'⟩ := hexDigit_read (b.toNat % 16) (by omega)
  rw [hexEscape, if_pos ⟨rfl, hhi, hlo⟩, hhi', hlo',
    show b.toNat / 16 * 16 + b.toNat % 16 = b.toNat by omega]
  simp

theorem getToken_escape {x : UInt8} (hx : x ≠ ch 'x') (s : Bytes) :
    getToken .double (ch '\\' :: x :: s) = catByte (unescapeChar x) (getToken .double s) := by
  rw [getToken, hexEscape_of_ne hx, if_neg (by simp), if_pos ⟨rfl, by simp⟩]
  rfl

theorem getToken_hex (b : UInt8) (s : Bytes) :
    getToken .double (ch '\\' :: ch 'x' :: hexDigit (b.toNat / 16) :: hexDigit (b.toNat % 16) :: s)
      = catByte b (getToken .double s) := by
  rw [getToken, hexEscape_hexDigits, if_pos ⟨rfl, rfl⟩]
  rfl

theorem getToken_byte {c : UInt8} (hc : c ≠ ch '\\') (hc' : c ≠ ch '"') (s : Bytes) :
    getToken .double (c :: s) = catByte c (getToken .double s) := by
  rw [getToken, if_neg (by simp [hc]), if_neg (by simp [hc]), if_neg hc']

/-- A byte quoted by `reprByte` is read back, whatever follows it. -/
theorem getToken_reprByte (b : UInt8) (s : Bytes) :
    getToken .double (reprByte b ++ s) = catByte b (getToken .double s) := by
  by_cases hq : b = ch '\\' ∨ b = ch '"'
  · rw [reprByte, if_pos hq]
    rcases hq with rfl | rfl
    · exact getToken_escape (by decide) s
    · exact getToken_escape (by decide) s
  · rw [reprByte, if_neg hq]
    rw [not_or] at hq
    split_ifs with h1 h2 h3 h4 h5 h6
    · subst h1; exact getToken_escape (by decide) s
    · subst h2; exact getToken_escape (by decide) s
    · subst h3; exact getToken_escape (by decide) s
    · subst h4; exact getToken_escape (by decide) s
    · subst h5; exact getToken_escape (by decide) s
    · exact getToken_byte hq.1 hq.2 s
    · exact getToken_hex b s

theorem getToken_reprs : ∀ (p s : Bytes),
    getToken .double (p.flatMap reprByte ++ s) = p.foldr catByte (getToken .double s)
  | [], s => rfl
  | b :: p, s => by
      rw [List.flatMap_cons, List.append_assoc, getToken_reprByte, getToken_reprs p s,
        List.foldr_cons]

theorem foldr_catByte (p t r : Bytes) : p.foldr catByte (some (t, r)) = some (p ++ t, r) := by
  induction p with
  | nil => rfl
  | cons b p ih => rw [List.foldr_cons, ih, catByte_some]; rfl

/-- A quoted argument is one token. -/
theorem getToken_sdscatrepr (p : Bytes) {s : Bytes} (hs : closes s = true) :
    getToken .none (sdscatrepr [] p ++ s) = some (p, s) := by
  rw [sdscatrepr]
  simp only [List.nil_append, List.cons_append, List.append_assoc]
  rw [getToken, if_neg (by decide), if_pos rfl, getToken_reprs, getToken]
  simp [hs, foldr_catByte, ch]

theorem splitFrom_blank {c : UInt8} (hc : isSpace c = true) (s : Bytes) :
    splitFrom (c :: s) = splitFrom s := by
  rw [splitFrom, if_pos hc]

theorem splitFrom_token {c : UInt8} {p t r : Bytes} (hc : isSpace c = false)
    (h : getToken .none (c :: p) = some (t, r)) :
    splitFrom (c :: p) = (splitFrom r).map (t :: ·) := by
  rw [splitFrom, if_neg (by simp [hc])]
  split
  · rename_i heq
    rw [h] at heq
    cases heq
  · rename_i heq
    rw [h] at heq
    cases heq
    rfl

/-- The quoted arguments of a command in one line. -/
def reprLine : List Bytes → Bytes
  | [] => []
  | [a] => sdscatrepr [] a
  | a :: args => sdscatrepr [] a ++ ch ' ' :: reprLine args

theorem splitFrom_sdscatrepr (p : Bytes) {s : Bytes} (hs : closes s = true) :
    splitFrom (sdscatrepr [] p ++ s) = (splitFrom s).map (p :: ·) :=
  splitFrom_token (by decide) (getToken_sdscatrepr p hs)

theorem splitFrom_reprLine : ∀ args : List Bytes, splitFrom (reprLine args) = some args
  | [] => by rw [reprLine, splitFrom]
  | [a] => by
      have := splitFrom_sdscatrepr a (s := []) rfl
      rwa [List.append_nil, splitFrom] at this
  | a :: b :: args => by
      rw [reprLine, splitFrom_sdscatrepr a rfl, splitFrom_blank (by decide),
        splitFrom_reprLine (b :: args)]
      · rfl
      · simp

theorem hexDigit_ne_zero : ∀ d < 16, 0 ≠ hexDigit d := by
  decide

theorem zero_notMem_reprByte (b : UInt8) : 0 ∉ reprByte b := by
  have hb : b.toNat < 256 := b.toNat_lt
  unfold reprByte
  split_ifs with hq h1 h2 h3 h4 h5 h6
  · rcases hq with rfl | rfl <;> decide
  · decide
  · decide
  · decide
  · decide
  · decide
  · rintro h0
    rw [← List.mem_singleton.mp h0] at h6
    cases h6
  · simp only [List.mem_cons, hexDigit_ne_zero _ (by omega : b.toNat / 16 < 16),
      hexDigit_ne_zero _ (by omega : b.toNat % 16 < 16), List.not_mem_nil]
    decide

theorem zero_notMem_reprLine : ∀ args : List Bytes, 0 ∉ reprLine args
  | [] => by simp [reprLine]
  | [a] => by
      simp [reprLine, sdscatrepr, zero_notMem_reprByte]
      decide
  | a :: b :: args => by
      have ih := zero_notMem_reprLine (b :: args)
      rw [reprLine]
      · simp [sdscatrepr, zero_notMem_reprByte, ih]
        decide
      · simp

/-- **Quoting and splitting.** A line of quoted arguments is split into
exactly those arguments. -/
theorem sdssplitargs_reprLine (args : List Bytes) : sdssplitargs (reprLine args) = some args := by
  have hline : (reprLine args).takeWhile (· != 0) = reprLine args := by
    rw [List.takeWhile_eq_self_iff]
    intro b hb
    have : b ≠ 0 := fun h0 => zero_notMem_reprLine args (h0 ▸ hb)
    simpa using this
  rw [sdssplitargs, hline, splitFrom_reprLine]

example : sdssplitargs (bytes "set \"a\\x41 b\"  'it\\'s' x\"y z\"")
    = some [bytes "set", bytes "aA b", bytes "it's", bytes "xy z"] := by
  decide +kernel

end Wahana
