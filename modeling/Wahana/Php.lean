import Mathlib.Logic.Function.Basic
import Wahana.Bytes
import Wahana.Json

/-!
# The PHP and Redis calls of the converters

A file handle is the bytes still to be read and the end-of-file flag. The
flag is set by a read that looked for more bytes and found none: a line
with its line feed leaves it clear even when nothing follows, so `feof`
lags one `fgets` behind the data.

A PHP value that is a string or `null` is an `Option Bytes`.
-/

namespace Wahana

/-! ## Files -/

structure Stream where
  rest : Bytes
  eof : Bool
  deriving DecidableEq, Repr

def fopen (content : Bytes) : Stream := ⟨content, false⟩

def feof (fn : Stream) : Bool := fn.eof

/-- Split off the first line: its bytes, whether it ended in a line feed,
and what follows. -/
def takeLine : Bytes → Bytes × Bool × Bytes
  | [] => ([], false, [])
  | b :: s =>
      if b = ch '\n' then ([b], true, s)
      else
        let x := takeLine s
        (b :: x.1, x.2.1, x.2.2)

theorem takeLine_line {l : Bytes} (hl : ch '\n' ∉ l) (s : Bytes) :
    takeLine (l ++ ch '\n' :: s) = (l ++ [ch '\n'], true, s) := by
  induction l with
  | nil => simp [takeLine]
  | cons b l ih =>
      simp only [List.mem_cons, not_or] at hl
      simp [takeLine, Ne.symm hl.1, ih hl.2]

theorem takeLine_last {l : Bytes} (hl : ch '\n' ∉ l) : takeLine l = (l, false, []) := by
  induction l with
  | nil => rfl
  | cons b l ih =>
      simp only [List.mem_cons, not_or] at hl
      simp [takeLine, Ne.symm hl.1, ih hl.2]

/-- The next line including its line feed, or `none` (PHP's `false`) when
no byte is left. -/
def fgets (fn : Stream) : Option Bytes × Stream :=
  match fn.rest with
  | [] => (none, ⟨[], true⟩)
  | b :: s =>
      let x := takeLine (b :: s)
      (some x.1, ⟨x.2.2, fn.eof || !x.2.1⟩)

/-! ## Regular expressions -/

def pregMatchAll (regex : Pattern UInt8) (subject : Bytes) : List (Match UInt8) :=
  regex.matchAll subject

/-- `$matches[$g]`, in the default `PREG_PATTERN_ORDER`. -/
def patternOrder (ms : List (Match UInt8)) (g : Nat) : List Bytes :=
  ms.map fun m => m.group g

/-! ## Redis -/

/-- The server's keys. -/
abbrev Redis := String → Option Bytes

namespace Redis

def set (r : Redis) (key : String) (value : Bytes) : Redis :=
  Function.update r key (some value)

def get (r : Redis) (key : String) : Option Bytes := r key

def del (r : Redis) (key : String) : Redis :=
  Function.update r key none

@[simp] theorem get_set (r : Redis) (key : String) (value : Bytes) :
    (r.set key value).get key = some value := by
  simp [set, get]

end Redis

/-! ## Strings -/

/-- A string as a condition: only `""` and `"0"` are false. -/
def truthy (s : Bytes) : Bool := s != [] && s != [ch '0']

theorem truthy_iff {s : Bytes} : truthy s = true ↔ s ≠ [] ∧ s ≠ [ch '0'] := by
  simp [truthy]

theorem truthy_of_mem {a : UInt8} {s : Bytes} (h : a ∈ s) (ha : a ≠ ch '0') :
    truthy s = true := by
  rw [truthy_iff]
  refine ⟨List.ne_nil_of_mem h, ?_⟩
  intro hs
  rw [hs] at h
  exact ha (List.mem_singleton.mp h)

end Wahana
