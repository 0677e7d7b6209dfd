import Mathlib.Data.List.DropRight
import Wahana.RedisNumber

/-!
# Redis: string values and replies

A string value is kept raw, embedded in its object, or, when its text is
that of a number, as the number (`tryObjectEncoding` of `object.c`). The
reply functions of `networking.c` append the bytes of a reply to the output
of a client; here each returns the bytes it appends.

The encoding cannot be seen from outside: an encoded value has the same
text (`decoded_tryObjectEncoding`), and `GET` replies with the text and its
length however the value is kept (`addReplyBulk_eq`).
-/

namespace Wahana

def crlf : Bytes := [ch '\r', ch '\n']

/-- A string behind its length, as both sides of the protocol send it. -/
def bulk (s : Bytes) : Bytes := ch '$' :: decimal s.length ++ crlf ++ s ++ crlf

/-! ## String objects -/

def embstrSizeLimit : Nat := 44

/-- The encodings of a string object. -/
inductive StringObject where
  | raw (s : Bytes)
  | embstr (s : Bytes) (h : s.length ≤ embstrSizeLimit)
  | int (v : Int) (h : IsLongLong v)
  deriving DecidableEq

def createStringObject (s : Bytes) : StringObject :=
  if h : s.length ≤ embstrSizeLimit then .embstr s h else .raw s

/-- `tryObjectEncoding` of an object that holds its text. -/
def encodeText (s : Bytes) : StringObject :=
  match h : (if s.length ≤ 20 then string2ll s else none) with
  | some v => .int v (string2ll_eq_some_iff.mp (by
      by_cases hlen : s.length ≤ 20
      · rwa [if_pos hlen] at h
      · rw [if_neg hlen] at h
        cases h)).1
  | none => createStringObject s

def tryObjectEncoding : StringObject → StringObject
  | .raw s => encodeText s
  | .embstr s _ => encodeText s
  | .int v h => .int v h

/-- The text of `ll2string` in a buffer of `size` bytes. -/
def numberText (size : Nat) (v : Int) : Bytes :=
  let (len, buf) := ll2string (List.replicate size 0) v
  buf.take len

/-- The text of an object: `getDecodedObject`, and what `addReply` sends. -/
def decoded : StringObject → Bytes
  | .raw s => s
  | .embstr s _ => s
  | .int v _ => numberText 32 v

def stringObjectLen : StringObject → Nat
  | .raw s => s.length
  | .embstr s _ => s.length
  | .int v _ => sdigits10 v

/-! ## Replies -/

/-- `addReplyErrorLength`: the error code is added unless the text brings
its own. -/
def addReplyError (s : Bytes) : Bytes :=
  (if s.head? ≠ some (ch '-') then bytes "-ERR " else []) ++ s ++ crlf

/-- `strchr("\r\n", c)`, which also finds the terminator. -/
def inLineEnd (c : UInt8) : Bool := c == ch '\r' || c == ch '\n' || c == 0

/-- `sdstrim(s,"\r\n")` -/
def sdstrim (s : Bytes) : Bytes := (s.dropWhile inLineEnd).rdropWhile inLineEnd

/-- `sdsmapchars(s, "\r\n", "  ", 2)` -/
def sdsmapchars (s : Bytes) : Bytes :=
  s.map fun c => if c = ch '\r' ∨ c = ch '\n' then ch ' ' else c

/-- `addReplyErrorFormat` of the formatted text. -/
def addReplyErrorFormat (s : Bytes) : Bytes := addReplyError (sdsmapchars (sdstrim s))

def sharedBulkhdrLen : Int := 32

/-- The headers of small counts are shared objects. -/
def addReplyLongLongWithPrefix (ll : Int) (sign : UInt8) : Bytes :=
  if (sign = ch '*' ∨ sign = ch '$') ∧ ll < sharedBulkhdrLen ∧ 0 ≤ ll then
    sign :: decimal ll.toNat ++ crlf
  else sign :: numberText 127 ll ++ crlf

def addReplyLongLong (ll : Int) : Bytes :=
  if ll = 0 then bytes ":0\r\n"
  else if ll = 1 then bytes ":1\r\n"
  else addReplyLongLongWithPrefix ll (ch ':')

/-- `addReplyNull` of a connection that speaks the second version. -/
def addReplyNull : Bytes := bytes "$-1\r\n"

/-- `addReplyNullArray` of such a connection. -/
def addReplyNullArray : Bytes := bytes "*-1\r\n"

def addReplyBulk (o : StringObject) : Bytes :=
  addReplyLongLongWithPrefix (stringObjectLen o) (ch '$') ++ decoded o ++ crlf

/-! ## What is sent -/

theorem numberText_eq {size : Nat} (hsize : 21 ≤ size) {v : Int} (hv : IsLongLong v) :
    numberText size v = signed v := by
  have hlen := length_signed_le hv
  simp only [numberText]
  rw [ll2string_eq hv, if_pos (by rw [List.length_replicate]; omega)]
  simp

theorem decoded_int {v : Int} (h : IsLongLong v) : decoded (.int v h) = signed v :=
  numberText_eq (by omega) h

theorem decoded_createStringObject (s : Bytes) : decoded (createStringObject s) = s := by
  rw [createStringObject]
  split <;> rfl

theorem decoded_encodeText (s : Bytes) : decoded (encodeText s) = s := by
  rw [encodeText]
  split
  · rename_i v h
    rw [decoded_int]
    by_cases hlen : s.length ≤ 20
    · rw [if_pos hlen] at h
      exact (string2ll_eq_some_iff.mp h).2.symm
    · rw [if_neg hlen] at h
      cases h
  · exact decoded_createStringObject s

/-- Encoding a value keeps its text. -/
theorem decoded_tryObjectEncoding (o : StringObject) :
    decoded (tryObjectEncoding o) = decoded o := by
  cases o with
  | raw s => exact decoded_encodeText s
  | embstr s h => exact decoded_encodeText s
  | int v h => rfl

theorem stringObjectLen_eq (o : StringObject) : stringObjectLen o = (decoded o).length := by
  cases o with
  | raw s => rfl
  | embstr s h => rfl
  | int v h => rw [decoded_int, stringObjectLen, sdigits10_eq]

theorem addReplyLongLongWithPrefix_eq {ll : Int} (h : IsLongLong ll) (sign : UInt8) :
    addReplyLongLongWithPrefix ll sign = sign :: signed ll ++ crlf := by
  rw [addReplyLongLongWithPrefix]
  split
  · rename_i hs
    rw [signed_of_nonneg hs.2.2, show ll.toNat = ll.natAbs by omega]
  · rw [numberText_eq (by omega) h]

theorem addReplyLongLong_eq {ll : Int} (h : IsLongLong ll) :
    addReplyLongLong ll = ch ':' :: signed ll ++ crlf := by
  rw [addReplyLongLong]
  split_ifs with h0 h1
  · subst h0; decide +kernel
  · subst h1; decide +kernel
  · exact addReplyLongLongWithPrefix_eq h _

theorem addReplyBulk_eq {o : StringObject} (h : ((decoded o).length : Int) ≤ llongMax) :
    addReplyBulk o = bulk (decoded o) := by
  rw [addReplyBulk, stringObjectLen_eq, bulk,
    addReplyLongLongWithPrefix_eq ⟨by simp only [llongMin]; omega, h⟩, signed_natCast]

end Wahana
