import Wahana.Php
import Wahana.RedisReply

/-!
# Predis: requests and replies

`StreamConnection` of the Predis library: the buffer of a request and the
reader of a reply. A socket is the packets that have arrived and have not
been read. As long as the connection is open, more of them may come, and
where a PHP function would block for them the model answers `wait`. Once it
has `ended`, because the peer has closed it or the time-out of the socket is
over, `fgets` and `fread` return what is left.
-/

namespace Wahana

namespace Predis

/-! ## Writing -/

/-- The buffer built by `writeRequest`. -/
def writeRequest (commandID : Bytes) (arguments : List Bytes) : Bytes :=
  ch '*' :: decimal (arguments.length + 1) ++ crlf ++ bulk commandID ++ arguments.flatMap bulk

/-! ## Sockets -/

/-- The packets that have arrived. -/
abbrev Socket := List Bytes

namespace Socket

/-- A line; of an ended connection also the part of a line. PHP's `false`
is the empty string. -/
def fgets (ended : Bool) : Socket → Option (Bytes × Socket)
  | [] => if ended then some ([], []) else none
  | packet :: socket =>
      let (line, complete, rest) := takeLine packet
      if complete then some (line, rest :: socket)
      else (fgets ended socket).map fun x => (line ++ x.1, x.2)

/-- At most `length` bytes of what is there, and at least one unless the
connection has ended. -/
def fread (ended : Bool) (length : Nat) : Socket → Option (Bytes × Socket)
  | [] => if ended then some ([], []) else none
  | [] :: socket => fread ended length socket
  | packet :: socket => some (packet.take length, packet.drop length :: socket)

end Socket

/-! ## Reading -/

/-- What `read` returns to PHP. -/
inductive Response where
  | status (payload : Bytes)
  | error (message : Bytes)
  | integer (value : Int)
  | string (value : Bytes)
  | null
  | array (values : List Response)

inductive ReadError where
  | wait
  | connection (message : String)
  | protocol (sign : UInt8)
  deriving DecidableEq, Repr

def lineError : ReadError := .connection "Error while reading line from the server."

def bytesError : ReadError := .connection "Error while reading bytes from the server."

/-- `(int) $payload` of the text of an integer. -/
def intCast (s : Bytes) : Int :=
  match s with
  | b :: digits =>
      if b = ch '-' then -(digitsValue 0 (digits.takeWhile isDigit) : Int)
      else digitsValue 0 ((b :: digits).takeWhile isDigit)
  | [] => 0

/-- `$integer == $payload` of a text. -/
def isInteger (s : Bytes) : Bool :=
  match s with
  | b :: digits =>
      if b = ch '-' then !digits.isEmpty && digits.all isDigit else (b :: digits).all isDigit
  | [] => false

/-- The `do` loop of `read` for a bulk reply. Each round reads at least one
byte, so `bytesLeft` rounds are enough; there is none for a length below -1,
with which `fread` fails. -/
def readBytes (ended : Bool) : Nat → Nat → Socket → Except ReadError (Bytes × Socket)
  | 0, _, _ => .error bytesError
  | rounds + 1, bytesLeft, socket =>
      match socket.fread ended (min bytesLeft 4096) with
      | none => .error .wait
      | some (chunk, socket) =>
          if chunk = [] then .error bytesError
          else if bytesLeft - chunk.length > 0 then
            (readBytes ended rounds (bytesLeft - chunk.length) socket).map
              fun x => (chunk ++ x.1, x.2)
          else .ok (chunk, socket)

/-- `for ($i = 0; $i < $count; ++$i)` -/
def readMany (read : Socket → Except ReadError (Response × Socket)) :
    Nat → Socket → Except ReadError (List Response × Socket)
  | 0, socket => .ok ([], socket)
  | count + 1, socket =>
      match read socket with
      | .error e => .error e
      | .ok (first, socket) =>
          match readMany read count socket with
          | .error e => .error e
          | .ok (others, socket) => .ok (first :: others, socket)

/-- The `switch` on the first byte of a reply; `read` is for the replies in
an array. -/
def readSwitch (ended : Bool) (read : Socket → Except ReadError (Response × Socket)) (sign : UInt8)
    (payload : Bytes) (socket : Socket) : Except ReadError (Response × Socket) :=
  if sign = ch '+' then .ok (.status payload, socket)
  else if sign = ch '$' then
    let size := intCast payload
    if size = -1 then .ok (.null, socket)
    else
      match readBytes ended (size + 2).toNat (size + 2).toNat socket with
      | .error e => .error e
      | .ok (bulkData, socket) => .ok (.string (bulkData.take (bulkData.length - 2)), socket)
  else if sign = ch '*' then
    let count := intCast payload
    if count = -1 then .ok (.null, socket)
    else
      match readMany read count.toNat socket with
      | .error e => .error e
      | .ok (multibulk, socket) => .ok (.array multibulk, socket)
  else if sign = ch ':' then
    .ok (if isInteger payload then .integer (intCast payload) else .string payload, socket)
  else if sign = ch '-' then .ok (.error payload, socket)
  else .error (.protocol sign)

/-- `read`; the first argument bounds the nesting of arrays. -/
def read (ended : Bool) : Nat → Socket → Except ReadError (Response × Socket)
  | 0, _ => .error .wait
  | depth + 1, socket =>
      match socket.fgets ended with
      | none => .error .wait
      | some ([], _) => .error lineError
      | some (sign :: line, socket) =>
          readSwitch ended (read ended depth) sign (line.take (line.length - 2)) socket

end Predis

end Wahana
