import Wahana.RedisReply
import Wahana.RedisSds

/-!
# Redis: the input of a client

`readQueryFromClient` and `processInputBuffer` of `networking.c`. Bytes read
from the socket go to the end of the query buffer; requests are parsed from
its position `qb_pos` on and executed one after another, until what is left
is not a whole request. A request is a multi bulk one, a count and that many
strings of announced length, or a line typed by hand.

The execution of a request is a parameter: `exec` takes the state of the
server and the arguments. The model is for an ordinary client of a server in
its default configuration.
-/

namespace Wahana

def protoIobufLen : Nat := 1024 * 16

def protoInlineMaxSize : Nat := 1024 * 64

def protoMbulkBigArg : Nat := 1024 * 32

/-- `proto-max-bulk-len` -/
def protoMaxBulkLen : Int := 512 * 1024 * 1024

/-- `client-query-buffer-limit` -/
def clientMaxQuerybufLen : Nat := 1024 * 1024 * 1024

/-- `PROTO_REQ_*` -/
inductive ReqType where
  | inline
  | multibulk
  deriving DecidableEq, Repr

/-- The reasons for `setProtocolError`. -/
inductive ProtocolError where
  | tooBigInlineRequest
  | unbalancedQuotes
  | tooBigMbulkCount
  | invalidMbulkCount
  | tooBigBulkCount
  | expectedDollar (got : UInt8)
  | invalidBulkLength
  deriving DecidableEq, Repr

/-- The error reply that goes with it. -/
def ProtocolError.reply : ProtocolError → Bytes
  | tooBigInlineRequest => addReplyError (bytes "Protocol error: too big inline request")
  | unbalancedQuotes => addReplyError (bytes "Protocol error: unbalanced quotes in request")
  | tooBigMbulkCount => addReplyError (bytes "Protocol error: too big mbulk count string")
  | invalidMbulkCount => addReplyError (bytes "Protocol error: invalid multibulk length")
  | tooBigBulkCount => addReplyError (bytes "Protocol error: too big bulk count string")
  | expectedDollar got =>
      addReplyErrorFormat (bytes "Protocol error: expected '$', got '" ++ [got, 39])
  | invalidBulkLength => addReplyError (bytes "Protocol error: invalid bulk length")

/-- What is known of a request that is being read, the output and the flags
of a client. A `bulklen` of `-1` is `none`. -/
structure RedisConn where
  reqtype : Option ReqType
  argv : List Bytes
  multibulklen : Nat
  bulklen : Option Nat
  reply : Bytes
  closeAfterReply : Bool
  closeAsap : Bool
  protocolError : Option ProtocolError
  deriving DecidableEq, Repr

structure RedisClient extends RedisConn where
  querybuf : Bytes
  qbPos : Nat
  deriving DecidableEq, Repr

namespace RedisConn

def start : RedisConn := ⟨none, [], 0, none, [], false, false, none⟩

/-- `addReplyError` and `setProtocolError` -/
def setProtocolError (c : RedisConn) (e : ProtocolError) : RedisConn :=
  { c with reply := c.reply ++ e.reply, closeAfterReply := true, protocolError := some e }

def resetClient (c : RedisConn) : RedisConn :=
  { c with reqtype := none, argv := [], multibulklen := 0, bulklen := none }

/-- No more input of the client is processed. -/
def closed (c : RedisConn) : Bool := c.closeAfterReply || c.closeAsap

end RedisConn

/-- What `processCommand` leaves with the client: the reply, and whether it
returned `C_ERR`, as it does for `QUIT`. -/
structure Outcome where
  reply : Bytes
  quit : Bool

section

variable {σ : Type} (exec : σ → List Bytes → σ × Outcome)

def processCommandAndResetClient (s : σ) (c : RedisConn) : σ × RedisConn :=
  let (s, o) := exec s c.argv
  let c := { c with reply := c.reply ++ o.reply }
  (s, if o.quit then { c with closeAfterReply := true } else c.resetClient)

/-- A request has been read: multibulk processing could see a `<= 0`
length. -/
def requestRead (s : σ) (c : RedisConn) : σ × RedisConn :=
  if c.argv = [] then (s, c.resetClient) else processCommandAndResetClient exec s c

end

/-! ## Parsing -/

def strchr (c : UInt8) : Bytes → Option Nat
  | [] => none
  | b :: s => if b = c then some 0 else if b = 0 then none else (strchr c s).map (· + 1)

/-- The search for the end of a count line: too long without one, not there
yet, or at a position with at least one byte after it. -/
inductive CountLine where
  | tooBig
  | wait
  | line (newline : Nat)
  deriving DecidableEq, Repr

def countLine (rest : Bytes) : CountLine :=
  match strchr (ch '\r') rest with
  | none => if rest.length > protoInlineMaxSize then .tooBig else .wait
  | some newline => if (newline : Int) > (rest.length : Int) - 2 then .wait else .line newline

/-- The number between the first byte and the line end. -/
def countOf (rest : Bytes) (newline : Nat) : Option Int :=
  string2ll ((rest.drop 1).take (newline - 1))

namespace RedisClient

/-- The bytes from `qb_pos` on. -/
def rest (c : RedisClient) : Bytes := c.querybuf.drop c.qbPos

def mapConn (f : RedisConn → RedisConn) (c : RedisClient) : RedisClient :=
  { c with toRedisConn := f c.toRedisConn }

def fail (e : ProtocolError) (c : RedisClient) : RedisClient := c.mapConn (·.setProtocolError e)

/-- `C_OK` is `true`. -/
def processInlineBuffer (c : RedisClient) : Bool × RedisClient :=
  match strchr (ch '\n') c.rest with
  | none =>
      if c.rest.length > protoInlineMaxSize then (false, c.fail .tooBigInlineRequest)
      else (false, c)
  | some newline =>
      let cr := newline ≠ 0 ∧ c.rest[newline - 1]? = some (ch '\r')
      let querylen := if cr then newline - 1 else newline
      let linefeedChars := if cr then 2 else 1
      match sdssplitargs (c.rest.take querylen) with
      | none => (false, c.fail .unbalancedQuotes)
      | some argv =>
          (true, { c with qbPos := c.qbPos + (querylen + linefeedChars), argv := argv })

/-- Make it likely that a large argument starts at the buffer's boundary. -/
def makeRoomFor (bulklen : Nat) (c : RedisClient) : RedisClient :=
  if bulklen ≥ protoMbulkBigArg ∧ c.querybuf.length - c.qbPos ≤ bulklen + 2 then
    { c with querybuf := c.querybuf.drop c.qbPos, qbPos := 0 }
  else c

/-- Read bulk length if unknown. An error stops the parsing: a protocol
error, or the line is not there yet. -/
def readBulklen (c : RedisClient) : Except RedisClient RedisClient :=
  match c.bulklen with
  | some _ => .ok c
  | none =>
      match countLine c.rest with
      | .tooBig => .error (c.fail .tooBigBulkCount)
      | .wait => .error c
      | .line newline =>
          if c.rest.head? ≠ some (ch '$') then
            .error (c.fail (.expectedDollar (c.rest.headD 0)))
          else
            match countOf c.rest newline with
            | none => .error (c.fail .invalidBulkLength)
            | some ll =>
                if ll < 0 ∨ ll > protoMaxBulkLen then .error (c.fail .invalidBulkLength)
                else
                  let c := makeRoomFor ll.toNat { c with qbPos := c.qbPos + (newline + 2) }
                  .ok { c with bulklen := some ll.toNat }

/-- The argument of length `bulklen` at the position. If the buffer holds
just the argument it is used as it is, instead of being copied. -/
def takeArgument (bulklen : Nat) (c : RedisClient) : RedisClient :=
  let c :=
    if c.qbPos = 0 ∧ bulklen ≥ protoMbulkBigArg ∧ c.querybuf.length = bulklen + 2 then
      { c with argv := c.argv ++ [c.querybuf.take (c.querybuf.length - 2)], querybuf := [] }
    else
      { c with
        argv := c.argv ++ [c.rest.take bulklen]
        qbPos := c.qbPos + (bulklen + 2) }
  { c with bulklen := none, multibulklen := c.multibulklen - 1 }

/-- `while(c->multibulklen)` -/
def readBulks : Nat → RedisClient → Bool × RedisClient
  | 0, c => (true, c)
  | n + 1, c =>
      match c.readBulklen with
      | .error c => (false, c)
      | .ok c =>
          let bulklen := c.bulklen.getD 0
          if c.querybuf.length - c.qbPos < bulklen + 2 then (false, c)
          else readBulks n (c.takeArgument bulklen)

def processMultibulkBuffer (c : RedisClient) : Bool × RedisClient :=
  if c.multibulklen = 0 then
    match countLine c.rest with
    | .tooBig => (false, c.fail .tooBigMbulkCount)
    | .wait => (false, c)
    | .line newline =>
        match countOf c.rest newline with
        | none => (false, c.fail .invalidMbulkCount)
        | some ll =>
            if ll > 1024 * 1024 then (false, c.fail .invalidMbulkCount)
            else
              let c := { c with qbPos := c.qbPos + (newline + 2) }
              if ll ≤ 0 then (true, c)
              else readBulks ll.toNat { c with multibulklen := ll.toNat }
  else readBulks c.multibulklen c

/-- Determine request type when unknown. -/
def determineType (c : RedisClient) : RedisClient :=
  match c.reqtype with
  | some _ => c
  | none =>
      { c with reqtype := some (if c.rest.head? = some (ch '*') then .multibulk else .inline) }

def parseRequest (c : RedisClient) : Bool × RedisClient :=
  if c.reqtype = some .inline then c.processInlineBuffer else c.processMultibulkBuffer

/-- Trim to pos. -/
def trim (c : RedisClient) : RedisClient := { c with querybuf := c.rest, qbPos := 0 }

end RedisClient

/-! ## Processing -/

section

variable {σ : Type} (exec : σ → List Bytes → σ × Outcome)

/-- Keep processing while there is something in the input buffer. The first
argument bounds the rounds; every request takes at least one byte. The client
is one that the loop never has to wait for: not `CLIENT_BLOCKED`, not
`CLIENT_PENDING_COMMAND` or `CLIENT_PENDING_READ` (which only I/O threads set),
not the master while a script is busy, and without Gopher mode. -/
def processRequests : Nat → σ → RedisClient → σ × RedisClient
  | 0, s, c => (s, c)
  | n + 1, s, c =>
      if c.qbPos < c.querybuf.length ∧ c.closed = false then
        let (ok, c) := c.determineType.parseRequest
        if ok then
          let (s, conn) := requestRead exec s c.toRedisConn
          processRequests n s { c with toRedisConn := conn }
        else (s, c)
      else (s, c)

def processInputBuffer (s : σ) (c : RedisClient) : σ × RedisClient :=
  let (s, c) := processRequests exec (c.querybuf.length - c.qbPos) s c
  (s, c.trim)

/-- How much is read at once. Of a large argument no more is read than it
needs, so that the buffer ends with it. -/
def RedisClient.readlen (c : RedisClient) : Nat :=
  match c.bulklen with
  | some bulklen =>
      let remaining := (bulklen : Int) + 2 - c.querybuf.length
      if c.reqtype = some .multibulk ∧ c.multibulklen ≠ 0 ∧ bulklen ≥ protoMbulkBigArg
          ∧ 0 < remaining ∧ remaining < protoIobufLen then remaining.toNat
      else protoIobufLen
  | none => protoIobufLen

/-- `avail` are the bytes that have arrived at the socket. Returns the bytes
not read yet. -/
def readQueryFromClient (s : σ) (c : RedisClient) (avail : Bytes) : σ × RedisClient × Bytes :=
  if avail = [] then (s, c, avail)
  else
    let querybuf := c.querybuf ++ avail.take c.readlen
    if querybuf.length > clientMaxQuerybufLen then
      (s, { c with querybuf := querybuf, closeAsap := true }, avail.drop c.readlen)
    else
      let (s, c') := processInputBuffer exec s { c with querybuf := querybuf }
      (s, c', avail.drop c.readlen)

end

end Wahana
