import Wahana.DocStore
import Wahana.Numeral

/-!
# The Elasticsearch client

The converters store their documents through the Elasticsearch PHP client.
The file follows an `index` call down: the endpoint builds method and URI,
the transport takes a connection from the pool, the connection sends the
request and, where curl fails, marks itself dead and hands the request back
to the transport while retries are left.

The connection calls the curl handler, which sends the request and may send
it twice more by itself, when nothing at all came back for it.

The pool asks the clock and the handler asks the network. Both are a
`World`: what becomes of each send in the `n`th call of the handler, when its
response is handled, and which times the pool reads while it looks for a
connection for it.

The URI of an endpoint is built from encoded parts. Encoding loses nothing
(`urlencode_injective`) and leaves no slash (`slash_notMem_urlencode`), so a
URI says which document is meant (`uri_determines_document`).
-/

namespace Wahana

namespace Elastic

/-! ## The endpoint -/

def hexDigit (d : UInt8) : UInt8 := if d < 10 then 48 + d else 55 + d

def isUnreserved (b : UInt8) : Bool :=
  isDigit b || (ch 'A' ≤ b && b ≤ ch 'Z') || (ch 'a' ≤ b && b ≤ ch 'z') ||
    b == ch '-' || b == ch '.' || b == ch '_'

/-- One byte of PHP's `urlencode`. -/
def urlencodeByte (b : UInt8) : Bytes :=
  if b == ch ' ' then [ch '+']
  else if isUnreserved b then [b]
  else [ch '%', hexDigit (b >>> 4), hexDigit (b &&& 15)]

def urlencode (s : Bytes) : Bytes := s.flatMap urlencodeByte

/-- The Index endpoint. Its parts are kept encoded. -/
structure Endpoint where
  index : Option Bytes := none
  type : Option Bytes := none
  id : Option Bytes := none
  deriving DecidableEq, Repr

namespace Endpoint

def setIndex (e : Endpoint) : Option Bytes → Endpoint
  | none => e
  | some index => { e with index := some (urlencode index) }

def setType (e : Endpoint) : Option Bytes → Endpoint
  | none => e
  | some type => { e with type := some (urlencode type) }

def setID (e : Endpoint) : Option Bytes → Endpoint
  | none => e
  | some docID => { e with id := some (urlencode docID) }

/-- The URI of encoded parts. -/
def uri (index type : Bytes) : Option Bytes → Bytes
  | none => ch '/' :: index ++ ch '/' :: type
  | some id => ch '/' :: index ++ ch '/' :: type ++ ch '/' :: id

def getURI (e : Endpoint) : Except String Bytes :=
  match e.index, e.type with
  | none, _ => .error "index is required for Index"
  | some _, none => .error "type is required for Index"
  | some index, some type => .ok (uri index type e.id)

def getMethod (e : Endpoint) : Bytes :=
  if e.id.isSome then bytes "PUT" else bytes "POST"

/-- The endpoint as `index` of the client builds it from its parameters. -/
def ofParams (id index type : Option Bytes) : Endpoint :=
  ((({} : Endpoint).setID id).setIndex index).setType type

end Endpoint

/-! ## Requests -/

/-- The body of a request as the handler gets it: `null`, a text, or the
`false` of a `json_encode` that failed. -/
inductive Body where
  | null
  | text (s : Bytes)
  | failed
  deriving DecidableEq, Repr

def Body.ofJson : Option Bytes → Body
  | none => .failed
  | some s => .text s

structure HttpRequest where
  method : Bytes
  uri : Bytes
  body : Body
  deriving DecidableEq, Repr

/-! ## Connections -/

structure Connection where
  path : Option Bytes
  isAlive : Bool := false
  lastPing : Int := 0
  failedPings : Nat := 0
  deriving DecidableEq, Repr

namespace Connection

def markAlive (time : Int) (c : Connection) : Connection :=
  { c with failedPings := 0, isAlive := true, lastPing := time }

def markDead (time : Int) (c : Connection) : Connection :=
  { c with isAlive := false, failedPings := c.failedPings + 1, lastPing := time }

/-- `readyToRevive` of the pool. -/
def readyToRevive (time : Int) (c : Connection) : Bool :=
  decide (c.lastPing + (min (60 * 2 ^ c.failedPings) 3600 : Nat) < time)

/-- The request as the connection sends it: `getURI` puts the path of the
host in front. -/
def request (c : Connection) (r : HttpRequest) : HttpRequest :=
  { r with uri := c.path.getD [] ++ r.uri }

end Connection

/-! ## The curl handler -/

/-- What curl makes of one send: an error number, a status line, or nothing
of either. The number 65, a body that could not be rewound, counts as
nothing. -/
inductive CurlResult where
  | errno
  | nothing
  | status (code : Nat) (decodes : Bool)
  deriving DecidableEq, Repr

/-- What a call of the handler gives back. The curl handler makes no other
error than a `ConnectException` or a `RingException`. -/
inductive Response where
  | curlError
  | otherError
  | status (code : Nat) (decodes : Bool)
  deriving DecidableEq, Repr

/-- The curl handler from its `k`th send on, with `left` sends after it: the
number of sends it has made in the end, and its response. `createErrorResponse`
has a request with a body sent again when nothing came back for it. -/
def sendFrom (answer : Nat → CurlResult) (hasBody : Bool) : Nat → Nat → Nat × Response
  | left, k =>
      match answer k with
      | .errno => (k + 1, .curlError)
      | .status code decodes => (k + 1, .status code decodes)
      | .nothing =>
          if hasBody then
            match left with
            | 0 => (k + 1, .curlError)
            | left + 1 => sendFrom answer hasBody left (k + 1)
          else (k + 1, .curlError)

/-- A call of the curl handler. `retryFailedRewind` lets it send twice more. -/
def curlHandler (answer : Nat → CurlResult) (body : Body) : Nat × Response :=
  sendFrom answer (body != .null) 2 0

/-! ## Pool and transport -/

structure World where
  /-- what curl makes of the `k`th send in the `n`th call of the handler -/
  answer : Nat → Nat → CurlResult
  /-- whether that send has reached the store -/
  applied : Nat → Nat → Bool
  answeredAt : Nat → Int
  selectedAt : Nat → Nat → Int

/-- The response to the `n`th call of the handler. -/
def World.response (w : World) (n : Nat) (body : Body) : Response :=
  (curlHandler (w.answer n) body).2

inductive Outcome where
  | returned
  | runtimeException (message : String)
  | noNodesAvailable
  | invalidArgument (message : String)
  | curlException
  | transportException
  | statusException (code : Nat)
  | jsonErrorException
  deriving DecidableEq, Repr

/-- A call of the handler: the position of its connection in the pool, the
request, and how often the handler sent it. -/
structure Attempt where
  entry : Nat
  request : HttpRequest
  sends : Nat
  deriving DecidableEq, Repr

structure Transport where
  connections : List Connection
  current : Nat
  retries : Nat
  retryAttempts : Nat
  sent : List Attempt
  deriving DecidableEq, Repr

/-- The loop of `nextConnection`, with the selector's `select` inlined: the
new position of the selector and the index of the connection. -/
def nextConnection (time : Nat → Int) (connections : List Connection) :
    Nat → Nat → Nat × Option Nat
  | 0, current => (current, none)
  | total + 1, current =>
      match connections[(current + 1) % connections.length]? with
      | none => (current + 1, none)
      | some c =>
          if c.isAlive then (current + 1, some ((current + 1) % connections.length))
          else if c.readyToRevive (time (current + 1)) then
            (current + 1, some ((current + 1) % connections.length))
          else nextConnection time connections total (current + 1)

/-- How an attempt ends: with the outcome of the call, or with a curl error
and the request as it was sent. -/
inductive Attempted where
  | ended (t : Transport) (o : Outcome)
  | failed (t : Transport) (r : HttpRequest)
  deriving DecidableEq, Repr

namespace Transport

/-- `ClientBuilder`'s transport for hosts with these paths. -/
def build (paths : List (Option Bytes)) : Transport where
  connections := paths.map fun path => { path }
  current := 0
  retries := paths.length
  retryAttempts := 0
  sent := []

/-- The wrapped handler of the connection at `i`, on the response to the `n`th
call of the handler. -/
def handle (w : World) (t : Transport) (n i : Nat) (r : HttpRequest) : Response → Attempted
  | .curlError =>
      .failed { t with connections := t.connections.modify i (.markDead (w.answeredAt n)) } r
  | .otherError => .ended t .transportException
  | .status code decodes =>
      let t := { t with connections := t.connections.modify i (.markAlive (w.answeredAt n)) }
      if 400 ≤ code then .ended t (.statusException code)
      else if decodes then .ended { t with retryAttempts := 0 } .returned
      else .ended t .jsonErrorException

/-- One pass through `performRequest` of the transport and of a connection.
The handler refuses a body that is `false` before it sends anything. -/
def attempt (w : World) (t : Transport) (r : HttpRequest) : Attempted :=
  match nextConnection (w.selectedAt t.sent.length) t.connections t.connections.length
      t.current with
  | (current, none) => .ended { t with current } .noNodesAvailable
  | (current, some i) =>
      match t.connections[i]? with
      | none => .ended { t with current } .noNodesAvailable
      | some c =>
          if r.body = .failed then
            .ended { t with current } (.invalidArgument "Invalid request body provided")
          else
            let n := t.sent.length
            let res := curlHandler (w.answer n) r.body
            handle w { t with current, sent := t.sent ++ [⟨i, c.request r, res.1⟩] } n i
              (c.request r) res.2

/-- `performRequest` with `left` retries left: `shouldRetry` says yes `left`
times. -/
def performWith (w : World) : Nat → Transport → HttpRequest → Transport × Outcome
  | left, t, r =>
      match attempt w t r with
      | .ended t o => (t, o)
      | .failed t r =>
          match left with
          | 0 => (t, .curlException)
          | left + 1 => performWith w left { t with retryAttempts := t.retryAttempts + 1 } r

def performRequest (w : World) (t : Transport) (r : HttpRequest) : Transport × Outcome :=
  performWith w (t.retries - t.retryAttempts) t r

end Transport

/-- `index` of the client, on an endpoint with its parameters and the body. -/
def index (w : World) (t : Transport) (e : Endpoint) (body : Body) : Transport × Outcome :=
  match e.getURI with
  | .error message => (t, .runtimeException message)
  | .ok uri => t.performRequest w ⟨e.getMethod, uri, body⟩

variable {β : Type}

def endpointOf (r : IndexRequest β) : Endpoint :=
  .ofParams (r.id.map decimal) (some (bytes r.index)) (some (bytes r.type))

/-- A script that indexes one document after the other. `serialize` is
`json_encode`, which has no text for some documents. An exception ends the
script; the number is that of the calls that returned. -/
def indexAll (w : World) (serialize : β → Option Bytes) :
    Transport → List (IndexRequest β) → Transport × Nat
  | t, [] => (t, 0)
  | t, r :: rs =>
      match index w t (endpointOf r) (.ofJson (serialize r.body)) with
      | (t, .returned) => ((indexAll w serialize t rs).1, (indexAll w serialize t rs).2 + 1)
      | (t, _) => (t, 0)

/-- The request of a document. -/
def httpRequest (serialize : β → Option Bytes) (r : IndexRequest β) : HttpRequest where
  method := (endpointOf r).getMethod
  uri := Endpoint.uri (urlencode (bytes r.index)) (urlencode (bytes r.type))
    ((r.id.map decimal).map urlencode)
  body := .ofJson (serialize r.body)

theorem index_endpointOf (w : World) (t : Transport) (serialize : β → Option Bytes)
    (r : IndexRequest β) :
    index w t (endpointOf r) (.ofJson (serialize r.body)) =
      t.performRequest w (httpRequest serialize r) := by
  have huri : (endpointOf r).getURI = .ok (httpRequest serialize r).uri := by
    unfold endpointOf httpRequest
    cases r.id <;> rfl
  rw [index, huri]
  rfl

/-- How many of the sends of a handler call have reached the store. -/
def copies (w : World) (n : Nat) (a : Attempt) : Nat := (List.range a.sends).countP (w.applied n)

/-- The requests that have reached the store, of the handler calls from the
`n`th on. -/
def appliedFrom (w : World) : Nat → List Attempt → List HttpRequest
  | _, [] => []
  | n, a :: as => List.replicate (copies w n a) a.request ++ appliedFrom w (n + 1) as

/-! ## Endpoints name their document -/

def hexValue (b : UInt8) : UInt8 := if b < 58 then b - 48 else b - 55

/-- Reads one encoded byte. -/
def urldecodeByte : Bytes → Option (UInt8 × Bytes)
  | [] => none
  | b :: s =>
      if b == ch '+' then some (ch ' ', s)
      else if b == ch '%' then
        match s with
        | d :: e :: s => some (hexValue d <<< 4 ||| hexValue e, s)
        | _ => none
      else some (b, s)

theorem hexValue_hexDigit (b : UInt8) :
    hexValue (hexDigit (b >>> 4)) <<< 4 ||| hexValue (hexDigit (b &&& 15)) = b := by
  have h : ∀ n : Fin 256, hexValue (hexDigit (UInt8.ofFin n >>> 4)) <<< 4 |||
      hexValue (hexDigit (UInt8.ofFin n &&& 15)) = UInt8.ofFin n := by decide +kernel
  exact h b.toFin

theorem slash_ne_hexDigit (b : UInt8) :
    ch '/' ≠ hexDigit (b >>> 4) ∧ ch '/' ≠ hexDigit (b &&& 15) := by
  have h : ∀ n : Fin 256, ch '/' ≠ hexDigit (UInt8.ofFin n >>> 4) ∧
      ch '/' ≠ hexDigit (UInt8.ofFin n &&& 15) := by decide +kernel
  exact h b.toFin

theorem urldecodeByte_urlencodeByte (b : UInt8) (s : Bytes) :
    urldecodeByte (urlencodeByte b ++ s) = some (b, s) := by
  unfold urlencodeByte
  split
  · rename_i hb
    rw [eq_of_beq hb]
    rfl
  split
  · rename_i hb
    have h₁ : b ≠ ch '+' := by rintro rfl; exact absurd hb (by decide)
    have h₂ : b ≠ ch '%' := by rintro rfl; exact absurd hb (by decide)
    simp [urldecodeByte, h₁, h₂]
  · have h : urldecodeByte ([ch '%', hexDigit (b >>> 4), hexDigit (b &&& 15)] ++ s) =
        some (hexValue (hexDigit (b >>> 4)) <<< 4 ||| hexValue (hexDigit (b &&& 15)), s) := rfl
    rw [h, hexValue_hexDigit]

theorem urlencode_injective : ∀ {s t : Bytes}, urlencode s = urlencode t → s = t
  | [], [], _ => rfl
  | [], b :: t, h => by
      have hd := urldecodeByte_urlencodeByte b (urlencode t)
      rw [show urlencodeByte b ++ urlencode t = [] from h.symm] at hd
      cases hd
  | a :: s, [], h => by
      have hd := urldecodeByte_urlencodeByte a (urlencode s)
      rw [show urlencodeByte a ++ urlencode s = [] from h] at hd
      cases hd
  | a :: s, b :: t, h => by
      have hd := urldecodeByte_urlencodeByte a (urlencode s)
      rw [show urlencodeByte a ++ urlencode s = urlencodeByte b ++ urlencode t from h,
        urldecodeByte_urlencodeByte] at hd
      obtain ⟨hab, hst⟩ := Prod.mk.inj (Option.some.inj hd)
      rw [hab, urlencode_injective hst.symm]

theorem slash_notMem_urlencode (s : Bytes) : ch '/' ∉ urlencode s := by
  intro h
  obtain ⟨b, -, hb⟩ := List.mem_flatMap.mp h
  unfold urlencodeByte at hb
  split at hb
  · exact absurd hb (by decide)
  split at hb
  · rename_i hu
    rw [← List.mem_singleton.mp hb] at hu
    exact absurd hu (by decide)
  · have hd := slash_ne_hexDigit b
    simp only [List.mem_cons, hd.1, hd.2, List.not_mem_nil, or_false] at hb
    exact absurd hb (by decide)

theorem split_slash : ∀ {a a' b b' : Bytes}, ch '/' ∉ a → ch '/' ∉ a' →
    a ++ ch '/' :: b = a' ++ ch '/' :: b' → a = a' ∧ b = b'
  | [], [], _, _, _, _, h => ⟨rfl, (List.cons.inj h).2⟩
  | [], x :: a', _, _, _, ha', h =>
      absurd (List.mem_cons.mpr (.inl (List.cons.inj h).1)) ha'
  | x :: a, [], _, _, ha, _, h =>
      absurd (List.mem_cons.mpr (.inl (List.cons.inj h).1.symm)) ha
  | x :: a, y :: a', _, _, ha, ha', h => by
      obtain ⟨hxy, hrest⟩ := List.cons.inj h
      obtain ⟨haa, hbb⟩ := split_slash (fun hm => ha (List.mem_cons_of_mem x hm))
        (fun hm => ha' (List.mem_cons_of_mem y hm)) hrest
      exact ⟨by rw [hxy, haa], hbb⟩

namespace Endpoint

/-- The part of the URI after the index. -/
def typeAndId (type : Bytes) : Option Bytes → Bytes
  | none => urlencode type
  | some id => urlencode type ++ ch '/' :: urlencode id

theorem getURI_ofParams (id : Option Bytes) (index type : Bytes) :
    (ofParams id (some index) (some type)).getURI =
      .ok (ch '/' :: (urlencode index ++ ch '/' :: typeAndId type id)) := by
  cases id <;> simp [ofParams, setID, setIndex, setType, getURI, uri, typeAndId]

theorem typeAndId_injective {ty ty' : Bytes} : ∀ {id id' : Option Bytes},
    typeAndId ty id = typeAndId ty' id' → ty = ty' ∧ id = id'
  | none, none, h => ⟨urlencode_injective h, rfl⟩
  | none, some n, h => by
      have hm : ch '/' ∈ typeAndId ty' (some n) := by simp [typeAndId]
      rw [← h] at hm
      exact absurd hm (slash_notMem_urlencode _)
  | some n, none, h => by
      have hm : ch '/' ∈ typeAndId ty (some n) := by simp [typeAndId]
      rw [h] at hm
      exact absurd hm (slash_notMem_urlencode _)
  | some n, some n', h => by
      obtain ⟨ht, hn⟩ := split_slash (slash_notMem_urlencode _) (slash_notMem_urlencode _) h
      exact ⟨urlencode_injective ht, by rw [urlencode_injective hn]⟩

/-- An endpoint has a URI when index and type are set. Two endpoints have the
same one exactly when they address the same document, or the same index and
type without an id, whatever bytes the three are made of. -/
theorem uri_determines_document (id id' : Option Bytes) (index index' type type' : Bytes) :
    (∃ u, (ofParams id (some index) (some type)).getURI = .ok u) ∧
    ((ofParams id (some index) (some type)).getURI =
        (ofParams id' (some index') (some type')).getURI ↔
      index = index' ∧ type = type' ∧ id = id') := by
  refine ⟨⟨_, getURI_ofParams id index type⟩, ?_⟩
  rw [getURI_ofParams, getURI_ofParams]
  constructor
  · intro h
    obtain ⟨hi, hrest⟩ := split_slash (slash_notMem_urlencode _) (slash_notMem_urlencode _)
      (List.cons.inj (Except.ok.inj h)).2
    exact ⟨urlencode_injective hi, typeAndId_injective hrest⟩
  · rintro ⟨hi, ht, hid⟩
    rw [hi, ht, hid]

end Endpoint

end Elastic

end Wahana
