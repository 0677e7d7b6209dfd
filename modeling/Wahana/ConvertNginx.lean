import Wahana.DocStore
import Wahana.Loop
import Wahana.Php

/-!
# convertNGINX.php

The access-log converter: one loop over the lines of `data_log/nginx.log`
that parses a line, stages the eleven kept values through Redis as JSON,
and indexes the document built from what comes back.

The loop body is cut where the shared Redis key is touched: `staged` is
the text that is `SET`, `bodyOf` the document built from the reply to
`GET`. The sequential loop here and the two concurrent runs of
`NginxRace` are both assembled from these.
-/

namespace Wahana

/-! ## The pattern -/

section

open Re

/-- `\S+` -/
def words : Re UInt8 := plus true isWord

/-- `\s+` -/
def spaces : Re UInt8 := plus true isSpace

/-- `\d+` -/
def digits : Re UInt8 := plus true isDigit

/-- `\[\d+\/\S+\ \+\d+\]` -/
def timeRe : Re UInt8 :=
  cat [chr '[', digits, chr '/', words, chr ' ', chr '+', digits, chr ']']

/-- `"\S+\s+\S+\s+\S+"` -/
def requestRe : Re UInt8 :=
  cat [chr '"', words, spaces, words, spaces, words, chr '"']

/-- `\d+\d+` -/
def numberRe : Re UInt8 := cat [digits, digits]

/-- `"\S+"` -/
def refererRe : Re UInt8 := cat [chr '"', words, chr '"']

/-- The items of the pattern before the last one. -/
def accessItems : List (Re UInt8) :=
  [group 1 words, chr ' ', group 2 words, chr ' ', group 3 words, chr ' ',
   group 4 timeRe, chr ' ', group 5 requestRe, chr ' ',
   group 6 numberRe, chr ' ', group 7 numberRe, chr ' ', group 8 refererRe, chr ' ',
   group 9 words, chr ' ', group 10 words, chr ' ', group 11 words, chr ' ',
   group 12 words, chr ' ']

/-- `/^(\S+) (\S+) (\S+) (\[\d+\/\S+\ \+\d+\]) ("\S+\s+\S+\s+\S+") (\d+\d+) (\d+\d+)
("\S+") (\S+) (\S+) (\S+) (\S+) (\S+)/` -/
def accessLog : Pattern UInt8 where
  anchored := true
  re := cat (accessItems ++ [group 13 words])
  minLen_pos := by decide

end

/-! ## One record -/

/-- The variables `$ip_address` .. `$gz`. -/
structure NginxFields where
  ip_address : Bytes
  date : Bytes
  method : Bytes
  status : Bytes
  ping : Bytes
  site : Bytes
  rt : Bytes
  uct : Bytes
  uht : Bytes
  urt : Bytes
  gz : Bytes
  deriving DecidableEq, Repr

/-- `$data[$g][0] ?? ""` -/
def firstGroup (data : List (Match UInt8)) (g : Nat) : Bytes :=
  ((patternOrder data g)[0]?).getD []

def extract (data : List (Match UInt8)) : NginxFields where
  ip_address := firstGroup data 1
  date := firstGroup data 4
  method := firstGroup data 5
  status := firstGroup data 6
  ping := firstGroup data 7
  site := firstGroup data 8
  rt := firstGroup data 9
  uct := firstGroup data 10
  uht := firstGroup data 11
  urt := firstGroup data 12
  gz := firstGroup data 13

/-- The eleven values kept of a line. -/
def parseLine (line : Bytes) : NginxFields :=
  extract (pregMatchAll accessLog line)

/-- `[$ip_address, $date, ..., $gz]` -/
def NginxFields.toArray (f : NginxFields) : List Bytes :=
  [f.ip_address, f.date, f.method, f.status, f.ping, f.site, f.rt, f.uct, f.uht, f.urt, f.gz]

/-- The `body` of the index request; a field is a string or `null`. -/
structure NginxBody where
  ip_address : Option Bytes
  date : Option Bytes
  method : Option Bytes
  status : Option Bytes
  ping : Option Bytes
  site_url : Option Bytes
  rt : Option Bytes
  uct : Option Bytes
  uht : Option Bytes
  urt : Option Bytes
  gz : Option Bytes
  deriving DecidableEq, Repr

/-- The value `SET` under `json`. A failed `json_encode` is `false`, which
the client sends as the empty string. -/
def staged (f : NginxFields) : Bytes :=
  (jsonEncode f.toArray).getD []

/-- `$decode[$k]`: `null` when the decoding failed. -/
def offset (decode : Option (List Bytes)) (k : Nat) : Option Bytes :=
  decode.bind fun xs => xs[k]?

/-- The document built from the reply to `GET`. -/
def bodyOf (user : Option Bytes) : NginxBody :=
  let decode := user.bind jsonDecode
  { ip_address := offset decode 0
    date := offset decode 1
    method := offset decode 2
    status := offset decode 3
    ping := offset decode 4
    site_url := offset decode 5
    rt := offset decode 6
    uct := offset decode 7
    uht := offset decode 8
    urt := offset decode 9
    gz := offset decode 10 }

def nginxRequest (body : NginxBody) : IndexRequest NginxBody where
  index := "tester"
  type := "log_nginx"
  id := some 3
  body := body

/-! ## The loop -/

/-- `sent` records the index requests issued so far, `echoed` the output. -/
structure NginxState where
  fn : Stream
  redis : Redis
  client : DocStore NginxBody
  sent : List (IndexRequest NginxBody)
  echoed : Bytes

def nginxBody (s : NginxState) : NginxState :=
  let (result, fn) := fgets s.fn
  let fields := parseLine (result.getD [])
  let redis := s.redis.set "json" (staged fields)
  let user := redis.get "json"
  let params := nginxRequest (bodyOf user)
  { fn := fn
    redis := redis.del "json"
    client := s.client.index params
    sent := s.sent ++ [params]
    echoed := s.echoed ++ bytes "data berhasil dihapus dari redis" }

def nginxLoop : Loop NginxState where
  cond := fun s => !feof s.fn
  body := nginxBody

/-- The state in which the loop is entered. -/
def nginxStart (content : Bytes) (redis : Redis) (client : DocStore NginxBody) : NginxState where
  fn := fopen content
  redis := redis
  client := client
  sent := []
  echoed := []

end Wahana
