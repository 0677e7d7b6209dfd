import Wahana.DocStore
import Wahana.LazyCut
import Wahana.Loop
import Wahana.Php

/-!
# convertUWSGI.php

The uWSGI converter reads the whole of `data_log/uwsgi.log` at once and
then loops: every iteration matches the record pattern against the whole
text again and indexes the `$i`-th match. The loop condition is the text
itself, which no iteration changes.

The Elasticsearch client encodes a document as JSON before it sends it.
Where `json_encode` fails, on a value that is not UTF-8, the client passes
its `false` on as the body of the request, and the handler throws an
`InvalidArgumentException` that nothing catches: the script ends there.

The JSON text of the matches, the reply to `GET uwsgi` and its decoding
are computed by the source and never used; they are not modelled.
-/

namespace Wahana

/-! ## The pattern -/

section

open Re

/-- `(.+?)` -/
def lazyText (n : Nat) : Re UInt8 := group n (plus false isDot)

/-- `} {` -/
def groupSep : Bytes := [ch '}', ch ' ', ch '{']

/-- `} [` -/
def pidSep : Bytes := [ch '}', ch ' ', ch '[']

/-- `/\{(.+?)\} \{(.+?)\} \[([^\]]*)\]/` -/
def uwsgiRegex : Pattern UInt8 where
  anchored := false
  re := cat (chr '{' :: lazyText 1 :: (lit groupSep ++ lazyText 2 :: (lit pidSep
    ++ [group 3 (many true (· != ch ']')), chr ']'])))
  minLen_pos := by decide

end

/-! ## The loop -/

/-- The `body` of the index request; reading past the end of an array
gives `null`. -/
structure UwsgiBody where
  address_space_usage : Option Bytes
  rss_usage : Option Bytes
  pid : Option Bytes
  deriving DecidableEq, Repr

def uwsgiRequest (body : UwsgiBody) : IndexRequest UwsgiBody where
  index := "index_uwsgi"
  type := "log_nginx"
  id := none
  body := body

/-- `$address[$i]`, `$rss[$i]`, `$pid[$i]` -/
def documentAt (data : List (Match UInt8)) (i : Nat) : UwsgiBody where
  address_space_usage := (patternOrder data 1)[i]?
  rss_usage := (patternOrder data 2)[i]?
  pid := (patternOrder data 3)[i]?

/-- A value as `json_encode` writes it. -/
def jsonValue : Option Bytes → Option (List Char)
  | none => some "null".toList
  | some s => (utf8Decode s).map quoted

/-- `serialize` of the client; `none` is `json_encode`'s `false`. -/
def UwsgiBody.serialize (b : UwsgiBody) : Option Bytes := do
  let address ← jsonValue b.address_space_usage
  let rss ← jsonValue b.rss_usage
  let pid ← jsonValue b.pid
  pure (utf8Encode ("\x7b\"address_space_usage\":".toList ++ address ++
    ",\"rss_usage\":".toList ++ rss ++ ",\"pid\":".toList ++ pid ++ "\x7d".toList))

/-- `sent` records the index requests issued so far, `echoed` the output;
`thrown` says that an exception has ended the script. -/
structure UwsgiState where
  logFile : Bytes
  i : Nat
  redis : Redis
  client : DocStore UwsgiBody
  sent : List (IndexRequest UwsgiBody)
  echoed : Bytes
  thrown : Bool

def uwsgiBody (s : UwsgiState) : UwsgiState :=
  let data := pregMatchAll uwsgiRegex s.logFile
  let redis := s.redis.set "uwsgi" (bytes "nama")
  let params := uwsgiRequest (documentAt data s.i)
  match params.body.serialize with
  | none => { s with redis := redis, thrown := true }
  | some _ =>
      { s with
        i := s.i + 1
        redis := redis
        client := s.client.index params
        sent := s.sent ++ [params]
        echoed := s.echoed ++ bytes "data berhasil dihapus dari redis" }

/-- `while ($logFile)`, as long as the script runs. -/
def uwsgiLoop : Loop UwsgiState where
  cond := fun s => !s.thrown && truthy s.logFile
  body := uwsgiBody

def uwsgiStart (content : Bytes) (redis : Redis) (client : DocStore UwsgiBody) : UwsgiState where
  logFile := content
  i := 0
  redis := redis
  client := client
  sent := []
  echoed := []
  thrown := false

end Wahana
