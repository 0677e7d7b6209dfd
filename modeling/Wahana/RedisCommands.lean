import Mathlib.Logic.Function.Basic
import Wahana.RedisInput

/-!
# Redis: the keyspace and the string commands

The database of `db.c`, with its keys, their values and the times at which
some of them expire, and the commands `SET` with all its options, `GET` and
`DEL` of `t_string.c` and `db.c`. A key that has expired stays in the
database until a command comes across it. `processCommand` of `server.c`
looks a command up and calls it. The model is for a server in its default
configuration and a client without special rights; what the server does with
other commands is the parameter `other`.
-/

namespace Wahana

/-! ## Values -/

/-- The types of the values whose contents no string command looks at. -/
inductive AggregateType where
  | list
  | set
  | zset
  | hash
  | moduleValue
  | stream
  deriving DecidableEq

inductive RedisObject where
  | string (o : StringObject)
  | aggregate (type : AggregateType)
  deriving DecidableEq

/-! ## The database -/

/-- `expires` holds the time, in milliseconds, after which a key is not
valid any more. Only keys of the database have one, and it is not
negative. -/
structure RedisDb where
  dict : Bytes → Option RedisObject
  expires : Bytes → Option Nat
  expires_dict : ∀ key, dict key = none → expires key = none

namespace RedisDb

def empty : RedisDb := ⟨fun _ => none, fun _ => none, fun _ _ => rfl⟩

/-- `-1` if the key does not expire. -/
def getExpire (db : RedisDb) (key : Bytes) : Int :=
  match db.expires key with
  | none => -1
  | some when => when

def keyIsExpired (now : Int) (db : RedisDb) (key : Bytes) : Bool :=
  if db.getExpire key < 0 then false else decide (now > db.getExpire key)

def dbSyncDelete (db : RedisDb) (key : Bytes) : Bool × RedisDb :=
  ((db.dict key).isSome,
    { dict := Function.update db.dict key none
      expires := Function.update db.expires key none
      expires_dict := by
        intro k h
        by_cases hk : k = key
        · rw [hk, Function.update_self]
        · rw [Function.update_of_ne hk] at h ⊢
          exact db.expires_dict k h })

def expireIfNeeded (now : Int) (db : RedisDb) (key : Bytes) : Bool × RedisDb :=
  if db.keyIsExpired now key then (true, (db.dbSyncDelete key).2) else (false, db)

/-- `activeExpireCycleTryExpire`: a key the server looks at on its own. -/
def activeExpireCycleTryExpire (now : Int) (db : RedisDb) (key : Bytes) : RedisDb :=
  match db.expires key with
  | none => db
  | some t => if now > t then (db.dbSyncDelete key).2 else db

def lookupKeyRead (now : Int) (db : RedisDb) (key : Bytes) : Option RedisObject × RedisDb :=
  let (expired, db) := db.expireIfNeeded now key
  if expired then (none, db) else (db.dict key, db)

def lookupKeyWrite (now : Int) (db : RedisDb) (key : Bytes) : Option RedisObject × RedisDb :=
  let (_, db) := db.expireIfNeeded now key
  (db.dict key, db)

/-- `dbAdd`, and `dbOverwrite` where the key is there: the expire time
stays. -/
def setValue (db : RedisDb) (key : Bytes) (val : RedisObject) : RedisDb where
  dict := Function.update db.dict key (some val)
  expires := db.expires
  expires_dict := by
    intro k h
    by_cases hk : k = key
    · rw [hk, Function.update_self] at h
      cases h
    · rw [Function.update_of_ne hk] at h
      exact db.expires_dict k h

def removeExpire (db : RedisDb) (key : Bytes) : RedisDb where
  dict := db.dict
  expires := Function.update db.expires key none
  expires_dict := by
    intro k h
    by_cases hk : k = key
    · rw [hk, Function.update_self]
    · rw [Function.update_of_ne hk]
      exact db.expires_dict k h

/-- The key has to be there. -/
def setExpire (db : RedisDb) (key : Bytes) (when : Nat) (h : (db.dict key).isSome = true) :
    RedisDb where
  dict := db.dict
  expires := Function.update db.expires key (some when)
  expires_dict := by
    intro k hk
    by_cases heq : k = key
    · rw [heq] at hk
      rw [hk] at h
      cases h
    · rw [Function.update_of_ne heq]
      exact db.expires_dict k hk

def genericSetKey (now : Int) (db : RedisDb) (key : Bytes) (val : RedisObject) (keepttl : Bool) :
    RedisDb :=
  let (_, db) := db.lookupKeyWrite now key
  let db := db.setValue key val
  if keepttl then db else db.removeExpire key

theorem genericSetKey_isSome (now : Int) (db : RedisDb) (key : Bytes) (val : RedisObject)
    (keepttl : Bool) : ((db.genericSetKey now key val keepttl).dict key).isSome = true := by
  rw [genericSetKey]
  cases keepttl <;> simp [setValue, removeExpire]

end RedisDb

/-! ## Names and options -/

/-- A string up to its first zero byte, as the C functions see it. -/
def cstr (s : Bytes) : Bytes := s.takeWhile (· ≠ 0)

def tolower (b : UInt8) : UInt8 := if 65 ≤ b ∧ b ≤ 90 then b + 32 else b

/-- `!strcasecmp(s,t)` -/
def strcasecmp (s t : Bytes) : Bool := (cstr s).map tolower == (cstr t).map tolower

inductive TimeUnit where
  | seconds
  | milliseconds
  deriving DecidableEq, Repr

/-- The flags `OBJ_*` with the argument and the unit of an expire time. -/
structure SetOptions where
  nx : Bool
  xx : Bool
  get : Bool
  keepttl : Bool
  ex : Bool
  px : Bool
  exat : Bool
  pxat : Bool
  expire : Option Bytes
  unit : TimeUnit
  deriving DecidableEq, Repr

/-- `OBJ_NO_FLAGS` -/
def SetOptions.none : SetOptions :=
  ⟨false, false, false, false, false, false, false, false, .none, .seconds⟩

/-- `parseExtendedStringArgumentsOrReply` of `SET`: the arguments after the
value, or a syntax error. -/
def parseExtendedStringArguments : SetOptions → List Bytes → Option SetOptions
  | o, [] => some o
  | o, opt :: args =>
      if strcasecmp opt (bytes "NX") && !o.xx && !o.get then
        parseExtendedStringArguments { o with nx := true } args
      else if strcasecmp opt (bytes "XX") && !o.nx then
        parseExtendedStringArguments { o with xx := true } args
      else if strcasecmp opt (bytes "GET") && !o.nx then
        parseExtendedStringArguments { o with get := true } args
      else if strcasecmp opt (bytes "KEEPTTL") && !o.ex && !o.exat && !o.px && !o.pxat then
        parseExtendedStringArguments { o with keepttl := true } args
      else
        match args with
        | [] => .none
        | next :: args =>
            if strcasecmp opt (bytes "EX") && !o.keepttl && !o.exat && !o.px && !o.pxat then
              parseExtendedStringArguments { o with ex := true, expire := some next } args
            else if strcasecmp opt (bytes "PX") && !o.keepttl && !o.ex && !o.exat && !o.pxat then
              parseExtendedStringArguments
                { o with px := true, expire := some next, unit := .milliseconds } args
            else if strcasecmp opt (bytes "EXAT") && !o.keepttl && !o.ex && !o.px && !o.pxat then
              parseExtendedStringArguments { o with exat := true, expire := some next } args
            else if strcasecmp opt (bytes "PXAT") && !o.keepttl && !o.ex && !o.exat && !o.px then
              parseExtendedStringArguments
                { o with pxat := true, expire := some next, unit := .milliseconds } args
            else .none

/-! ## Commands -/

def sharedOk : Bytes := bytes "+OK\r\n"

def sharedSyntaxerr : Bytes := bytes "-ERR syntax error\r\n"

def sharedWrongtypeerr : Bytes :=
  bytes "-WRONGTYPE Operation against a key " ++ bytes "holding the wrong kind of value\r\n"

/-- Addition of `long long` numbers. -/
def wrapLongLong (v : Int) : Int := (v + 2 ^ 63) % 2 ^ 64 - 2 ^ 63

def invalidExpire : Bytes := addReplyErrorFormat (bytes "invalid expire time in set")

/-- The time at which a key set with an expire time expires, or the error. -/
def expireTime (now : Int) (o : SetOptions) (expire : Bytes) : Except Bytes Nat :=
  match string2ll expire with
  | none => .error (addReplyError (bytes "value is not an integer or out of range"))
  | some milliseconds =>
      if milliseconds ≤ 0 ∨ (o.unit = .seconds ∧ milliseconds > llongMax / 1000) then
        .error invalidExpire
      else
        let milliseconds := if o.unit = .seconds then milliseconds * 1000 else milliseconds
        let when := if o.px || o.ex then wrapLongLong (milliseconds + now) else milliseconds
        if when ≤ 0 then .error invalidExpire else .ok when.toNat

/-- `C_OK` is `true`. -/
def getGenericCommand (now : Int) (db : RedisDb) (key : Bytes) : Bool × RedisDb × Bytes :=
  match db.lookupKeyRead now key with
  | (none, db) => (true, db, addReplyNull)
  | (some (.string o), db) => (true, db, addReplyBulk o)
  | (some (.aggregate _), db) => (false, db, sharedWrongtypeerr)

/-- The key is set: `genericSetKey`, and `setExpire` if there is a time. -/
def storeKey (now : Int) (db : RedisDb) (keepttl : Bool) (key : Bytes) (val : RedisObject)
    (when : Option Nat) : RedisDb :=
  let new := db.genericSetKey now key val keepttl
  match when with
  | none => new
  | some when => new.setExpire key when (db.genericSetKey_isSome now key val keepttl)

/-- From the check of `NX` and `XX` on. -/
def setChecked (now : Int) (db : RedisDb) (o : SetOptions) (key : Bytes) (val : RedisObject)
    (when : Option Nat) : RedisDb × Bytes :=
  let (found, db) := if o.nx || o.xx then db.lookupKeyWrite now key else (none, db)
  if (o.nx && found.isSome) || (o.xx && found.isNone) then (db, addReplyNull)
  else if o.get then
    let (ok, db, reply) := getGenericCommand now db key
    if ok then (storeKey now db o.keepttl key val when, reply) else (db, reply)
  else (storeKey now db o.keepttl key val when, sharedOk)

def setGenericCommand (now : Int) (db : RedisDb) (o : SetOptions) (key : Bytes)
    (val : RedisObject) : RedisDb × Bytes :=
  match o.expire with
  | none => setChecked now db o key val none
  | some expire =>
      match expireTime now o expire with
      | .error reply => (db, reply)
      | .ok when => setChecked now db o key val (some when)

def setCommand (now : Int) (db : RedisDb) (key val : Bytes) (args : List Bytes) :
    RedisDb × Bytes :=
  match parseExtendedStringArguments .none args with
  | none => (db, sharedSyntaxerr)
  | some o =>
      setGenericCommand now db o key (.string (tryObjectEncoding (createStringObject val)))

def getCommand (now : Int) (db : RedisDb) (key : Bytes) : RedisDb × Bytes :=
  (getGenericCommand now db key).2

/-- The loop of `delGenericCommand`: how many keys were deleted. -/
def delKeys (now : Int) : RedisDb → List Bytes → RedisDb × Nat
  | db, [] => (db, 0)
  | db, key :: keys =>
      let (_, db) := db.expireIfNeeded now key
      let (deleted, db) := db.dbSyncDelete key
      let (db, numdel) := delKeys now db keys
      (db, deleted.toNat + numdel)

def delCommand (now : Int) (db : RedisDb) (keys : List Bytes) : RedisDb × Bytes :=
  let (db, numdel) := delKeys now db keys
  (db, addReplyLongLong numdel)

/-! ## The command table -/

inductive Command where
  | get
  | set
  | del
  deriving DecidableEq, Repr

namespace Command

def name : Command → Bytes
  | get => bytes "get"
  | set => bytes "set"
  | del => bytes "del"

/-- At least that many arguments if it is negative. The name counts. -/
def arity : Command → Int
  | get => 2
  | set => -3
  | del => -2

def proc (now : Int) (db : RedisDb) : Command → List Bytes → RedisDb × Bytes
  | get, [key] => getCommand now db key
  | set, key :: val :: args => setCommand now db key val args
  | del, keys => delCommand now db keys
  | _, _ => (db, [])

end Command

/-- Names are looked up without regard to case. -/
def lookupCommand (name : Bytes) : Option Command :=
  [Command.get, Command.set, Command.del].find? fun cmd => name.map tolower == cmd.name

/-- `rejectCommandFormat` of the formatted text. -/
def rejectCommandFormat (s : Bytes) : Bytes := addReplyError (sdsmapchars s)

def wrongArity (cmd : Command) : Bytes :=
  rejectCommandFormat
    (bytes "wrong number of arguments for " ++ 39 :: cmd.name ++ 39 :: bytes " command")

section

variable (other : Int → RedisDb → List Bytes → RedisDb × Outcome)

def processCommand (now : Int) (db : RedisDb) (argv : List Bytes) : RedisDb × Outcome :=
  if strcasecmp (argv.headD []) (bytes "quit") then (db, ⟨sharedOk, true⟩)
  else
    match lookupCommand (argv.headD []) with
    | none => other now db argv
    | some cmd =>
        if (cmd.arity > 0 ∧ cmd.arity ≠ argv.length) ∨ (argv.length : Int) < -cmd.arity then
          (db, ⟨wrongArity cmd, false⟩)
        else
          let (db, reply) := cmd.proc now db argv.tail
          (db, ⟨reply, false⟩)

end

end Wahana
