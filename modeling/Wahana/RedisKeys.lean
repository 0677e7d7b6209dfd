import Wahana.RedisCommands

/-!
# Redis: keys that expire

A key that has expired is deleted when a command comes across it, or when
the server happens to look at it on its own; until then it sits in the
database. The `Keyspace` is what a client should see: a key is gone at the
moment it expires. `SET`, `GET` and `DEL` act on the valid keys of the
database as their counterparts act on the keyspace (`processCommand_keys`),
so over any run of them at any times the clients get the replies of the
keyspace (`expiry_refines`): neither the late deletion nor the server's own
one can be observed. That is a property of these commands and not of the
server; `DBSIZE`, for one, counts the keys that are still there.
-/

namespace Wahana

/-! ## What a client sees -/

/-- The values of the keys, and when they expire. -/
abbrev Keyspace := Bytes → Option (RedisObject × Option Nat)

def hasExpired (now : Int) : Option Nat → Bool
  | none => false
  | some when => decide (now > when)

def isValid (now : Int) (e : RedisObject × Option Nat) : Bool := !hasExpired now e.2

namespace Keyspace

/-- Time passes. -/
def purge (now : Int) (K : Keyspace) : Keyspace := fun key => (K key).filter (isValid now)

def put (now : Int) (K : Keyspace) (key : Bytes) (val : RedisObject) (when : Option Nat) :
    Keyspace :=
  Function.update K key ((some (val, when)).filter (isValid now))

def erase (K : Keyspace) (key : Bytes) : Keyspace := Function.update K key none

def getGeneric (K : Keyspace) (key : Bytes) : Bool × Bytes :=
  match K key with
  | none => (true, addReplyNull)
  | some (.string o, _) => (true, addReplyBulk o)
  | some (.aggregate _, _) => (false, sharedWrongtypeerr)

def store (now : Int) (K : Keyspace) (keepttl : Bool) (key : Bytes) (val : RedisObject)
    (when : Option Nat) : Keyspace :=
  K.put now key val (when.or (if keepttl then (K key).bind (·.2) else none))

def setChecked (now : Int) (K : Keyspace) (o : SetOptions) (key : Bytes) (val : RedisObject)
    (when : Option Nat) : Keyspace × Bytes :=
  if (o.nx && (K key).isSome) || (o.xx && (K key).isNone) then (K, addReplyNull)
  else if o.get then
    if (K.getGeneric key).1 then (K.store now o.keepttl key val when, (K.getGeneric key).2)
    else (K, (K.getGeneric key).2)
  else (K.store now o.keepttl key val when, sharedOk)

def setGeneric (now : Int) (K : Keyspace) (o : SetOptions) (key : Bytes) (val : RedisObject) :
    Keyspace × Bytes :=
  match o.expire with
  | none => K.setChecked now o key val none
  | some expire =>
      match expireTime now o expire with
      | .error reply => (K, reply)
      | .ok when => K.setChecked now o key val (some when)

def set (now : Int) (K : Keyspace) (key val : Bytes) (args : List Bytes) : Keyspace × Bytes :=
  match parseExtendedStringArguments .none args with
  | none => (K, sharedSyntaxerr)
  | some o => K.setGeneric now o key (.string (tryObjectEncoding (createStringObject val)))

def delKeys : Keyspace → List Bytes → Keyspace × Nat
  | K, [] => (K, 0)
  | K, key :: keys =>
      ((delKeys (K.erase key) keys).1,
        (K key).isSome.toNat + (delKeys (K.erase key) keys).2)

def proc (now : Int) (K : Keyspace) : Command → List Bytes → Keyspace × Bytes
  | .get, [key] => (K, (K.getGeneric key).2)
  | .set, key :: val :: args => K.set now key val args
  | .del, keys => ((K.delKeys keys).1, addReplyLongLong (K.delKeys keys).2)
  | _, _ => (K, [])

/-- The table dispatch, for the three commands; the other commands of the
server read more of a database than its keyspace. -/
def processCommand (now : Int) (K : Keyspace) (argv : List Bytes) : Keyspace × Outcome :=
  if strcasecmp (argv.headD []) (bytes "quit") then (K, ⟨sharedOk, true⟩)
  else
    match lookupCommand (argv.headD []) with
    | none => (K, ⟨[], false⟩)
    | some cmd =>
        if (cmd.arity > 0 ∧ cmd.arity ≠ argv.length) ∨ (argv.length : Int) < -cmd.arity then
          (K, ⟨wrongArity cmd, false⟩)
        else ((K.proc now cmd argv.tail).1, ⟨(K.proc now cmd argv.tail).2, false⟩)

end Keyspace

/-! ## Time -/

theorem hasExpired_mono {now now' : Int} (h : now ≤ now') {when : Option Nat}
    (hexp : hasExpired now when = true) : hasExpired now' when = true := by
  cases when with
  | none => cases hexp
  | some t =>
      simp only [hasExpired, decide_eq_true_eq] at hexp ⊢
      omega

namespace Keyspace

theorem purge_purge {now now' : Int} (h : now ≤ now') (K : Keyspace) :
    (K.purge now).purge now' = K.purge now' := by
  funext key
  rw [purge, purge, Option.filter_filter, purge]
  congr 1
  funext e
  rw [isValid, isValid]
  cases hexp : hasExpired now e.2 with
  | false => simp
  | true => simp [hasExpired_mono h hexp]

theorem purge_update (now : Int) (K : Keyspace) (key : Bytes)
    (e : Option (RedisObject × Option Nat)) :
    purge now (Function.update K key e)
      = Function.update (K.purge now) key (e.filter (isValid now)) := by
  funext k
  by_cases hk : k = key
  · subst hk
    simp [purge]
  · simp [purge, hk]

end Keyspace

namespace RedisDb

/-- What is in the database. -/
def entries (db : RedisDb) : Keyspace := fun key =>
  (db.dict key).map fun val => (val, db.expires key)

/-- The keys that are valid. -/
def live (now : Int) (db : RedisDb) : Keyspace := db.entries.purge now

theorem live_of_le {now now' : Int} (h : now ≤ now') (db : RedisDb) :
    db.live now' = (db.live now).purge now' :=
  (Keyspace.purge_purge h db.entries).symm

/-! ## The database -/

variable {db : RedisDb} {key : Bytes}

theorem entries_eq_update {db' : RedisDb} {e : Option (RedisObject × Option Nat)}
    (hkey : db'.entries key = e)
    (hother : ∀ k, k ≠ key → db'.dict k = db.dict k ∧ db'.expires k = db.expires k) :
    db'.entries = Function.update db.entries key e := by
  funext k
  by_cases hk : k = key
  · rw [hk, Function.update_self, hkey]
  · obtain ⟨hdict, hexp⟩ := hother k hk
    rw [Function.update_of_ne hk, entries, entries, hdict, hexp]

theorem entries_dbSyncDelete (db : RedisDb) (key : Bytes) :
    (db.dbSyncDelete key).2.entries = Function.update db.entries key none :=
  entries_eq_update (by simp [entries, dbSyncDelete]) fun k hk => by simp [dbSyncDelete, hk]

theorem entries_setValue (db : RedisDb) (key : Bytes) (val : RedisObject) :
    (db.setValue key val).entries = Function.update db.entries key (some (val, db.expires key)) :=
  entries_eq_update (by simp [entries, setValue]) fun k hk => by simp [setValue, hk]

theorem entries_removeExpire (db : RedisDb) (key : Bytes) :
    (db.removeExpire key).entries
      = Function.update db.entries key ((db.entries key).map fun e => (e.1, none)) :=
  entries_eq_update (by simp [entries, removeExpire, Function.comp_def]) fun k hk => by
    simp [removeExpire, hk]

theorem entries_setExpire (db : RedisDb) (key : Bytes) (when : Nat)
    (h : (db.dict key).isSome = true) : (db.setExpire key when h).entries
      = Function.update db.entries key ((db.entries key).map fun e => (e.1, some when)) :=
  entries_eq_update (by simp [entries, setExpire, Function.comp_def]) fun k hk => by
    simp [setExpire, hk]

theorem keyIsExpired_eq (now : Int) (db : RedisDb) (key : Bytes) :
    db.keyIsExpired now key = hasExpired now (db.expires key) := by
  rw [keyIsExpired, getExpire]
  cases db.expires key with
  | none => rfl
  | some when =>
      simp only [hasExpired]
      rw [if_neg (by omega)]

theorem live_of_hasExpired {now : Int} (h : hasExpired now (db.expires key) = true) :
    db.live now key = none := by
  rw [live, Keyspace.purge, entries]
  cases db.dict key <;> simp [isValid, h]

theorem live_of_valid {now : Int} (h : hasExpired now (db.expires key) = false) :
    db.live now key = db.entries key := by
  rw [live, Keyspace.purge, entries]
  cases db.dict key <;> simp [isValid, h]

/-- The key is in the database afterwards if and only if it is valid. -/
theorem entries_expireIfNeeded (now : Int) (db : RedisDb) (key : Bytes) :
    (db.expireIfNeeded now key).2.entries = Function.update db.entries key (db.live now key) := by
  rw [expireIfNeeded, keyIsExpired_eq]
  cases hexp : hasExpired now (db.expires key) with
  | true =>
      rw [if_pos rfl, entries_dbSyncDelete, live_of_hasExpired hexp]
  | false =>
      rw [if_neg (by simp), live_of_valid hexp, Function.update_eq_self]

theorem live_eq_of_entries {now : Int} {db' : RedisDb}
    (h : db'.entries = Function.update db.entries key (db.live now key)) :
    db'.live now = db.live now := by
  have hfilter : (db.live now key).filter (isValid now) = db.live now key := by
    rw [live, Keyspace.purge, Option.filter_filter]
    simp
  rw [live, h, Keyspace.purge_update, hfilter]
  exact Function.update_eq_self key (db.live now)

/-- Deleting what has expired cannot be seen. -/
theorem live_expireIfNeeded (now : Int) (db : RedisDb) (key : Bytes) :
    (db.expireIfNeeded now key).2.live now = db.live now :=
  live_eq_of_entries (entries_expireIfNeeded now db key)

theorem live_activeExpireCycleTryExpire (now : Int) (db : RedisDb) (key : Bytes) :
    (db.activeExpireCycleTryExpire now key).live now = db.live now := by
  rw [activeExpireCycleTryExpire]
  split
  · rfl
  · rename_i t ht
    split
    · rename_i hexp
      have hlive : db.live now key = none :=
        live_of_hasExpired (by rw [ht]; simpa [hasExpired] using hexp)
      exact live_eq_of_entries (by rw [entries_dbSyncDelete, hlive])
    · rfl

theorem dict_eq (db : RedisDb) (key : Bytes) : db.dict key = (db.entries key).map (·.1) := by
  simp [entries, Function.comp_def]

theorem expires_eq (db : RedisDb) (key : Bytes) :
    db.expires key = (db.entries key).bind (·.2) := by
  rw [entries]
  cases hval : db.dict key with
  | none => simp [db.expires_dict key hval]
  | some val => simp

theorem lookupKeyWrite_eq (now : Int) (db : RedisDb) (key : Bytes) :
    db.lookupKeyWrite now key = ((db.live now key).map (·.1), (db.expireIfNeeded now key).2) := by
  show ((db.expireIfNeeded now key).2.dict key, (db.expireIfNeeded now key).2) = _
  rw [dict_eq, entries_expireIfNeeded, Function.update_self]

/-- A key that has just expired is not looked up again. -/
theorem lookupKeyRead_eq (now : Int) (db : RedisDb) (key : Bytes) :
    db.lookupKeyRead now key = db.lookupKeyWrite now key := by
  rw [lookupKeyRead, lookupKeyWrite, expireIfNeeded]
  cases db.keyIsExpired now key with
  | true => simp [dbSyncDelete]
  | false => simp

theorem entries_genericSetKey (now : Int) (db : RedisDb) (key : Bytes) (val : RedisObject)
    (keepttl : Bool) : (db.genericSetKey now key val keepttl).entries
      = Function.update db.entries key
          (some (val, if keepttl then (db.live now key).bind (·.2) else none)) := by
  rw [genericSetKey, lookupKeyWrite_eq]
  cases keepttl with
  | true =>
      simp only [if_true]
      rw [entries_setValue, expires_eq, entries_expireIfNeeded, Function.update_self,
        Function.update_idem]
  | false =>
      simp only [Bool.false_eq_true, if_false]
      rw [entries_removeExpire, entries_setValue, entries_expireIfNeeded]
      simp

theorem entries_storeKey (now : Int) (db : RedisDb) (keepttl : Bool) (key : Bytes)
    (val : RedisObject) (when : Option Nat) : (storeKey now db keepttl key val when).entries
      = Function.update db.entries key
          (some (val, when.or (if keepttl then (db.live now key).bind (·.2) else none))) := by
  cases when with
  | none => exact entries_genericSetKey now db key val keepttl
  | some t =>
      rw [show storeKey now db keepttl key val (some t)
          = (db.genericSetKey now key val keepttl).setExpire key t
            (db.genericSetKey_isSome now key val keepttl) from rfl,
        entries_setExpire, entries_genericSetKey]
      simp

/-! ## The commands -/

theorem live_storeKey (now : Int) (db : RedisDb) (keepttl : Bool) (key : Bytes)
    (val : RedisObject) (when : Option Nat) : (storeKey now db keepttl key val when).live now
      = (db.live now).store now keepttl key val when := by
  rw [live, entries_storeKey, Keyspace.purge_update]
  rfl

theorem getGenericCommand_keys (now : Int) (db : RedisDb) (key : Bytes) :
    getGenericCommand now db key = (((db.live now).getGeneric key).1,
      (db.expireIfNeeded now key).2, ((db.live now).getGeneric key).2) := by
  rw [getGenericCommand, lookupKeyRead_eq, lookupKeyWrite_eq, Keyspace.getGeneric]
  cases db.live now key with
  | none => rfl
  | some e =>
      obtain ⟨o | t, when⟩ := e
      · rfl
      · rfl

/-- The lookup of `NX` and `XX` is made only for them. -/
theorem lookup_checked (now : Int) (db : RedisDb) (o : SetOptions) (key : Bytes) :
    ∃ found db', (if o.nx || o.xx then db.lookupKeyWrite now key else (none, db)) = (found, db')
      ∧ db'.live now = db.live now
      ∧ ((o.nx && found.isSome) || (o.xx && found.isNone))
        = ((o.nx && (db.live now key).isSome) || (o.xx && (db.live now key).isNone)) := by
  cases hcheck : o.nx || o.xx with
  | true =>
      refine ⟨_, _, by rw [if_pos rfl, lookupKeyWrite_eq], live_expireIfNeeded now db key, ?_⟩
      simp
  | false =>
      rw [Bool.or_eq_false_iff] at hcheck
      exact ⟨_, _, by rw [if_neg (by simp)], rfl, by simp [hcheck]⟩

theorem setChecked_keys (now : Int) (db : RedisDb) (o : SetOptions) (key : Bytes)
    (val : RedisObject) (when : Option Nat) :
    ((setChecked now db o key val when).1.live now, (setChecked now db o key val when).2)
      = (db.live now).setChecked now o key val when := by
  obtain ⟨found, db', hlookup, hlive, hcond⟩ := lookup_checked now db o key
  simp only [setChecked, hlookup, Keyspace.setChecked, hcond]
  split
  · rw [hlive]
  · rw [getGenericCommand_keys, hlive]
    split
    · split
      · rw [live_storeKey, live_expireIfNeeded, hlive]
      · rw [live_expireIfNeeded, hlive]
    · rw [live_storeKey, hlive]

theorem setGenericCommand_keys (now : Int) (db : RedisDb) (o : SetOptions) (key : Bytes)
    (val : RedisObject) :
    ((setGenericCommand now db o key val).1.live now, (setGenericCommand now db o key val).2)
      = (db.live now).setGeneric now o key val := by
  rw [setGenericCommand, Keyspace.setGeneric]
  cases o.expire with
  | none => exact setChecked_keys now db o key val none
  | some expire =>
      simp only
      cases expireTime now o expire with
      | error reply => rfl
      | ok when => exact setChecked_keys now db o key val (some when)

theorem delKeys_keys (now : Int) : ∀ (db : RedisDb) (keys : List Bytes),
    ((delKeys now db keys).1.live now, (delKeys now db keys).2) = (db.live now).delKeys keys
  | db, [] => rfl
  | db, key :: keys => by
      have hdel : ((db.expireIfNeeded now key).2.dbSyncDelete key).2.live now
          = (db.live now).erase key := by
        rw [live, entries_dbSyncDelete, Keyspace.purge_update, ← live, live_expireIfNeeded]
        rfl
      have hfound : ((db.expireIfNeeded now key).2.dbSyncDelete key).1
          = (db.live now key).isSome := by
        rw [dbSyncDelete, dict_eq, entries_expireIfNeeded, Function.update_self, Option.isSome_map]
      have ih := delKeys_keys now ((db.expireIfNeeded now key).2.dbSyncDelete key).2 keys
      rw [hdel] at ih
      rw [Keyspace.delKeys, ← ih, ← hfound]
      rfl

theorem setCommand_keys (now : Int) (db : RedisDb) (key val : Bytes) (args : List Bytes) :
    ((setCommand now db key val args).1.live now, (setCommand now db key val args).2)
      = Keyspace.set now (db.live now) key val args := by
  unfold setCommand Keyspace.set
  cases parseExtendedStringArguments .none args with
  | none => rfl
  | some o => exact setGenericCommand_keys now db o key _

theorem proc_keys (now : Int) (db : RedisDb) (cmd : Command) (args : List Bytes) :
    ((cmd.proc now db args).1.live now, (cmd.proc now db args).2)
      = (db.live now).proc now cmd args := by
  cases cmd with
  | get =>
      rcases args with _ | ⟨key, _ | ⟨val, args⟩⟩
      · rfl
      · rw [Command.proc, getCommand, getGenericCommand_keys, live_expireIfNeeded]
        rfl
      · rfl
  | set =>
      rcases args with _ | ⟨key, _ | ⟨val, args⟩⟩
      · rfl
      · rfl
      · exact setCommand_keys now db key val args
  | del =>
      rw [Keyspace.proc, ← delKeys_keys now db args]
      rfl

end RedisDb

/-! ## Runs -/

section

variable (other : Int → RedisDb → List Bytes → RedisDb × Outcome)

/-- What happens to a database: a request, or the server looks at a key on
its own. -/
inductive DbEvent where
  | request (argv : List Bytes)
  | activeExpire (key : Bytes)

/-- A request is one for `SET`, `GET` or `DEL`. -/
def DbEvent.Plain : DbEvent → Prop
  | .request argv => (lookupCommand (argv.headD [])).isSome = true
  | .activeExpire _ => True

instance : DecidablePred DbEvent.Plain
  | .request argv => inferInstanceAs (Decidable ((lookupCommand (argv.headD [])).isSome = true))
  | .activeExpire _ => isTrue trivial

/-- The replies of a database to events at the given times. -/
def runDb : RedisDb → List (Int × DbEvent) → List Outcome
  | _, [] => []
  | db, (now, .request argv) :: events =>
      (processCommand other now db argv).2 :: runDb (processCommand other now db argv).1 events
  | db, (now, .activeExpire key) :: events =>
      runDb (db.activeExpireCycleTryExpire now key) events

/-- The replies of the keyspace to the requests. -/
def runKeys : Keyspace → List (Int × DbEvent) → List Outcome
  | _, [] => []
  | K, (now, .request argv) :: events =>
      ((K.purge now).processCommand now argv).2
        :: runKeys ((K.purge now).processCommand now argv).1 events
  | K, (_, .activeExpire _) :: events => runKeys K events

theorem processCommand_keys (now : Int) (db : RedisDb) {argv : List Bytes}
    (hplain : (DbEvent.request argv).Plain) :
    ((processCommand other now db argv).1.live now, (processCommand other now db argv).2)
      = (db.live now).processCommand now argv := by
  obtain ⟨cmd, hcmd⟩ := Option.isSome_iff_exists.mp hplain
  rw [processCommand, Keyspace.processCommand, hcmd]
  split
  · rfl
  · simp only
    split
    · rfl
    · rw [← db.proc_keys now cmd argv.tail]

variable {other}

theorem live_at_later {start now : Int} (h : start ≤ now) {db : RedisDb} {K : Keyspace}
    (hlive : db.live start = K.purge start) : db.live now = K.purge now := by
  rw [RedisDb.live_of_le h, hlive, Keyspace.purge_purge h]

theorem runDb_eq : ∀ (events : List (Int × DbEvent)) {start : Int} {db : RedisDb} {K : Keyspace},
    (∀ e ∈ events, e.2.Plain) → (∀ e ∈ events, start ≤ e.1) →
      events.Pairwise (fun e e' => e.1 ≤ e'.1) → db.live start = K.purge start →
        runDb other db events = runKeys K events
  | [], _, _, _, _, _, _, _ => rfl
  | (now, .request argv) :: events, start, db, K, hplain, hstart, hsorted, hlive => by
      rw [List.pairwise_cons] at hsorted
      rw [List.forall_mem_cons] at hplain
      have hnow := live_at_later (hstart _ List.mem_cons_self) hlive
      have hstep := processCommand_keys other now db hplain.1
      rw [hnow] at hstep
      rw [runDb, runKeys, ← hstep]
      rw [runDb_eq events hplain.2 hsorted.1 hsorted.2]
      exact RedisDb.live_of_le (le_refl now) _
  | (now, .activeExpire key) :: events, start, db, K, hplain, hstart, hsorted, hlive => by
      rw [List.pairwise_cons] at hsorted
      rw [List.forall_mem_cons] at hplain
      have hnow := live_at_later (hstart _ List.mem_cons_self) hlive
      rw [runDb, runKeys]
      refine runDb_eq events hplain.2 hsorted.1 hsorted.2 ?_
      rw [RedisDb.live_activeExpireCycleTryExpire, hnow]

/-- **Late deletion cannot be observed** by `SET`, `GET` and `DEL`. Whatever
their arguments and times, and whenever the server looks at keys on its own,
the replies are those of keys that are gone when they expire. -/
theorem expiry_refines (db : RedisDb) (events : List (Int × DbEvent))
    (hplain : ∀ e ∈ events, e.2.Plain) (hsorted : events.Pairwise fun e e' => e.1 ≤ e'.1) :
    runDb other db events = runKeys db.entries events := by
  cases events with
  | nil => rfl
  | cons e events =>
      have hstart : ∀ e' ∈ e :: events, e.1 ≤ e'.1 := by
        intro e' he'
        rcases List.mem_cons.mp he' with rfl | he'
        · exact le_refl _
        · exact (List.pairwise_cons.mp hsorted).1 e' he'
      exact runDb_eq (e :: events) hplain hstart hsorted rfl

end

/-- A key set for fifty milliseconds, read before and after. In between the
server looks at it too early. -/
def fiftyMilliseconds : List (Int × DbEvent) :=
  [(1000, .request [bytes "SET", bytes "k", bytes "v", bytes "px", bytes "50"]),
   (1050, .activeExpire (bytes "k")),
   (1050, .request [bytes "GET", bytes "k"]),
   (1051, .request [bytes "GET", bytes "k"]),
   (1051, .request [bytes "SET", bytes "k", bytes "w", bytes "xx"])]

theorem fiftyMilliseconds_replies :
    (runDb (fun _ db _ => (db, ⟨[], false⟩)) .empty fiftyMilliseconds).map (·.reply)
        = [sharedOk, bytes "$1\r\nv\r\n", addReplyNull, addReplyNull] ∧
      runDb (fun _ db _ => (db, ⟨[], false⟩)) .empty fiftyMilliseconds
        = runKeys RedisDb.empty.entries fiftyMilliseconds :=
  ⟨by decide +kernel, expiry_refines _ _ (by decide +kernel) (by decide)⟩

end Wahana
