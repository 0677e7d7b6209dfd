import Wahana.RedisCommands
import Wahana.RedisDictMap

/-!
# The database on its hash tables

`RedisCommands` takes the two dictionaries of a database as functions. Here
they are hash tables, with the functions of `db.c` between: every look at a
key may move buckets, `getExpire` looks into both dictionaries, and the
functions assert what they rely on. An assertion that fails ends the server;
these functions then answer `none`.

`Represents` relates the tables to a database. Each function keeps it, gives
the answer of its counterpart and fails no assertion, so that
`tables_refine_db` holds for any sequence of calls, with the background work
of the server anywhere in between.
-/

namespace Wahana

/-- Of more than four slots, less than a tenth is used. -/
def htNeedsResize {κ ν : Type} (d : Dict κ ν) : Bool :=
  decide (d.ht0.size + d.ht1.size > 4 ∧ d.dictSize * 100 / (d.ht0.size + d.ht1.size) < 10)

structure DbTables where
  dict : Dict Bytes RedisObject
  expires : Dict Bytes Nat

namespace DbTables

def create : DbTables := ⟨.dictCreate, .dictCreate⟩

section

variable (hash : Bytes → BitVec 64)

def lookupKey (t : DbTables) (key : Bytes) : DbTables × Option RedisObject :=
  let (dict, val) := t.dict.dictFind hash key
  ({ t with dict }, val)

def getExpire (t : DbTables) (key : Bytes) : Option (DbTables × Int) :=
  if t.expires.dictSize = 0 then some (t, -1)
  else
    let (expires, when) := t.expires.dictFind hash key
    let t := { t with expires }
    match when with
    | none => some (t, -1)
    | some when =>
        let (t, val) := t.lookupKey hash key
        if val.isSome then some (t, when) else none

def keyIsExpired (now : Int) (t : DbTables) (key : Bytes) : Option (DbTables × Bool) :=
  match t.getExpire hash key with
  | none => none
  | some (t, when) => some (t, if when < 0 then false else decide (now > when))

def dbSyncDelete (t : DbTables) (key : Bytes) : DbTables × Bool :=
  let expires :=
    if t.expires.dictSize > 0 then (t.expires.dictDelete hash key).1 else t.expires
  let (dict, val) := t.dict.dictUnlink hash key
  (⟨dict, expires⟩, val.isSome)

def expireIfNeeded (now : Int) (t : DbTables) (key : Bytes) : Option (DbTables × Bool) :=
  match t.keyIsExpired hash now key with
  | none => none
  | some (t, expired) => some (if expired then (t.dbSyncDelete hash key).1 else t, expired)

def lookupKeyRead (now : Int) (t : DbTables) (key : Bytes) :
    Option (DbTables × Option RedisObject) :=
  match t.expireIfNeeded hash now key with
  | none => none
  | some (t, expired) => some (if expired then (t, none) else t.lookupKey hash key)

def lookupKeyWrite (now : Int) (t : DbTables) (key : Bytes) :
    Option (DbTables × Option RedisObject) :=
  match t.expireIfNeeded hash now key with
  | none => none
  | some (t, _) => some (t.lookupKey hash key)

def dbAdd (p : ResizePolicy) (t : DbTables) (key : Bytes) (val : RedisObject) : Option DbTables :=
  let (dict, ok) := t.dict.dictAdd hash p key val
  if ok then some { t with dict } else none

def dbOverwrite (t : DbTables) (key : Bytes) (val : RedisObject) : Option DbTables :=
  let (t, old) := t.lookupKey hash key
  if old.isSome then some { t with dict := t.dict.setExisting hash key val } else none

def removeExpire (t : DbTables) (key : Bytes) : Option DbTables :=
  let (t, val) := t.lookupKey hash key
  if val.isSome then some { t with expires := (t.expires.dictDelete hash key).1 } else none

/-- `dictAddOrFind` and `dictSetSignedIntegerVal` together store as
`dictReplace` does. -/
def setExpire (p : ResizePolicy) (t : DbTables) (key : Bytes) (when : Nat) : Option DbTables :=
  let (t, val) := t.lookupKey hash key
  if val.isSome then
    (t.expires.dictReplace hash p key when).map fun r => { t with expires := r.1 }
  else none

def genericSetKey (p : ResizePolicy) (now : Int) (t : DbTables) (key : Bytes) (val : RedisObject)
    (keepttl : Bool) : Option DbTables :=
  match t.lookupKeyWrite hash now key with
  | none => none
  | some (t, old) =>
      match if old.isNone then t.dbAdd hash p key val else t.dbOverwrite hash key val with
      | none => none
      | some t => if keepttl then some t else t.removeExpire hash key

def storeKey (p : ResizePolicy) (now : Int) (t : DbTables) (keepttl : Bool) (key : Bytes)
    (val : RedisObject) (when : Option Nat) : Option DbTables :=
  match t.genericSetKey hash p now key val keepttl with
  | none => none
  | some t =>
      match when with
      | none => some t
      | some when => t.setExpire hash p key when

/-- The entry comes from the table of times itself, so that nothing is
looked up. -/
def activeExpireCycleTryExpire (now : Int) (t : DbTables) (key : Bytes) : DbTables :=
  match t.expires.search hash key with
  | none => t
  | some time => if now > time then (t.dbSyncDelete hash key).1 else t

def tryResizeHashTables (p : ResizePolicy) (t : DbTables) : DbTables where
  dict := if htNeedsResize t.dict then (t.dict.dictResize p).getD t.dict else t.dict
  expires := if htNeedsResize t.expires then (t.expires.dictResize p).getD t.expires else t.expires

/-- One millisecond of rehashing, in which there is time for so many
rounds. -/
def incrementallyRehash (rounds : Nat) (t : DbTables) : DbTables :=
  if t.dict.dictIsRehashing then { t with dict := t.dict.dictRehashMilliseconds hash rounds }
  else if t.expires.dictIsRehashing then
    { t with expires := t.expires.dictRehashMilliseconds hash rounds }
  else t

end

end DbTables

/-! ## Calls -/

inductive DbCall where
  | lookupKeyRead (key : Bytes)
  | lookupKeyWrite (key : Bytes)
  | storeKey (keepttl : Bool) (key : Bytes) (val : RedisObject) (when : Option Nat)
  /-- one round of `delGenericCommand` -/
  | delete (key : Bytes)
  | tryExpire (key : Bytes)
  | tryResize
  | rehash (rounds : Nat)

inductive DbAnswer where
  | object (val : Option RedisObject)
  | deleted (b : Bool)
  | done
  deriving DecidableEq

/-- `none` where an assertion fails. -/
def DbTables.call (hash : Bytes → BitVec 64) (p : ResizePolicy) (now : Int) (t : DbTables) :
    DbCall → Option (DbTables × DbAnswer)
  | .lookupKeyRead key => (t.lookupKeyRead hash now key).map fun r => (r.1, .object r.2)
  | .lookupKeyWrite key => (t.lookupKeyWrite hash now key).map fun r => (r.1, .object r.2)
  | .storeKey keepttl key val when =>
      (t.storeKey hash p now keepttl key val when).map fun t => (t, .done)
  | .delete key =>
      (t.expireIfNeeded hash now key).map fun r =>
        ((r.1.dbSyncDelete hash key).1, .deleted (r.1.dbSyncDelete hash key).2)
  | .tryExpire key => some (t.activeExpireCycleTryExpire hash now key, .done)
  | .tryResize => some (t.tryResizeHashTables p, .done)
  | .rehash rounds => some (t.incrementallyRehash hash rounds, .done)

def RedisDb.call (now : Int) (db : RedisDb) : DbCall → RedisDb × DbAnswer
  | .lookupKeyRead key => ((db.lookupKeyRead now key).2, .object (db.lookupKeyRead now key).1)
  | .lookupKeyWrite key => ((db.lookupKeyWrite now key).2, .object (db.lookupKeyWrite now key).1)
  | .storeKey keepttl key val when => (Wahana.storeKey now db keepttl key val when, .done)
  | .delete key =>
      let db := (db.expireIfNeeded now key).2
      ((db.dbSyncDelete key).2, .deleted (db.dbSyncDelete key).1)
  | .tryExpire key => (db.activeExpireCycleTryExpire now key, .done)
  | .tryResize => (db, .done)
  | .rehash _ => (db, .done)

def DbTables.run (hash : Bytes → BitVec 64) (t : DbTables) :
    List (ResizePolicy × Int × DbCall) → Option (List DbAnswer)
  | [] => some []
  | (p, now, c) :: calls =>
      match t.call hash p now c with
      | none => none
      | some (t, answer) => (DbTables.run hash t calls).map (answer :: ·)

def RedisDb.run (db : RedisDb) : List (Int × DbCall) → List DbAnswer
  | [] => []
  | (now, c) :: calls => (db.call now c).2 :: RedisDb.run (db.call now c).1 calls

/-! ## Each function -/

theorem Dict.Implements.resizeIfNeeded {κ ν : Type} {hash : κ → BitVec 64} {d : Dict κ ν}
    {m : κ → Option ν} (h : d.Implements hash m) (p : ResizePolicy) :
    (if htNeedsResize d then (d.dictResize p).getD d else d).Implements hash m := by
  split
  · exact h.getD fun d' hd' => h.dictResize hd'
  · exact h

namespace DbTables

/-- The tables stand for the dictionaries of `db`, with at most `n` entries
each. -/
structure Represents (hash : Bytes → BitVec 64) (n : Nat) (t : DbTables) (db : RedisDb) : Prop where
  dict : t.dict.Implements hash db.dict
  expires : t.expires.Implements hash db.expires
  dict_le : t.dict.dictSize ≤ n
  expires_le : t.expires.dictSize ≤ n

namespace Represents

variable {hash : Bytes → BitVec 64} {n : Nat} {t : DbTables} {db : RedisDb}

theorem withDict (h : Represents hash n t db) {dict : Dict Bytes RedisObject}
    (hd : dict.Implements hash db.dict) : Represents hash n { t with dict } db :=
  ⟨hd, h.expires, hd.dictSize_eq h.dict ▸ h.dict_le, h.expires_le⟩

theorem withExpires (h : Represents hash n t db) {expires : Dict Bytes Nat}
    (he : expires.Implements hash db.expires) : Represents hash n { t with expires } db :=
  ⟨h.dict, he, h.dict_le, he.dictSize_eq h.expires ▸ h.expires_le⟩

theorem lookupKey (h : Represents hash n t db) (key : Bytes) :
    Represents hash n (t.lookupKey hash key).1 db ∧ (t.lookupKey hash key).2 = db.dict key := by
  obtain ⟨hd, hval⟩ := h.dict.dictFind key
  exact ⟨h.withDict hd, hval⟩

theorem getExpire (h : Represents hash n t db) (key : Bytes) :
    ∃ t', t.getExpire hash key = some (t', db.getExpire key) ∧ Represents hash n t' db := by
  unfold DbTables.getExpire RedisDb.getExpire
  split
  · rename_i hsize
    rw [h.expires.eq_none_of_dictSize hsize key]
    exact ⟨t, rfl, h⟩
  obtain ⟨he, hwhen⟩ := h.expires.dictFind key
  have h₁ := h.withExpires he
  dsimp only
  rw [hwhen]
  cases hkey : db.expires key with
  | none => exact ⟨_, rfl, h₁⟩
  | some when =>
      obtain ⟨h₂, hval⟩ := h₁.lookupKey key
      have hsome : (db.dict key).isSome = true := by
        cases hdict : db.dict key with
        | some val => rfl
        | none =>
            rw [db.expires_dict key hdict] at hkey
            cases hkey
      dsimp only
      rw [hval, if_pos hsome]
      exact ⟨_, rfl, h₂⟩

theorem keyIsExpired (h : Represents hash n t db) (now : Int) (key : Bytes) :
    ∃ t', t.keyIsExpired hash now key = some (t', db.keyIsExpired now key) ∧
      Represents hash n t' db := by
  obtain ⟨t', ht', h'⟩ := h.getExpire key
  refine ⟨t', ?_, h'⟩
  rw [DbTables.keyIsExpired, ht', RedisDb.keyIsExpired]

theorem deleteExpire (h : Represents hash n t db) (key : Bytes) :
    (if t.expires.dictSize > 0 then (t.expires.dictDelete hash key).1
      else t.expires).Implements hash (Function.update db.expires key none) := by
  split
  · exact (h.expires.dictUnlink key).1
  · exact h.expires.unchanged (h.expires.eq_none_of_dictSize (by omega) key)

theorem dbSyncDelete (h : Represents hash n t db) (key : Bytes) :
    Represents hash n (t.dbSyncDelete hash key).1 (db.dbSyncDelete key).2 ∧
      (t.dbSyncDelete hash key).2 = (db.dbSyncDelete key).1 := by
  obtain ⟨hd, hval⟩ := h.dict.dictUnlink key
  have he := h.deleteExpire key
  refine ⟨⟨hd, he, ?_, ?_⟩, ?_⟩
  · exact Nat.le_trans (h.dict.dictSize_update_none hd) h.dict_le
  · exact Nat.le_trans (h.expires.dictSize_update_none he) h.expires_le
  · rw [DbTables.dbSyncDelete, RedisDb.dbSyncDelete, ← hval]

theorem expireIfNeeded (h : Represents hash n t db) (now : Int) (key : Bytes) :
    ∃ t', t.expireIfNeeded hash now key = some (t', (db.expireIfNeeded now key).1) ∧
      Represents hash n t' (db.expireIfNeeded now key).2 := by
  obtain ⟨t', ht', h'⟩ := h.keyIsExpired now key
  rw [DbTables.expireIfNeeded, ht', RedisDb.expireIfNeeded]
  cases db.keyIsExpired now key with
  | true => exact ⟨_, rfl, (h'.dbSyncDelete key).1⟩
  | false => exact ⟨_, rfl, h'⟩

theorem lookupKeyRead (h : Represents hash n t db) (now : Int) (key : Bytes) :
    ∃ t', t.lookupKeyRead hash now key = some (t', (db.lookupKeyRead now key).1) ∧
      Represents hash n t' (db.lookupKeyRead now key).2 := by
  obtain ⟨t', ht', h'⟩ := h.expireIfNeeded now key
  rw [DbTables.lookupKeyRead, ht', RedisDb.lookupKeyRead]
  generalize db.expireIfNeeded now key = x at h' ⊢
  obtain ⟨expired, db'⟩ := x
  cases expired with
  | true => exact ⟨_, rfl, h'⟩
  | false =>
      obtain ⟨h₁, hval⟩ := h'.lookupKey key
      exact ⟨_, congrArg some (Prod.ext rfl hval), h₁⟩

theorem lookupKeyWrite (h : Represents hash n t db) (now : Int) (key : Bytes) :
    ∃ t', t.lookupKeyWrite hash now key = some (t', (db.lookupKeyWrite now key).1) ∧
      Represents hash n t' (db.lookupKeyWrite now key).2 := by
  obtain ⟨t', ht', h'⟩ := h.expireIfNeeded now key
  obtain ⟨h₁, hval⟩ := h'.lookupKey key
  refine ⟨_, ?_, h₁⟩
  rw [DbTables.lookupKeyWrite, ht', RedisDb.lookupKeyWrite]
  exact congrArg some (Prod.ext rfl hval)

/-- `dbAdd` where the key is not there, `dbOverwrite` where it is. -/
theorem setValue (h : Represents hash n t db) (hn : n ≤ longMax) (p : ResizePolicy) (key : Bytes)
    (val : RedisObject) :
    ∃ t', (if (db.dict key).isNone then t.dbAdd hash p key val else t.dbOverwrite hash key val) =
        some t' ∧ Represents hash (n + 1) t' (db.setValue key val) := by
  have hgrown : ∀ dict : Dict Bytes RedisObject,
      dict.Implements hash (Function.update db.dict key (some val)) →
        Represents hash (n + 1) { t with dict } (db.setValue key val) := by
    intro dict hd
    refine ⟨hd, h.expires, ?_, Nat.le_succ_of_le h.expires_le⟩
    exact Nat.le_trans (h.dict.dictSize_update hd) (Nat.succ_le_succ h.dict_le)
  cases hkey : db.dict key with
  | none =>
      obtain ⟨hi, hd⟩ := h.dict.dictAddRaw p key val (Nat.le_trans h.dict_le hn)
      rw [hkey] at hi hd
      simp only [Option.isNone_none, if_true, DbTables.dbAdd, Dict.dictAdd, hi]
      exact ⟨_, rfl, hgrown _ hd⟩
  | some old =>
      obtain ⟨h₁, hval⟩ := h.lookupKey key
      rw [hkey] at hval
      have hset := h₁.dict.setExisting (by rw [hkey]; rfl) val
      simp only [Option.isNone_some, Bool.false_eq_true, if_false, DbTables.dbOverwrite, hval]
      exact ⟨_, rfl, hgrown _ hset⟩

theorem removeExpire (h : Represents hash n t db) {key : Bytes}
    (hkey : (db.dict key).isSome = true) :
    ∃ t', t.removeExpire hash key = some t' ∧ Represents hash n t' (db.removeExpire key) := by
  obtain ⟨h₁, hval⟩ := h.lookupKey key
  have he := (h₁.expires.dictUnlink key).1
  rw [← hval] at hkey
  refine ⟨_, if_pos hkey, h₁.dict, he, h₁.dict_le, ?_⟩
  exact Nat.le_trans (h₁.expires.dictSize_update_none he) h₁.expires_le

theorem setExpire (h : Represents hash n t db) (hn : n ≤ longMax) (p : ResizePolicy) {key : Bytes}
    (when : Nat) (hkey : (db.dict key).isSome = true) :
    ∃ t', t.setExpire hash p key when = some t' ∧
      Represents hash (n + 1) t' (db.setExpire key when hkey) := by
  obtain ⟨h₁, hval⟩ := h.lookupKey key
  obtain ⟨expires, hreplace, he⟩ :=
    h₁.expires.dictReplace p key when (Nat.le_trans h₁.expires_le hn)
  have hfound : (t.lookupKey hash key).2.isSome = true := by rw [hval]; exact hkey
  refine ⟨{ (t.lookupKey hash key).1 with expires }, ?_, h₁.dict, he,
    Nat.le_succ_of_le h₁.dict_le, ?_⟩
  · rw [DbTables.setExpire]
    dsimp only
    rw [if_pos hfound, hreplace]
    rfl
  · exact Nat.le_trans (h₁.expires.dictSize_update he) (Nat.succ_le_succ h₁.expires_le)

theorem genericSetKey (h : Represents hash n t db) (hn : n ≤ longMax) (p : ResizePolicy)
    (now : Int) (key : Bytes) (val : RedisObject) (keepttl : Bool) :
    ∃ t', t.genericSetKey hash p now key val keepttl = some t' ∧
      Represents hash (n + 1) t' (db.genericSetKey now key val keepttl) := by
  obtain ⟨t₁, ht₁, h₁⟩ := h.lookupKeyWrite now key
  have hold : (db.lookupKeyWrite now key).1 = (db.lookupKeyWrite now key).2.dict key := rfl
  obtain ⟨t₂, ht₂, h₂⟩ := h₁.setValue hn p key val
  rw [DbTables.genericSetKey, ht₁, RedisDb.genericSetKey]
  dsimp only
  rw [hold, ht₂]
  cases keepttl with
  | true => exact ⟨t₂, rfl, h₂⟩
  | false =>
      have hsome : ((((db.lookupKeyWrite now key).2.setValue key val).dict key)).isSome = true := by
        simp [RedisDb.setValue]
      exact h₂.removeExpire hsome

theorem storeKey (h : Represents hash n t db) (hn : n < longMax) (p : ResizePolicy) (now : Int)
    (keepttl : Bool) (key : Bytes) (val : RedisObject) (when : Option Nat) :
    ∃ t', t.storeKey hash p now keepttl key val when = some t' ∧
      Represents hash (n + 2) t' (Wahana.storeKey now db keepttl key val when) := by
  obtain ⟨t₁, ht₁, h₁⟩ := h.genericSetKey (Nat.le_of_lt hn) p now key val keepttl
  unfold DbTables.storeKey Wahana.storeKey
  rw [ht₁]
  cases when with
  | none => exact ⟨t₁, rfl, h₁.dict, h₁.expires, Nat.le_succ_of_le h₁.dict_le,
      Nat.le_succ_of_le h₁.expires_le⟩
  | some when => exact h₁.setExpire hn p when (db.genericSetKey_isSome now key val keepttl)

theorem activeExpireCycleTryExpire (h : Represents hash n t db) (now : Int) (key : Bytes) :
    Represents hash n (t.activeExpireCycleTryExpire hash now key)
      (db.activeExpireCycleTryExpire now key) := by
  unfold DbTables.activeExpireCycleTryExpire RedisDb.activeExpireCycleTryExpire
  rw [h.expires.search key]
  cases db.expires key with
  | none => exact h
  | some time =>
      dsimp only
      split
      · exact (h.dbSyncDelete key).1
      · exact h

theorem tryResizeHashTables (h : Represents hash n t db) (p : ResizePolicy) :
    Represents hash n (t.tryResizeHashTables p) db :=
  (h.withDict (h.dict.resizeIfNeeded p)).withExpires (h.expires.resizeIfNeeded p)

theorem incrementallyRehash (h : Represents hash n t db) (rounds : Nat) :
    Represents hash n (t.incrementallyRehash hash rounds) db := by
  unfold DbTables.incrementallyRehash
  split
  · exact h.withDict (h.dict.dictRehashMilliseconds rounds)
  split
  · exact h.withExpires (h.expires.dictRehashMilliseconds rounds)
  · exact h

theorem mono (h : Represents hash n t db) {n' : Nat} (hn : n ≤ n') : Represents hash n' t db :=
  ⟨h.dict, h.expires, Nat.le_trans h.dict_le hn, Nat.le_trans h.expires_le hn⟩

/-! ## Runs -/

theorem call (h : Represents hash n t db) (hn : n < longMax) (p : ResizePolicy) (now : Int)
    (c : DbCall) : ∃ t', t.call hash p now c = some (t', (db.call now c).2) ∧
      Represents hash (n + 2) t' (db.call now c).1 := by
  cases c with
  | lookupKeyRead key =>
      obtain ⟨t', ht', h'⟩ := h.lookupKeyRead now key
      exact ⟨t', by rw [DbTables.call, ht']; rfl, h'.mono (by omega)⟩
  | lookupKeyWrite key =>
      obtain ⟨t', ht', h'⟩ := h.lookupKeyWrite now key
      exact ⟨t', by rw [DbTables.call, ht']; rfl, h'.mono (by omega)⟩
  | storeKey keepttl key val when =>
      obtain ⟨t', ht', h'⟩ := h.storeKey hn p now keepttl key val when
      exact ⟨t', by rw [DbTables.call, ht']; rfl, h'⟩
  | delete key =>
      obtain ⟨t', ht', h'⟩ := h.expireIfNeeded now key
      obtain ⟨h'', hdel⟩ := h'.dbSyncDelete key
      exact ⟨_, by rw [DbTables.call, ht', RedisDb.call, ← hdel]; rfl, h''.mono (by omega)⟩
  | tryExpire key => exact ⟨_, rfl, (h.activeExpireCycleTryExpire now key).mono (by omega)⟩
  | tryResize => exact ⟨_, rfl, (h.tryResizeHashTables p).mono (by omega)⟩
  | rehash rounds => exact ⟨_, rfl, (h.incrementallyRehash rounds).mono (by omega)⟩

theorem run : ∀ (calls : List (ResizePolicy × Int × DbCall)) {n : Nat} {t : DbTables}
    {db : RedisDb}, Represents hash n t db → n + 2 * calls.length ≤ longMax →
    t.run hash calls = some (db.run (calls.map Prod.snd))
  | [], _, _, _, _, _ => rfl
  | (p, now, c) :: calls, n, t, db, h, hn => by
      rw [List.length_cons] at hn
      obtain ⟨t', ht', h'⟩ := h.call (by omega) p now c
      have hrest := run calls h' (by omega)
      rw [DbTables.run, ht']
      dsimp only
      rw [hrest]
      rfl

end Represents

end DbTables

/-- **The tables are the database.** Whatever calls are made at whatever
times, with rehashing and resizing anywhere in between and whatever the hash
function, no assertion fails and the answers are those of the database whose
dictionaries are functions. -/
theorem tables_refine_db (hash : Bytes → BitVec 64)
    (calls : List (ResizePolicy × Int × DbCall)) (hcalls : 2 * calls.length ≤ longMax) :
    DbTables.create.run hash calls = some (RedisDb.empty.run (calls.map Prod.snd)) := by
  refine DbTables.Represents.run (n := 0) calls ⟨?_, ?_, Nat.le_refl 0, Nat.le_refl 0⟩ (by omega)
  · exact Dict.implements_dictCreate
  · exact Dict.implements_dictCreate

/-- A key with a time is read before and after, and deleted when it is gone
already. -/
def expiringCalls : List (ResizePolicy × Int × DbCall) :=
  [(⟨true, true⟩, 1000, .storeKey false (bytes "k") (.aggregate .list) (some 1050)),
    (⟨true, true⟩, 1050, .lookupKeyRead (bytes "k")),
    (⟨true, true⟩, 1051, .lookupKeyRead (bytes "k")),
    (⟨true, true⟩, 1051, .rehash 1),
    (⟨true, true⟩, 1052, .delete (bytes "k"))]

theorem expiringCalls_on_tables :
    DbTables.create.run (fun _ => 0#64) expiringCalls =
      some [.done, .object (some (.aggregate .list)), .object none, .done, .deleted false] :=
  (tables_refine_db (fun _ => 0#64) expiringCalls (by decide)).trans (by decide +kernel)

end Wahana
