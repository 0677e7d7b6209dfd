import Wahana.PredisReplies
import Wahana.RedisKeys
import Wahana.RedisServer

/-!
# Redis: plain strings

`SET` without options, `GET` and `DEL` of keys that hold strings and do not
expire: however the texts are kept, the commands act on a map from keys to
texts (`processCommand_plain`).

With the results on reading requests and replies this says what a client
may believe. Any number of clients send such commands, their bytes are read
in pieces and in any order, and the replies come back in packets: each of
them reads what one map would have answered, to all the commands in one
order (`clients_share_a_map`).
-/

namespace Wahana

open Predis (Reply)

/-- The commands the converters send, and the same of a map. -/
inductive PlainCommand where
  | set (key value : Bytes)
  | get (key : Bytes)
  | del (key : Bytes)
  deriving DecidableEq, Repr

namespace PlainCommand

/-- The request, with the command ids of Predis. -/
def argv : PlainCommand → List Bytes
  | set key value => [bytes "SET", key, value]
  | get key => [bytes "GET", key]
  | del key => [bytes "DEL", key]

/-- The bytes Predis writes for it. -/
def request : PlainCommand → Bytes
  | set key value => Predis.writeRequest (bytes "SET") [key, value]
  | get key => Predis.writeRequest (bytes "GET") [key]
  | del key => Predis.writeRequest (bytes "DEL") [key]

theorem request_eq : ∀ cmd : PlainCommand, cmd.request = multibulk cmd.argv
  | set _ _ => writeRequest_eq ..
  | get _ => writeRequest_eq ..
  | del _ => writeRequest_eq ..

/-- The command on the value of its own key. -/
def onValue : PlainCommand → Option Bytes → Option Bytes
  | set _ value, _ => some value
  | get _, v => v
  | del _, _ => none

def key : PlainCommand → Bytes
  | set key _ => key
  | get key => key
  | del key => key

/-- The reply, given the value of the key. -/
def reply : PlainCommand → Option Bytes → Reply
  | set _ _, _ => .status (bytes "OK")
  | get _, none => .null
  | get _, some v => .bulk v
  | del _, v => .integer v.isSome.toNat

end PlainCommand

/-- An entry that is a text, or nothing, for good. -/
inductive HoldsEntry : Option (RedisObject × Option Nat) → Option Bytes → Prop where
  | absent : HoldsEntry none none
  | present (o : StringObject) (h : ((decoded o).length : Int) ≤ protoMaxBulkLen) :
      HoldsEntry (some (.string o, none)) (some (decoded o))

def Holds (db : RedisDb) (key : Bytes) (v : Option Bytes) : Prop := HoldsEntry (db.entries key) v

/-- The key and the value are not too long for the server. -/
def PlainCommand.Fits (cmd : PlainCommand) : Prop :=
  ∀ a ∈ cmd.argv, (a.length : Int) ≤ protoMaxBulkLen

section

variable {db : RedisDb} {key : Bytes} {v : Option Bytes}

theorem Holds.live (h : Holds db key v) (now : Int) : db.live now key = db.entries key := by
  rw [RedisDb.live, Keyspace.purge]
  unfold Holds at h
  generalize db.entries key = e at h ⊢
  cases h <;> rfl

theorem Holds.of_entries_eq {db' : RedisDb} (hentries : db'.entries key = db.entries key)
    (h : Holds db key v) : Holds db' key v := by
  rw [Holds, hentries]
  exact h

theorem Holds.sent_get (h : Holds db key v) (now : Int) :
    ((db.live now).getGeneric key).2 = ((PlainCommand.get key).reply v).sent := by
  rw [Keyspace.getGeneric, h.live]
  unfold Holds at h
  generalize db.entries key = e at h ⊢
  have hbulk : protoMaxBulkLen = 536870912 := rfl
  have hmax : llongMax = 2 ^ 63 - 1 := rfl
  cases h with
  | absent => rfl
  | present o hlen =>
      show addReplyBulk o = addReplyBulk (createStringObject (decoded o))
      rw [addReplyBulk_eq (by omega), addReplyBulk_eq (by rw [decoded_createStringObject]; omega),
        decoded_createStringObject]

theorem Holds.isSome (h : Holds db key v) : (db.entries key).isSome = v.isSome := by
  unfold Holds at h
  generalize db.entries key = e at h ⊢
  cases h <;> rfl

theorem processCommand_set (other : Int → RedisDb → List Bytes → RedisDb × Outcome) (now : Int)
    (db : RedisDb) (key value : Bytes) :
    processCommand other now db [bytes "SET", key, value]
      = (storeKey now db false key (.string (tryObjectEncoding (createStringObject value))) none,
          ⟨sharedOk, false⟩) :=
  rfl

theorem processCommand_get (other : Int → RedisDb → List Bytes → RedisDb × Outcome) (now : Int)
    (db : RedisDb) (key : Bytes) :
    processCommand other now db [bytes "GET", key]
      = ((db.expireIfNeeded now key).2, ⟨((db.live now).getGeneric key).2, false⟩) := by
  have hget : processCommand other now db [bytes "GET", key]
      = ((getCommand now db key).1, ⟨(getCommand now db key).2, false⟩) := rfl
  rw [hget, getCommand, RedisDb.getGenericCommand_keys]

theorem processCommand_del (other : Int → RedisDb → List Bytes → RedisDb × Outcome) (now : Int)
    (db : RedisDb) (key : Bytes) :
    processCommand other now db [bytes "DEL", key]
      = (((db.expireIfNeeded now key).2.dbSyncDelete key).2,
          ⟨addReplyLongLong (db.live now key).isSome.toNat, false⟩) := by
  have hdel : processCommand other now db [bytes "DEL", key]
      = (((db.expireIfNeeded now key).2.dbSyncDelete key).2,
          ⟨addReplyLongLong ((db.expireIfNeeded now key).2.dbSyncDelete key).1.toNat, false⟩) := rfl
  rw [hdel, RedisDb.dbSyncDelete, RedisDb.dict_eq, RedisDb.entries_expireIfNeeded,
    Function.update_self, Option.isSome_map]

theorem holds_encoded {db' : RedisDb} {value : Bytes}
    (hlen : (value.length : Int) ≤ protoMaxBulkLen)
    (h : db'.entries key
      = some (.string (tryObjectEncoding (createStringObject value)), none)) :
    Holds db' key (some value) := by
  have hdec : decoded (tryObjectEncoding (createStringObject value)) = value := by
    rw [decoded_tryObjectEncoding, decoded_createStringObject]
  rw [Holds, h]
  have hholds := HoldsEntry.present (tryObjectEncoding (createStringObject value))
    (by rw [hdec]; exact hlen)
  rwa [hdec] at hholds

/-- **A plain command acts on the value of its key**, replies as a map of
texts would, and leaves the other keys alone. -/
theorem processCommand_plain (other : Int → RedisDb → List Bytes → RedisDb × Outcome) (now : Int)
    {cmd : PlainCommand} (hfits : cmd.Fits) (h : Holds db cmd.key v) :
    ∃ db', processCommand other now db cmd.argv = (db', ⟨(cmd.reply v).sent, false⟩) ∧
      Holds db' cmd.key (cmd.onValue v) ∧
      ∀ k, k ≠ cmd.key → db'.entries k = db.entries k := by
  cases cmd with
  | set key value =>
      simp only [PlainCommand.key] at h ⊢
      refine ⟨_, processCommand_set other now db key value, ?_, fun k hk => ?_⟩
      · refine holds_encoded (hfits value (by simp [PlainCommand.argv])) ?_
        rw [RedisDb.entries_storeKey, Function.update_self]
        rfl
      · rw [RedisDb.entries_storeKey, Function.update_of_ne hk]
  | get key =>
      simp only [PlainCommand.key] at h ⊢
      refine ⟨(db.expireIfNeeded now key).2, ?_, ?_, fun k hk => ?_⟩
      · rw [← h.sent_get now]
        exact processCommand_get other now db key
      · refine h.of_entries_eq ?_
        rw [RedisDb.entries_expireIfNeeded, Function.update_self]
        exact h.live now
      · rw [RedisDb.entries_expireIfNeeded, Function.update_of_ne hk]
  | del key =>
      simp only [PlainCommand.key] at h ⊢
      refine ⟨((db.expireIfNeeded now key).2.dbSyncDelete key).2, ?_, ?_, fun k hk => ?_⟩
      · rw [PlainCommand.argv, processCommand_del, h.live, h.isSome]
        rfl
      · rw [Holds, RedisDb.entries_dbSyncDelete, Function.update_self]
        exact .absent
      · rw [RedisDb.entries_dbSyncDelete, Function.update_of_ne hk,
          RedisDb.entries_expireIfNeeded, Function.update_of_ne hk]

end

/-! ## A server of plain commands -/

/-- The database, and how many commands have been called. -/
structure RedisState where
  db : RedisDb
  calls : Nat

/-- `processCommand`; `clock` is the time at each call. -/
def redisExec (other : Int → RedisDb → List Bytes → RedisDb × Outcome) (clock : Nat → Int)
    (s : RedisState) (argv : List Bytes) : RedisState × Outcome :=
  let (db, o) := processCommand other (clock s.calls) s.db argv
  (⟨db, s.calls + 1⟩, o)

/-- The commands on a map, one after another. -/
def runMap {ι : Type} : (Bytes → Option Bytes) → List (ι × PlainCommand) → List (ι × Reply)
  | _, [] => []
  | m, (i, cmd) :: log =>
      (i, cmd.reply (m cmd.key))
        :: runMap (Function.update m cmd.key (cmd.onValue (m cmd.key))) log

section

variable {ι : Type} {other : Int → RedisDb → List Bytes → RedisDb × Outcome} {clock : Nat → Int}

theorem execLog_plain : ∀ {log : List (ι × PlainCommand)} {s : RedisState}
    {m : Bytes → Option Bytes}, (∀ e ∈ log, e.2.Fits) → (∀ key, Holds s.db key (m key)) →
      (execLog (redisExec other clock) s (log.map fun e => (e.1, e.2.argv))).2
        = (runMap m log).map fun e => (e.1, e.2.sent)
  | [], _, _, _, _ => rfl
  | (i, cmd) :: log, s, m, hfits, hholds => by
      rw [List.forall_mem_cons] at hfits
      obtain ⟨db', hexec, hkey, hother⟩ :=
        processCommand_plain other (clock s.calls) hfits.1 (hholds cmd.key)
      have hholds' : ∀ key, Holds db' key
          (Function.update m cmd.key (cmd.onValue (m cmd.key)) key) := by
        intro key
        by_cases hk : key = cmd.key
        · rw [hk, Function.update_self]
          exact hkey
        · rw [Function.update_of_ne hk]
          exact (hholds key).of_entries_eq (hother key hk)
      have ih := execLog_plain (s := ⟨db', s.calls + 1⟩) hfits.2 hholds'
      simp only [List.map_cons, execLog, redisExec, hexec, runMap]
      rw [← ih]

theorem PlainCommand.Fits.isRequest {cmd : PlainCommand} (h : cmd.Fits) : IsRequest cmd.argv := by
  refine ⟨?_, ?_, h⟩
  · cases cmd <;> simp [PlainCommand.argv]
  · cases cmd <;> simp [PlainCommand.argv]

theorem PlainCommand.quit_eq_false (cmd : PlainCommand) (s : RedisState) :
    (redisExec other clock s cmd.argv).2.quit = false := by
  cases cmd <;> rfl

variable (other clock) in
theorem proper_plain {cmds : List PlainCommand} (hfits : ∀ cmd ∈ cmds, cmd.Fits) :
    Proper (redisExec other clock) (cmds.map (·.argv)) := by
  intro argv hargv
  obtain ⟨cmd, hcmd, rfl⟩ := List.mem_map.mp hargv
  exact ⟨(hfits cmd hcmd).isRequest, cmd.quit_eq_false⟩

/-! ### The replies are read -/

theorem reply_valid (cmd : PlainCommand) {v : Option Bytes}
    (hv : ∀ s ∈ v, (s.length : Int) ≤ protoMaxBulkLen) :
    (cmd.reply v).Valid ∧ (cmd.reply v).depth = 1 := by
  have hbulk : protoMaxBulkLen = 536870912 := rfl
  have hmax : llongMax = 2 ^ 63 - 1 := rfl
  cases cmd with
  | set key value => exact ⟨show ch '\n' ∉ bytes "OK" by decide, rfl⟩
  | get key =>
      cases v with
      | none => exact ⟨trivial, rfl⟩
      | some s =>
          have hlen := hv s rfl
          exact ⟨show (s.length : Int) ≤ llongMax by omega, rfl⟩
  | del key =>
      refine ⟨show IsLongLong (v.isSome.toNat : Int) from ?_, rfl⟩
      exact isLongLong_natCast (by cases v <;> simp [hmax])

theorem onValue_length {cmd : PlainCommand} (hfits : cmd.Fits) {v : Option Bytes}
    (hv : ∀ s ∈ v, (s.length : Int) ≤ protoMaxBulkLen) :
    ∀ s ∈ cmd.onValue v, (s.length : Int) ≤ protoMaxBulkLen := by
  cases cmd with
  | set key value =>
      intro s hs
      obtain rfl : value = s := Option.some.inj hs
      exact hfits value (by simp [PlainCommand.argv])
  | get key => exact hv
  | del key =>
      intro s hs
      cases hs

theorem runMap_valid : ∀ {log : List (ι × PlainCommand)} {m : Bytes → Option Bytes},
    (∀ e ∈ log, e.2.Fits) → (∀ key, ∀ s ∈ m key, (s.length : Int) ≤ protoMaxBulkLen) →
      ∀ e ∈ runMap m log, e.2.Valid ∧ e.2.depth = 1
  | [], _, _, _, _, he => by cases he
  | (i, cmd) :: log, m, hfits, hm, e, he => by
      rw [List.forall_mem_cons] at hfits
      rcases List.mem_cons.mp he with rfl | he
      · exact reply_valid cmd (hm cmd.key)
      · refine runMap_valid hfits.2 (fun key => ?_) e he
        by_cases hk : key = cmd.key
        · rw [hk, Function.update_self]
          exact onValue_length hfits.1 (hm cmd.key)
        · rw [Function.update_of_ne hk]
          exact hm key

theorem Holds.length_le {db : RedisDb} {key : Bytes} {v : Option Bytes} (h : Holds db key v) :
    ∀ s ∈ v, (s.length : Int) ≤ protoMaxBulkLen := by
  unfold Holds at h
  generalize db.entries key = e at h
  intro s hs
  cases h with
  | absent => cases hs
  | present o hlen =>
      obtain rfl : decoded o = s := Option.some.inj hs
      exact hlen

/-! ### The requests are commands -/

theorem arrived_subset : ∀ {requests : List (List Bytes)} {n : Nat} {argv : List Bytes},
    argv ∈ (arrived requests n).1 → argv ∈ requests
  | [], _, _, h => by cases h
  | r :: requests, n, argv, h => by
      rw [arrived] at h
      split at h
      · rcases List.mem_cons.mp h with rfl | h
        · exact List.mem_cons_self
        · exact List.mem_cons_of_mem _ (arrived_subset h)
      · cases h

theorem exists_commands {P : ι → PlainCommand → Prop} : ∀ {log : List (ι × List Bytes)},
    (∀ e ∈ log, ∃ cmd, P e.1 cmd ∧ cmd.argv = e.2) →
      ∃ cmds : List (ι × PlainCommand), log = cmds.map (fun e => (e.1, e.2.argv))
        ∧ ∀ e ∈ cmds, P e.1 e.2
  | [], _ => ⟨[], rfl, by simp⟩
  | (i, argv) :: log, h => by
      rw [List.forall_mem_cons] at h
      obtain ⟨⟨cmd, hcmd, rfl⟩, hlog⟩ := h
      obtain ⟨cmds, rfl, hcmds⟩ := exists_commands hlog
      exact ⟨(i, cmd) :: cmds, rfl, List.forall_mem_cons.mpr ⟨hcmd, hcmds⟩⟩

variable [DecidableEq ι]

theorem ofClient_map {α β : Type} (i : ι) (f : α → β) (xs : List (ι × α)) :
    ofClient i (xs.map fun e => (e.1, f e.2)) = (ofClient i xs).map f := by
  simp [ofClient, List.filter_map, Function.comp_def]

theorem mem_ofClient {α : Type} {i : ι} {a : α} {xs : List (ι × α)} (h : (i, a) ∈ xs) :
    a ∈ ofClient i xs := by
  simp only [ofClient, List.mem_map, List.mem_filter]
  exact ⟨(i, a), ⟨h, by simp⟩, rfl⟩

theorem length_runMap (i : ι) : ∀ {log : List (ι × PlainCommand)} {m : Bytes → Option Bytes},
    (ofClient i (runMap m log)).length = (ofClient i log).length
  | [], _ => rfl
  | (j, cmd) :: log, m => by
      rw [runMap]
      by_cases hj : j = i
      · simp only [ofClient, List.filter_cons, hj, decide_true, if_true, List.map_cons,
          List.length_cons]
        exact congrArg (· + 1) (length_runMap i)
      · simp only [ofClient, List.filter_cons, hj, decide_false, Bool.false_eq_true, if_false]
        exact length_runMap i

/-- **The clients share a map.** Any number of clients send plain commands.
However the server reads their bytes and however the replies come back in
packets, there is an order of the commands such that each client reads, in
its own order, what a map of texts would answer. -/
theorem clients_share_a_map {cmds : ι → List PlainCommand} {wire : ι → Bytes} {s : RedisState}
    {m : Bytes → Option Bytes} (hfits : ∀ i, ∀ cmd ∈ cmds i, cmd.Fits)
    (hwire : ∀ i, wire i <+: wireOf ((cmds i).map (·.argv)))
    (hholds : ∀ key, Holds s.db key (m key)) (reads : List (ι × Nat))
    {server : Server ι RedisState}
    (hserver : (Server.start s wire).run (redisExec other clock) reads = server) :
    ∃ log : List (ι × PlainCommand), ∀ i,
      (ofClient i log).map (·.argv) = (arrived ((cmds i).map (·.argv))
        ((wire i).length - (server.wire i).length)).1 ∧
      ∀ (ended : Bool) (packets : Predis.Socket), packets.flatten = (server.client i).reply →
        ∃ rest, Predis.readMany (Predis.read ended 1) (ofClient i log).length packets
          = .ok ((ofClient i (runMap m log)).map (·.response), rest) := by
  have hproper := fun i => proper_plain other clock (hfits i)
  obtain ⟨rawLog, h⟩ := Linearized.start.run hproper hwire reads (s := s)
  rw [hserver] at h
  have hcommands : ∀ e ∈ rawLog, ∃ cmd : PlainCommand, cmd.Fits ∧ cmd.argv = e.2 := by
    rintro ⟨i, argv⟩ he
    have hmem := mem_ofClient he
    rw [h.ofClient_eq] at hmem
    obtain ⟨cmd, hcmd, hargv⟩ := List.mem_map.mp (arrived_subset hmem)
    exact ⟨cmd, hfits i cmd hcmd, hargv⟩
  obtain ⟨log, rfl, hlog⟩ := exists_commands (P := fun _ cmd => cmd.Fits) hcommands
  refine ⟨log, fun i => ⟨?_, fun ended packets hpackets => ?_⟩⟩
  · rw [← h.ofClient_eq, ofClient_map i PlainCommand.argv]
  · have hvalid : ∀ r ∈ ofClient i (runMap m log), r.Valid ∧ r.depth = 1 := by
      intro r hr
      obtain ⟨e, he, rfl⟩ := List.mem_map.mp hr
      exact runMap_valid hlog (fun key => (hholds key).length_le) e (List.mem_of_mem_filter he)
    have hreply := ((h.client i).quiet (hproper i) s).reply
    rw [execLog_plain hlog hholds, ofClient_map i Reply.sent, ← Reply.sentAll_eq] at hreply
    obtain ⟨rest, hread, -⟩ := Predis.readMany_sent (e := ended) (ofClient i (runMap m log))
      (Reply.allValid_of_forall fun r hr => (hvalid r hr).1)
      (Reply.depths_le fun r hr => (hvalid r hr).2.le)
      (hpackets.trans (hreply.trans (List.append_nil _).symm))
    refine ⟨rest, ?_⟩
    rw [Reply.responses_eq, length_runMap] at hread
    exact hread

end

/-- Two clients at work on one key. -/
def sharedKey : Bool → List PlainCommand
  | true => [.set (bytes "k") (bytes "007"), .get (bytes "k")]
  | false => [.set (bytes "k") (bytes "7"), .get (bytes "k"), .del (bytes "k")]

theorem sharedKey_fits : ∀ i, ∀ cmd ∈ sharedKey i, cmd.Fits := by
  have hsmall : ∀ i, ∀ cmd ∈ sharedKey i, ∀ a ∈ cmd.argv, a.length ≤ 3 := by decide
  intro i cmd hcmd a ha
  have hlen := hsmall i cmd hcmd a ha
  have hbulk : protoMaxBulkLen = 536870912 := rfl
  omega

/-- The text of the first client is read before the other one overwrites
it. -/
def sharedKeyServer : Server Bool RedisState :=
  (Server.start ⟨.empty, 0⟩ fun i => wireOf ((sharedKey i).map (·.argv))).run
    (redisExec (fun _ db _ => (db, ⟨[], false⟩)) fun _ => 0)
    [(true, 40), (false, 3), (true, 40), (false, 100)]

theorem sharedKey_read : ∃ log : List (Bool × PlainCommand), (ofClient true log).length = 2 ∧
    ∃ rest, Predis.readMany (Predis.read false 1) (ofClient true log).length
        [bytes "+OK\r", bytes "\n$3\r\n00", bytes "7\r\n"]
      = .ok ((ofClient true (runMap (fun _ => none) log)).map (·.response), rest) := by
  have hempty : ∀ key, Holds (RedisState.mk .empty 0).db key ((fun _ => none) key) :=
    fun _ => HoldsEntry.absent
  obtain ⟨log, hlog⟩ := clients_share_a_map sharedKey_fits (fun i => List.prefix_rfl) hempty
    [(true, 40), (false, 3), (true, 40), (false, 100)] (rfl : _ = sharedKeyServer)
  have hlen := congrArg List.length (hlog true).1
  rw [List.length_map] at hlen
  exact ⟨log, hlen.trans (by decide +kernel), (hlog true).2 false _ (by decide +kernel)⟩

end Wahana
