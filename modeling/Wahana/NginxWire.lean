import Wahana.NginxRace
import Wahana.RedisStrings

/-!
# Two converters, the server and the wire between them

`NginxRace` lets a command of a converter take effect in one step. Here the
same two runs write the bytes of their requests, the server reads them in
pieces, executes and replies, and a run goes on when it has read the reply
from the packets it came in. A run opens a connection for each line, as
`new Client()` does. The connections stay open.

Whatever the order in which all this happens, the runs send what they send
in some schedule of `NginxRace`, and every schedule can happen
(`wire_iff_race`): a command takes effect when the server has read its last
byte. So what was shown for the schedules holds for the processes, the
exchange of records included (`records_exchanged_on_wire`).
-/

namespace Wahana

open Predis (Reply)

/-! ## The system -/

/-- A run, the number of its connection, whether it waits for a reply, and
how much of the connection it has read. -/
structure WireRun extends ConvRun where
  conn : Nat
  waiting : Bool
  got : Nat

def jsonKey : Bytes := bytes "json"

/-- The command of a run, if it is at one. -/
def ConvRun.command (r : ConvRun) : Option PlainCommand :=
  match r.todo, r.phase with
  | [], _ => none
  | line :: _, .set => some (.set jsonKey (staged (parseLine line)))
  | _ :: _, .get => some (.get jsonKey)
  | _ :: _, .index => none
  | _ :: _, .del => some (.del jsonKey)

/-- `$user` -/
def textOf : Predis.Response → Option Bytes
  | .string s => some s
  | _ => none

/-- The run goes on with the response to its command. An error response is
thrown as an exception, which ends the script. -/
def WireRun.accept (r : WireRun) (got : Nat) (response : Predis.Response) : WireRun :=
  match response with
  | .error _ => { r with todo := [], waiting := false }
  | _ =>
      match r.phase with
      | .set => { r with phase := .get, waiting := false, got := got }
      | .get => { r with phase := .index, user := textOf response, waiting := false, got := got }
      | .index => r
      | .del =>
          { r with phase := .set, todo := r.todo.tail, waiting := false, conn := r.conn + 1, got := 0 }

/-- What can happen next. -/
inductive NetEvent where
  | send (c : Client)
  | index (c : Client)
  | read (connection : Client × Nat) (k : Nat)
  | receive (c : Client) (packets : Predis.Socket)

structure Net where
  run : Client → WireRun
  server : Server (Client × Nat) RedisState

namespace Net

def start (lines : Client → List Bytes) (s : RedisState) : Net where
  run := fun c => ⟨.start (lines c), 0, false, 0⟩
  server := .start s fun _ => []

/-- The connection of a run. -/
def connection (net : Net) (c : Client) : Client × Nat := (c, (net.run c).conn)

/-- The replies on its connection that a run has not read. -/
def unread (net : Net) (c : Client) : Bytes :=
  (net.server.client (net.connection c)).reply.drop (net.run c).got

def setRun (net : Net) (c : Client) (r : WireRun) : Net :=
  { net with run := Function.update net.run c r }

def write (net : Net) (connection : Client × Nat) (buffer : Bytes) : Net :=
  { net with
    server :=
      { net.server with
        wire := Function.update net.server.wire connection
          (net.server.wire connection ++ buffer) } }

/-- A run writes a request and waits for the reply. -/
def ask (net : Net) (c : Client) (cmd : PlainCommand) : Net :=
  (net.write (net.connection c) cmd.request).setRun c { net.run c with waiting := true }

theorem setRun_self (net : Net) (c : Client) (r : WireRun) : (net.setRun c r).run c = r :=
  Function.update_self ..

theorem setRun_other (net : Net) {c d : Client} (h : d ≠ c) (r : WireRun) :
    (net.setRun c r).run d = net.run d :=
  Function.update_of_ne h ..

theorem run_ask_self (net : Net) (c : Client) (cmd : PlainCommand) :
    (net.ask c cmd).run c = { net.run c with waiting := true } :=
  Function.update_self ..

theorem run_ask_other (net : Net) {c d : Client} (h : d ≠ c) (cmd : PlainCommand) :
    (net.ask c cmd).run d = net.run d :=
  Function.update_of_ne h ..

theorem connection_ask (net : Net) (c : Client) (cmd : PlainCommand) :
    (net.ask c cmd).connection c = net.connection c := by
  rw [connection, run_ask_self]
  rfl

theorem wire_ask_self (net : Net) (c : Client) (cmd : PlainCommand) :
    (net.ask c cmd).server.wire (net.connection c)
      = net.server.wire (net.connection c) ++ multibulk cmd.argv := by
  rw [← cmd.request_eq]
  exact Function.update_self ..

theorem wire_ask_other (net : Net) {c : Client} {i : Client × Nat} (h : i ≠ net.connection c)
    (cmd : PlainCommand) : (net.ask c cmd).server.wire i = net.server.wire i :=
  Function.update_of_ne h ..

variable (other : Int → RedisDb → List Bytes → RedisDb × Outcome) (clock : Nat → Int)

def step (net : Net) : NetEvent → Net
  | .send c =>
      match (net.run c).command with
      | none => net
      | some cmd =>
          if (net.run c).waiting then net
          else net.ask c cmd
  | .index c =>
      if (net.run c).todo ≠ [] ∧ (net.run c).phase = .index ∧ (net.run c).waiting = false then
        net.setRun c
          { net.run c with phase := .del, sent := (net.run c).sent ++ [bodyOf (net.run c).user] }
      else net
  | .read connection k =>
      { net with server := net.server.read (redisExec other clock) (connection, k) }
  | .receive c packets =>
      if (net.run c).waiting ∧ packets.flatten <+: net.unread c then
        match Predis.read false 1 packets with
        | .error _ => net
        | .ok (response, rest) =>
            net.setRun c ((net.run c).accept
              ((net.run c).got + (packets.flatten.length - rest.flatten.length)) response)
      else net

def exec (net : Net) (events : List NetEvent) : Net := events.foldl (step other clock) net

end Net

/-! ## One request on a connection -/

section

variable {σ : Type} {exec : σ → List Bytes → σ × Outcome} {argv : List Bytes} {R left : Bytes}
  {c : RedisClient}

variable (exec) in
/-- Nothing is under way on a connection. -/
def AtRest (R : Bytes) (c : RedisClient) : Prop := ClientAt exec [] [] [] R c []

variable (exec) in
/-- A request is under way, and `left` of it has not been read. -/
def Asked (argv : List Bytes) (R : Bytes) (c : RedisClient) (left : Bytes) : Prop :=
  ClientAt exec [argv] (multibulk argv) [] R c left

theorem atRest_fresh : AtRest exec [] .fresh := ClientAt.start [] []

theorem AtRest.ask (h : AtRest exec R c) (argv : List Bytes) :
    Asked exec argv R c (multibulk argv) := by
  obtain ⟨⟨todo, part, htodo, hsplit, hpart, hdrain⟩, hpos⟩ := h
  obtain rfl : part = [] := by
    have hnil := hsplit.symm
    simp only [wireOf, List.flatMap_nil, List.nil_append, List.append_nil] at hnil
    exact hnil
  exact ⟨⟨[argv], [], rfl, rfl, ⟨multibulk argv, by simp [multibulk], rfl⟩, hdrain⟩, hpos⟩

/-- As long as a request has not been executed, some of it has not been
read. -/
theorem Asked.left_ne (h : Asked exec argv R c left) : left ≠ [] := by
  rintro rfl
  obtain ⟨⟨todo, part, htodo, hsplit, hpart, -⟩, -⟩ := h
  obtain rfl : [argv] = todo := htodo
  obtain ⟨missing, hne, hmissing⟩ := hpart
  simp only [wireOf, List.flatMap_nil, List.nil_append, List.append_nil] at hsplit
  rw [hsplit] at hmissing
  exact hne (List.append_right_eq_self.mp hmissing)

theorem AtRest.reply (h : AtRest exec R c) (s : σ) : c.reply = R :=
  (ClientAt.quiet h (by simp [Proper]) s).reply

/-- A read of part of a request does nothing but keep it; the last part
executes the request. -/
theorem Asked.read (h : Asked exec argv R c left) (hproper : Proper exec [argv]) (s : σ) (k : Nat)
    {s' : σ} {c' : RedisClient} {left' : Bytes}
    (hread : readQueryFromClient exec s c (left.take k) = (s', c', left')) :
    (s' = s ∧ Asked exec argv R c' (left' ++ left.drop k)) ∨
      (s' = (exec s argv).1 ∧ left' ++ left.drop k = [] ∧
        AtRest exec (R ++ (exec s argv).2.reply) c') := by
  have hwire : multibulk argv <+: wireOf [argv] := by simp [wireOf]
  obtain ⟨new, hs', hat⟩ := ClientAt.read h hproper hwire s k hread
  rw [List.nil_append] at hat
  obtain ⟨⟨todo, part, htodo, hsplit, hpart, hdrain⟩, hpos⟩ := hat
  rcases new with _ | ⟨first, new⟩
  · left
    rw [execAll, List.append_nil] at hdrain
    exact ⟨hs', ⟨⟨todo, part, htodo, hsplit, hpart, hdrain⟩, hpos⟩⟩
  · right
    obtain ⟨rfl, hnil⟩ := List.cons.inj htodo
    obtain ⟨rfl, rfl⟩ := List.append_eq_nil_iff.mp hnil.symm
    obtain rfl : part = [] := hpart
    simp only [wireOf, List.flatMap_cons, List.flatMap_nil, List.append_nil] at hsplit
    simp only [execAll, List.append_nil] at hs' hdrain
    exact ⟨hs', List.append_right_eq_self.mp hsplit.symm, ⟨⟨[], [], rfl, rfl, rfl, hdrain⟩, hpos⟩⟩

end

/-! ## The simulation -/

section

variable {other : Int → RedisDb → List Bytes → RedisDb × Outcome} {clock : Nat → Int}

variable (other clock) in
/-- A run on the wire and its counterpart, which has made the step of the
command as soon as the server has executed it. -/
inductive Linked (r : WireRun) (q : ConvRun) (client : RedisClient) (left : Bytes) : Prop where
  | ready {R : Bytes} (hq : q = r.toConvRun) (hwait : r.waiting = false) (hleft : left = [])
      (hrest : AtRest (redisExec other clock) R client) (hgot : r.got = R.length)
  | asked {R : Bytes} {cmd : PlainCommand} (hq : q = r.toConvRun) (hwait : r.waiting = true)
      (hcmd : r.command = some cmd)
      (hasked : Asked (redisExec other clock) cmd.argv R client left) (hgot : r.got = R.length)
  | answered {R : Bytes} {cmd : PlainCommand} {redis : Redis}
      (hq : q = (r.toConvRun.step redis).1) (hwait : r.waiting = true)
      (hcmd : r.command = some cmd) (hleft : left = [])
      (hrest : AtRest (redisExec other clock) (R ++ (cmd.reply (redis.get "json")).sent) client)
      (hgot : r.got = R.length)
      (hlen : ∀ s ∈ redis.get "json", (s.length : Int) ≤ protoMaxBulkLen)

theorem Linked.of_not_waiting {r : WireRun} {q : ConvRun} {client : RedisClient} {left : Bytes}
    (h : Linked other clock r q client left) (hwait : r.waiting = false) :
    q = r.toConvRun ∧ left = [] ∧
      ∃ R, AtRest (redisExec other clock) R client ∧ r.got = R.length := by
  cases h with
  | ready hq _ hleft hrest hgot => exact ⟨hq, hleft, _, hrest, hgot⟩
  | asked _ hw => rw [hwait] at hw; cases hw
  | answered _ hw => rw [hwait] at hw; cases hw

/-- The texts to be staged are not too long for the server. -/
def StagedFit (lines : List Bytes) : Prop :=
  ∀ l ∈ lines, ((staged (parseLine l)).length : Int) ≤ protoMaxBulkLen

variable (other clock) in
/-- The connections of a run on which nothing is under way: those it has
closed, and those it will open. -/
def OtherConns (r : WireRun) (client : Nat → RedisClient) (wire : Nat → Bytes) : Prop :=
  ∀ n, n ≠ r.conn → wire n = [] ∧
    ∃ R, AtRest (redisExec other clock) R (client n) ∧ (r.conn < n → R = [])

variable (other clock) in
structure Simulates (net : Net) (race : Race) : Prop where
  link : ∀ c, Linked other clock (net.run c) (race.run c)
    (net.server.client (net.connection c)) (net.server.wire (net.connection c))
  others : ∀ c, OtherConns other clock (net.run c)
    (fun n => net.server.client (c, n)) (fun n => net.server.wire (c, n))
  holds : Holds net.server.data.db jsonKey (race.redis.get "json")
  fit : ∀ c, StagedFit (net.run c).todo

theorem Simulates.start {lines : Client → List Bytes} {s : RedisState} {redis : Redis}
    (hfit : ∀ c, StagedFit (lines c)) (hholds : Holds s.db jsonKey (redis.get "json")) :
    Simulates other clock (.start lines s) (.start lines redis) where
  link := fun _ => .ready (R := []) rfl rfl rfl atRest_fresh rfl
  others := fun _ _ _ => ⟨rfl, [], atRest_fresh, fun _ => rfl⟩
  holds := hholds
  fit := hfit

/-- Only one run and its connections change. -/
theorem Simulates.change {net net' : Net} {race race' : Race} (h : Simulates other clock net race)
    {c : Client} {r : WireRun} (hr : net'.run c = r) (hrun : ∀ d, d ≠ c → net'.run d = net.run d)
    (hserver : ∀ d n, d ≠ c → net'.server.client (d, n) = net.server.client (d, n)
      ∧ net'.server.wire (d, n) = net.server.wire (d, n))
    (hrace : ∀ d, d ≠ c → race'.run d = race.run d)
    (hlink : Linked other clock r (race'.run c) (net'.server.client (c, r.conn))
      (net'.server.wire (c, r.conn)))
    (hothers : OtherConns other clock r (fun n => net'.server.client (c, n))
      (fun n => net'.server.wire (c, n)))
    (hholds : Holds net'.server.data.db jsonKey (race'.redis.get "json"))
    (hfit : StagedFit r.todo) : Simulates other clock net' race' := by
  refine ⟨fun d => ?_, fun d => ?_, hholds, fun d => ?_⟩
  · by_cases hd : d = c
    · rw [hd, Net.connection, hr]
      exact hlink
    · have hconn : net'.connection d = net.connection d := by
        rw [Net.connection, Net.connection, hrun d hd]
      rw [hconn, hrun d hd, hrace d hd, Net.connection, (hserver d _ hd).1, (hserver d _ hd).2]
      exact h.link d
  · by_cases hd : d = c
    · rw [hd, hr]
      exact hothers
    · rw [hrun d hd]
      simp only [(hserver d _ hd).1, (hserver d _ hd).2]
      exact h.others d
  · by_cases hd : d = c
    · rw [hd, hr]
      exact hfit
    · rw [hrun d hd]
      exact h.fit d

/-! ### Commands -/

theorem command_fits {r : ConvRun} {cmd : PlainCommand} (hcmd : r.command = some cmd)
    (hfit : StagedFit r.todo) : cmd.Fits ∧ cmd.key = jsonKey := by
  obtain ⟨todo, phase, user, sent⟩ := r
  cases todo with
  | nil => cases hcmd
  | cons line rest =>
      cases phase with
      | set =>
          obtain rfl := Option.some.inj hcmd
          simp only [PlainCommand.Fits, PlainCommand.argv, List.forall_mem_cons]
          exact ⟨⟨by decide, by decide, hfit line (by simp), by simp⟩, rfl⟩
      | get | del =>
          obtain rfl := Option.some.inj hcmd
          simp only [PlainCommand.Fits, PlainCommand.argv, List.forall_mem_cons]
          exact ⟨⟨by decide, by decide, by simp⟩, rfl⟩
      | index => cases hcmd

/-- The step of the counterpart does to the key what the command does. -/
theorem step_redis {r : ConvRun} {cmd : PlainCommand} (hcmd : r.command = some cmd)
    (redis : Redis) : (r.step redis).2.get "json" = cmd.onValue (redis.get "json") := by
  obtain ⟨todo, phase, user, sent⟩ := r
  cases todo with
  | nil => cases hcmd
  | cons line rest =>
      cases phase with
      | set =>
          obtain rfl := Option.some.inj hcmd
          exact Redis.get_set redis "json" _
      | get =>
          obtain rfl := Option.some.inj hcmd
          rfl
      | index => cases hcmd
      | del =>
          obtain rfl := Option.some.inj hcmd
          simp [ConvRun.step, Redis.del, Redis.get, PlainCommand.onValue]

theorem step_index {r : ConvRun} (htodo : r.todo ≠ []) (hphase : r.phase = .index)
    (redis : Redis) :
    r.step redis = ({ r with phase := .del, sent := r.sent ++ [bodyOf r.user] }, redis) := by
  obtain ⟨todo, phase, user, sent⟩ := r
  obtain ⟨line, rest, rfl⟩ := List.exists_cons_of_ne_nil htodo
  obtain rfl : phase = .index := hphase
  rfl

/-! ### Events -/

variable {net : Net} {race : Race}

theorem conn_ne {c d : Client} (h : d ≠ c) (n k : Nat) : (d, n) ≠ (c, k) :=
  fun heq => h (Prod.mk.inj heq).1

theorem Simulates.send (h : Simulates other clock net race) (c : Client) :
    Simulates other clock (net.step other clock (.send c)) race := by
  cases hcmd : (net.run c).command with
  | none =>
      simp only [Net.step, hcmd]
      exact h
  | some cmd =>
      simp only [Net.step, hcmd]
      by_cases hwait : (net.run c).waiting = true
      · rw [if_pos hwait]
        exact h
      · rw [if_neg hwait]
        rw [Bool.not_eq_true] at hwait
        obtain ⟨hrace, hleft, R, hrest, hgot⟩ := (h.link c).of_not_waiting hwait
        refine h.change (net.run_ask_self c cmd) (fun d hd => net.run_ask_other hd cmd)
          (fun d n hd => ⟨rfl, net.wire_ask_other (conn_ne hd _ _) cmd⟩) (fun d hd => rfl)
          ?_ (fun n hn => ?_) h.holds (h.fit c)
        · refine .asked hrace rfl hcmd ?_ hgot
          have hwire := net.wire_ask_self c cmd
          rw [hleft, List.nil_append] at hwire
          have hask := hrest.ask cmd.argv
          rwa [← hwire] at hask
        · have hne : (c, n) ≠ net.connection c := fun heq => hn (Prod.mk.inj heq).2
          obtain ⟨hnil, hrest'⟩ := h.others c n hn
          exact ⟨(net.wire_ask_other hne cmd).trans hnil, hrest'⟩

theorem Simulates.index (h : Simulates other clock net race) {c : Client}
    (htodo : (net.run c).todo ≠ []) (hphase : (net.run c).phase = .index)
    (hwait : (net.run c).waiting = false) :
    Simulates other clock (net.step other clock (.index c)) (race.step c) := by
  obtain ⟨hrace, hleft, R, hrest, hgot⟩ := (h.link c).of_not_waiting hwait
  rw [Net.step, if_pos ⟨htodo, hphase, hwait⟩]
  refine h.change (Net.setRun_self _ c _) (fun d hd => Net.setRun_other _ hd _)
    (fun d n hd => ⟨rfl, rfl⟩) (fun d hd => race.run_step_other hd) ?_ (h.others c) ?_ (h.fit c)
  · rw [race.run_step_self, hrace, step_index htodo hphase]
    exact .ready rfl hwait hleft hrest hgot
  · show Holds _ jsonKey (((race.run c).step race.redis).2.get "json")
    rw [hrace, step_index htodo hphase]
    exact h.holds

theorem read_nil {σ ι : Type} [DecidableEq ι] (exec : σ → List Bytes → σ × Outcome)
    {server : Server ι σ} {i : ι} (hnil : server.wire i = []) (k : Nat) :
    server.read exec (i, k) = server := by
  have hread : readQueryFromClient exec server.data (server.client i) ((server.wire i).take k)
      = (server.data, server.client i, []) := by
    rw [hnil, List.take_nil]
    rfl
  have hwire : [] ++ (server.wire i).drop k = server.wire i := by
    rw [hnil, List.drop_nil, List.nil_append]
  rw [Server.read_eq hread, hwire, Function.update_eq_self, Function.update_eq_self]

/-- The server has read from the connection of a run. -/
theorem Simulates.serve {race' : Race} (h : Simulates other clock net race) {c : Client}
    {s' : RedisState} {client' : RedisClient} {left' : Bytes}
    (hrace : ∀ d, d ≠ c → race'.run d = race.run d)
    (hlink : Linked other clock (net.run c) (race'.run c) client' left')
    (hholds : Holds s'.db jsonKey (race'.redis.get "json")) :
    Simulates other clock
      ⟨net.run, ⟨s', Function.update net.server.client (net.connection c) client',
        Function.update net.server.wire (net.connection c) left'⟩⟩ race' := by
  refine h.change rfl (fun d hd => rfl) (fun d n hd => ?_) hrace ?_ (fun n hn => ?_) hholds (h.fit c)
  · have hne : (d, n) ≠ net.connection c := conn_ne hd _ _
    exact ⟨Function.update_of_ne hne .., Function.update_of_ne hne ..⟩
  · have hconn : (c, (net.run c).conn) = net.connection c := rfl
    simp only [hconn, Function.update_self]
    exact hlink
  · have hne : (c, n) ≠ net.connection c := fun heq => hn (Prod.mk.inj heq).2
    simp only [Function.update_of_ne hne]
    exact h.others c n hn

/-- A read of a connection on which there is something: part of a request,
or the rest of it, and then the counterpart makes its step. -/
theorem Simulates.read (h : Simulates other clock net race) {c : Client}
    (hsome : net.server.wire (net.connection c) ≠ []) (k : Nat) :
    (Simulates other clock (net.step other clock (.read (net.connection c) k)) race
        ∧ (net.step other clock (.read (net.connection c) k)).server.wire (net.connection c) ≠ []) ∨
      (Simulates other clock (net.step other clock (.read (net.connection c) k)) (race.step c)
        ∧ (net.step other clock (.read (net.connection c) k)).server.wire (net.connection c) = []) := by
  cases h.link c with
  | ready _ _ hleft => exact absurd hleft hsome
  | answered _ _ _ hleft => exact absurd hleft hsome
  | @asked R cmd hq hwait hcmd hasked hgot =>
      obtain ⟨hfits, hkey⟩ := command_fits hcmd (h.fit c)
      have hproper : Proper (redisExec other clock) [cmd.argv] :=
        proper_plain other clock (List.forall_mem_singleton.mpr hfits)
      generalize hread : readQueryFromClient (redisExec other clock) net.server.data
        (net.server.client (net.connection c)) ((net.server.wire (net.connection c)).take k) = x
      obtain ⟨s', client', left'⟩ := x
      rw [Net.step, Server.read_eq hread]
      simp only [Function.update_self]
      rcases hasked.read hproper net.server.data k hread with ⟨rfl, hasked'⟩ | ⟨rfl, hdone, hrest⟩
      · exact .inl ⟨h.serve (fun d hd => rfl) (.asked hq hwait hcmd hasked' hgot) h.holds,
          hasked'.left_ne⟩
      · have hholds := h.holds
        rw [← hkey] at hholds
        obtain ⟨db', hexec, hholds', -⟩ :=
          processCommand_plain other (clock net.server.data.calls) hfits hholds
        have hredis : redisExec other clock net.server.data cmd.argv
            = (⟨db', net.server.data.calls + 1⟩,
              ⟨(cmd.reply (race.redis.get "json")).sent, false⟩) := by
          simp only [redisExec, hexec]
        rw [hredis] at hrest ⊢
        refine .inr ⟨h.serve (fun d hd => race.run_step_other hd) ?_ ?_, hdone⟩
        · exact .answered ((race.run_step_self c).trans (by rw [hq])) hwait hcmd hdone hrest hgot
            h.holds.length_le
        · show Holds db' jsonKey (((race.run c).step race.redis).2.get "json")
          rw [hq, step_redis hcmd, ← hkey]
          exact hholds'

/-- The run goes on as its counterpart did. -/
theorem accept_eq {r : WireRun} {cmd : PlainCommand} (hcmd : r.command = some cmd) (got : Nat)
    (redis : Redis) :
    (r.accept got (cmd.reply (redis.get "json")).response).toConvRun = (r.toConvRun.step redis).1
      ∧ (r.accept got (cmd.reply (redis.get "json")).response).waiting = false := by
  obtain ⟨⟨todo, phase, user, sent⟩, conn, waiting, got₀⟩ := r
  cases todo with
  | nil => cases hcmd
  | cons line rest =>
      cases phase with
      | set =>
          obtain rfl := Option.some.inj hcmd
          exact ⟨rfl, rfl⟩
      | get =>
          obtain rfl := Option.some.inj hcmd
          cases hv : redis.get "json" with
          | none => exact ⟨by simp only [ConvRun.step, hv]; rfl, rfl⟩
          | some v => exact ⟨by simp only [ConvRun.step, hv]; rfl, rfl⟩
      | index => cases hcmd
      | del =>
          obtain rfl := Option.some.inj hcmd
          exact ⟨rfl, rfl⟩

/-- The connection it goes on with. -/
theorem accept_conn {r : WireRun} {cmd : PlainCommand} (hcmd : r.command = some cmd) (got : Nat)
    (redis : Redis) :
    ((r.accept got (cmd.reply (redis.get "json")).response).conn = r.conn
        ∧ (r.accept got (cmd.reply (redis.get "json")).response).got = got) ∨
      ((r.accept got (cmd.reply (redis.get "json")).response).conn = r.conn + 1
        ∧ (r.accept got (cmd.reply (redis.get "json")).response).got = 0) := by
  obtain ⟨⟨todo, phase, user, sent⟩, conn, waiting, got₀⟩ := r
  cases todo with
  | nil => cases hcmd
  | cons line rest =>
      cases phase with
      | set =>
          obtain rfl := Option.some.inj hcmd
          exact .inl ⟨rfl, rfl⟩
      | get =>
          obtain rfl := Option.some.inj hcmd
          cases redis.get "json" with
          | none => exact .inl ⟨rfl, rfl⟩
          | some v => exact .inl ⟨rfl, rfl⟩
      | index => cases hcmd
      | del =>
          obtain rfl := Option.some.inj hcmd
          exact .inr ⟨rfl, rfl⟩

theorem todo_step_subset (r : ConvRun) (redis : Redis) : (r.step redis).1.todo ⊆ r.todo := by
  obtain ⟨todo, phase, user, sent⟩ := r
  cases todo with
  | nil => exact fun _ h => h
  | cons line rest =>
      cases phase with
      | set | get | index => exact fun _ h => h
      | del => exact fun _ h => List.mem_cons_of_mem _ h

theorem Simulates.accepted (h : Simulates other clock net race) (c : Client)
    {cmd : PlainCommand} {redis : Redis} {R : Bytes}
    (hq : race.run c = ((net.run c).toConvRun.step redis).1) (hcmd : (net.run c).command = some cmd)
    (hleft : net.server.wire (net.connection c) = [])
    (hrest : AtRest (redisExec other clock) R (net.server.client (net.connection c))) :
    Simulates other clock
      (net.setRun c ((net.run c).accept R.length (cmd.reply (redis.get "json")).response)) race := by
  obtain ⟨hrun, hwait⟩ := accept_eq hcmd R.length redis
  have hconn := accept_conn hcmd R.length redis
  generalize (net.run c).accept R.length (cmd.reply (redis.get "json")).response = r at *
  refine h.change (Net.setRun_self _ c _) (fun d hd => Net.setRun_other _ hd _)
    (fun d n hd => ⟨rfl, rfl⟩) (fun d hd => rfl) ?_ ?_ h.holds ?_
  · rcases hconn with ⟨hsame, hgot⟩ | ⟨hnext, hgot⟩
    · rw [hsame]
      exact .ready (hq.trans hrun.symm) hwait hleft hrest hgot
    · obtain ⟨hnil, R', hrest', hfresh⟩ := h.others c r.conn (by omega)
      obtain rfl := hfresh (by omega)
      exact .ready (hq.trans hrun.symm) hwait hnil hrest' hgot
  · intro n hn
    by_cases hold : n = (net.run c).conn
    · subst hold
      exact ⟨hleft, R, hrest, fun hlt => by omega⟩
    · obtain ⟨hnil, R', hrest', hfresh⟩ := h.others c n hold
      exact ⟨hnil, R', hrest', fun hlt => hfresh (by omega)⟩
  · intro l hl
    refine h.fit c l (todo_step_subset _ redis ?_)
    rwa [← hrun]

theorem Simulates.receive (h : Simulates other clock net race) (c : Client)
    (packets : Predis.Socket) :
    Simulates other clock (net.step other clock (.receive c packets)) race := by
  rw [Net.step]
  split
  · rename_i hgo
    obtain ⟨hwaiting, hpackets⟩ := hgo
    cases h.link c with
    | ready _ hwait => rw [hwaiting] at hwait; cases hwait
    | @asked R cmd hq hwait hcmd hasked hgot =>
        -- nothing has been replied yet
        have hproper := proper_plain other clock
          (List.forall_mem_singleton.mpr (command_fits hcmd (h.fit c)).1)
        have hreply : (net.server.client (net.connection c)).reply = R :=
          (ClientAt.quiet hasked hproper net.server.data).reply
        rw [Net.unread, hreply, hgot, List.drop_length, List.prefix_nil] at hpackets
        have hread : Predis.read false 1 packets = .error .wait := by
          rw [Predis.read, Predis.Socket.fgets_none (by rw [hpackets]; simp)]
        simp only [hread]
        exact h
    | @answered R cmd redis hq hwait hcmd hleft hrest hgot hlen =>
        obtain ⟨hvalid, hdepth⟩ := reply_valid cmd hlen
        obtain ⟨missing, hmissing⟩ := hpackets
        rw [Net.unread, hrest.reply net.server.data, hgot, List.drop_left] at hmissing
        by_cases hnil : missing = []
        · rw [hnil] at hmissing
          have hflat : packets.flatten = (cmd.reply (redis.get "json")).sent ++ [] := by
            rw [← hmissing, List.append_nil, List.append_nil]
          obtain ⟨socket', hread, hempty⟩ :=
            Predis.read_sent (e := false) _ hvalid (show _ ≤ 0 + 1 from hdepth.le) hflat
          simp only [hread, hempty]
          have hgot' : (net.run c).got + (packets.flatten.length - ([] : Bytes).length)
              = (R ++ (cmd.reply (redis.get "json")).sent).length := by
            rw [hgot, ← hmissing]
            simp
          rw [hgot']
          exact h.accepted c hq hcmd hleft hrest
        · have hread :=
            Predis.read_truncated _ hvalid (show _ ≤ 0 + 1 from hdepth.le) hnil hmissing
          simp only [hread]
          exact h
  · exact h

theorem Simulates.step (h : Simulates other clock net race) (e : NetEvent) :
    ∃ schedule, Simulates other clock (net.step other clock e) (race.exec schedule) := by
  cases e with
  | send c => exact ⟨[], h.send c⟩
  | index c =>
      by_cases hgo : (net.run c).todo ≠ [] ∧ (net.run c).phase = .index ∧ (net.run c).waiting = false
      · exact ⟨[c], h.index hgo.1 hgo.2.1 hgo.2.2⟩
      · refine ⟨[], ?_⟩
        rw [Net.step, if_neg hgo]
        exact h
  | read connection k =>
      obtain ⟨c, n⟩ := connection
      by_cases hnil : net.server.wire (c, n) = []
      · refine ⟨[], ?_⟩
        rw [Net.step, read_nil _ hnil]
        exact h
      · obtain rfl : n = (net.run c).conn := by
          by_contra hn
          exact hnil (h.others c n hn).1
        rcases h.read hnil k with ⟨hread, -⟩ | ⟨hread, -⟩
        · exact ⟨[], hread⟩
        · exact ⟨[c], hread⟩
  | receive c packets => exact ⟨[], h.receive c packets⟩

theorem Simulates.exec : ∀ (events : List NetEvent) {net : Net} {race : Race},
    Simulates other clock net race →
      ∃ schedule, Simulates other clock (net.exec other clock events) (race.exec schedule)
  | [], _, _, h => ⟨[], h⟩
  | e :: events, net, race, h => by
      obtain ⟨first, hfirst⟩ := h.step e
      obtain ⟨later, hlater⟩ := Simulates.exec events hfirst
      refine ⟨first ++ later, ?_⟩
      rw [Race.exec, List.foldl_append]
      exact hlater

/-- What a run has sent is what its counterpart has sent. -/
theorem Linked.sent_eq {r : WireRun} {q : ConvRun} {client : RedisClient} {left : Bytes}
    (h : Linked other clock r q client left) : q.sent = r.sent := by
  cases h with
  | ready hq => rw [hq]
  | asked hq => rw [hq]
  | @answered R cmd redis hq _ hcmd =>
      rw [hq]
      obtain ⟨⟨todo, phase, user, sent⟩, conn, waiting, got⟩ := r
      cases todo with
      | nil => rfl
      | cons line rest =>
          cases phase with
          | set | get | del => rfl
          | index => cases hcmd

/-! ### Every schedule occurs -/

theorem exec_append (net : Net) (events later : List NetEvent) :
    net.exec other clock (events ++ later) = (net.exec other clock events).exec other clock later :=
  List.foldl_append ..

theorem readlen_pos (c : RedisClient) : 0 < c.readlen := by
  rw [RedisClient.readlen]
  split
  · simp only
    split
    · omega
    · decide
  · decide

theorem readQueryFromClient_left {σ : Type} (exec : σ → List Bytes → σ × Outcome) (s : σ)
    (c : RedisClient) (avail : Bytes) :
    (readQueryFromClient exec s c avail).2.2.length ≤ avail.length - c.readlen := by
  rw [readQueryFromClient]
  split
  · rename_i hnil
    simp [hnil]
  · simp only
    split
    · rw [List.length_drop]
    · rw [List.length_drop]

variable (other clock) in
/-- Bytes that are there are read. -/
theorem length_wire_read {c : Client} (hsome : net.server.wire (net.connection c) ≠ []) :
    ((net.step other clock (.read (net.connection c) 1)).server.wire (net.connection c)).length
      < (net.server.wire (net.connection c)).length := by
  have hpos := List.length_pos_of_ne_nil hsome
  have hread := readlen_pos (net.server.client (net.connection c))
  have hleft := readQueryFromClient_left (redisExec other clock) net.server.data
    (net.server.client (net.connection c)) ((net.server.wire (net.connection c)).take 1)
  generalize hx : readQueryFromClient (redisExec other clock) net.server.data
    (net.server.client (net.connection c)) ((net.server.wire (net.connection c)).take 1) = x at hleft
  obtain ⟨s', c', left'⟩ := x
  rw [Net.step, Server.read_eq hx]
  simp only [Function.update_self, List.length_append, List.length_drop]
  rw [List.length_take] at hleft
  simp only at hleft
  omega

/-- Reading goes on until the request has been executed. -/
theorem Simulates.reads {c : Client} : ∀ (n : Nat) {net : Net}, Simulates other clock net race →
    net.server.wire (net.connection c) ≠ [] →
      (net.server.wire (net.connection c)).length ≤ n →
        ∃ events, Simulates other clock (net.exec other clock events) (race.step c)
          ∧ (net.exec other clock events).run = net.run
          ∧ (net.exec other clock events).server.wire (net.connection c) = []
  | 0, net, _, hsome, hlen => absurd (List.eq_nil_of_length_eq_zero (by omega)) hsome
  | n + 1, net, h, hsome, hlen => by
      have hlt := length_wire_read other clock hsome
      rcases h.read hsome 1 with ⟨hread, hmore⟩ | ⟨hread, hdone⟩
      · have hlen' : ((net.step other clock (.read (net.connection c) 1)).server.wire
            (net.connection c)).length ≤ n := by
          omega
        obtain ⟨events, hevents, hrun, hwire⟩ := Simulates.reads n hread hmore hlen'
        exact ⟨.read (net.connection c) 1 :: events, hevents, hrun, hwire⟩
      · exact ⟨[.read (net.connection c) 1], hread, rfl, hdone⟩

/-- A run that has its reply goes on. -/
theorem Simulates.answer (h : Simulates other clock net race) {c : Client}
    (hwait : (net.run c).waiting = true) (hleft : net.server.wire (net.connection c) = []) :
    ∃ r, net.step other clock (.receive c [net.unread c]) = net.setRun c r ∧ r.waiting = false := by
  cases h.link c with
  | ready _ hnot => rw [hwait] at hnot; cases hnot
  | asked _ _ _ hasked => exact absurd hleft hasked.left_ne
  | @answered R cmd redis hq _ hcmd _ hrest hgot hlen =>
      obtain ⟨hvalid, hdepth⟩ := reply_valid cmd hlen
      have hunread : net.unread c = (cmd.reply (redis.get "json")).sent := by
        rw [Net.unread, hrest.reply net.server.data, hgot, List.drop_left]
      have hflat : [net.unread c].flatten = (cmd.reply (redis.get "json")).sent ++ [] := by
        rw [hunread]
        simp
      obtain ⟨socket', hread, -⟩ :=
        Predis.read_sent (e := false) _ hvalid (show _ ≤ 0 + 1 from hdepth.le) hflat
      have hgo : (net.run c).waiting = true ∧ [net.unread c].flatten <+: net.unread c := by
        refine ⟨hwait, ?_⟩
        simp
      rw [Net.step, if_pos hgo]
      simp only [hread]
      exact ⟨_, rfl, (accept_eq hcmd _ redis).2⟩

/-- A command of a run, from the request to the reply. -/
theorem Simulates.ask (h : Simulates other clock net race) {c : Client} {cmd : PlainCommand}
    (hcmd : (net.run c).command = some cmd) (hidle : ∀ d, (net.run d).waiting = false) :
    ∃ events, Simulates other clock (net.exec other clock events) (race.step c)
      ∧ ∀ d, ((net.exec other clock events).run d).waiting = false := by
  have hstep : net.step other clock (.send c) = net.ask c cmd := by
    simp only [Net.step, hcmd, hidle c]
    rfl
  have hsend := h.send c
  have hsome : (net.ask c cmd).server.wire ((net.ask c cmd).connection c) ≠ [] := by
    rw [net.connection_ask, net.wire_ask_self]
    simp [multibulk]
  rw [hstep] at hsend
  obtain ⟨events, hreads, hrun, hwire⟩ := Simulates.reads _ hsend hsome (le_refl _)
  have hwait : (((net.ask c cmd).exec other clock events).run c).waiting = true := by
    rw [hrun, net.run_ask_self]
  have hconn : ((net.ask c cmd).exec other clock events).connection c
      = (net.ask c cmd).connection c := by
    rw [Net.connection, hrun]
    rfl
  rw [← hconn] at hwire
  obtain ⟨r, hlast, hr⟩ := hreads.answer hwait hwire
  have hreceive := hreads.receive c [((net.ask c cmd).exec other clock events).unread c]
  rw [hlast] at hreceive
  have hexec : net.exec other clock (.send c :: (events ++
      [.receive c [((net.ask c cmd).exec other clock events).unread c]]))
        = ((net.ask c cmd).exec other clock events).setRun c r := by
    rw [← hlast, ← hstep]
    exact exec_append (net.step other clock (.send c)) events _
  refine ⟨_, hexec ▸ hreceive, fun d => ?_⟩
  rw [hexec]
  by_cases hd : d = c
  · rw [hd, Net.setRun_self]
    exact hr
  · rw [Net.setRun_other _ hd, hrun, net.run_ask_other hd]
    exact hidle d

theorem step_finished {c : Client} (hdone : (race.run c).todo = []) : race.step c = race := by
  obtain ⟨run, redis⟩ := race
  have hstep : (run c).step redis = (run c, redis) := by
    simp only at hdone
    rw [ConvRun.step, hdone]
  simp only [Race.step, hstep, Function.update_eq_self]

/-- What a run does next. -/
theorem ConvRun.next_cases (r : ConvRun) :
    r.todo = [] ∨ (r.todo ≠ [] ∧ r.phase = .index) ∨ ∃ cmd, r.command = some cmd := by
  obtain ⟨todo, phase, user, sent⟩ := r
  cases todo with
  | nil => exact .inl rfl
  | cons line rest =>
      cases phase with
      | set | get | del => exact .inr (.inr ⟨_, rfl⟩)
      | index => exact .inr (.inl ⟨List.cons_ne_nil _ _, rfl⟩)

/-- A step of a schedule is made by some events, after which no run
waits. -/
theorem Simulates.realise_step (h : Simulates other clock net race) (c : Client)
    (hidle : ∀ d, (net.run d).waiting = false) :
    ∃ events, Simulates other clock (net.exec other clock events) (race.step c)
      ∧ ∀ d, ((net.exec other clock events).run d).waiting = false := by
  obtain ⟨hrace, -⟩ := (h.link c).of_not_waiting (hidle c)
  rcases (net.run c).next_cases with hdone | ⟨htodo, hphase⟩ | ⟨cmd, hcmd⟩
  · refine ⟨[], ?_, hidle⟩
    rw [step_finished (by rw [hrace]; exact hdone)]
    exact h
  · refine ⟨[.index c], h.index htodo hphase (hidle c), fun d => ?_⟩
    show ((net.step other clock (.index c)).run d).waiting = false
    rw [Net.step, if_pos ⟨htodo, hphase, hidle c⟩]
    by_cases hd : d = c
    · rw [hd, Net.setRun_self]
      exact hidle c
    · rw [Net.setRun_other _ hd]
      exact hidle d
  · exact h.ask hcmd hidle

theorem Simulates.realise : ∀ (schedule : List Client) {net : Net} {race : Race},
    Simulates other clock net race → (∀ d, (net.run d).waiting = false) →
      ∃ events, Simulates other clock (net.exec other clock events) (race.exec schedule)
  | [], _, _, h, _ => ⟨[], h⟩
  | c :: schedule, net, race, h, hidle => by
      obtain ⟨first, hfirst, hidle'⟩ := h.realise_step c hidle
      obtain ⟨later, hlater⟩ := Simulates.realise schedule hfirst hidle'
      refine ⟨first ++ later, ?_⟩
      rw [exec_append]
      exact hlater

/-- **The processes, the server and the wire implement the schedules.** The
documents that the two runs can have sent are those they can have sent in a
schedule of their commands: whatever happens, in whatever order, amounts to
a schedule, and every schedule can happen. -/
theorem wire_iff_race (other : Int → RedisDb → List Bytes → RedisDb × Outcome)
    (clock : Nat → Int) {lines : Client → List Bytes} {s : RedisState} {redis : Redis}
    (hfit : ∀ c, StagedFit (lines c)) (hholds : Holds s.db jsonKey (redis.get "json"))
    (docs : Client → List NginxBody) :
    (∃ events, ∀ c, (((Net.start lines s).exec other clock events).run c).sent = docs c)
      ↔ ∃ schedule, ∀ c, (((Race.start lines redis).exec schedule).run c).sent = docs c := by
  have hstart : Simulates other clock (.start lines s) (.start lines redis) := .start hfit hholds
  constructor
  · rintro ⟨events, hdocs⟩
    obtain ⟨schedule, h⟩ := hstart.exec events
    exact ⟨schedule, fun c => (h.link c).sent_eq.trans (hdocs c)⟩
  · rintro ⟨schedule, hdocs⟩
    obtain ⟨events, h⟩ := hstart.realise schedule fun _ => rfl
    exact ⟨events, fun c => (h.link c).sent_eq.symm.trans (hdocs c)⟩

end

theorem oneLineEach_fit : ∀ c, StagedFit (oneLineEach c) := by
  intro c l hl
  cases c with
  | A =>
      rw [List.mem_singleton.mp hl]
      decide +kernel
  | B =>
      rw [List.mem_singleton.mp hl]
      decide +kernel

/-- The exchange of records happens between two processes: `A` sends the
record of `B`. -/
theorem records_exchanged_on_wire : ∃ events,
    (((Net.start oneLineEach ⟨.empty, 0⟩).exec (fun _ db _ => (db, ⟨[], false⟩)) (fun _ => 0)
        events).run .A).sent
      = [bodyOf (some (staged (parseLine ((oneLineEach .B).headD []))))] := by
  have hholds : Holds (RedisState.mk .empty 0).db jsonKey (Redis.get (fun _ => none) "json") :=
    HoldsEntry.absent
  obtain ⟨events, hdocs⟩ := (wire_iff_race (fun _ db _ => (db, ⟨[], false⟩)) (fun _ => 0)
    oneLineEach_fit hholds
    fun c => (((Race.start oneLineEach fun _ => none).exec [.A, .B, .A, .A]).run c).sent).mpr
      ⟨[.A, .B, .A, .A], fun c => rfl⟩
  exact ⟨events, hdocs .A⟩

end Wahana
