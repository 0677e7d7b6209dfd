import Wahana.RedisRequests

/-!
# Redis: one server, many clients

The event loop reads from the clients in any order, each time whatever has
arrived from the one it reads. The clients send multibulk requests, and none
asks to close its connection. However their requests are cut and mixed, the
server does what it would do had it been given whole requests, one at a time:
there is one order of the requests, in which each client's own keep their
order, such that the data and the replies are those of executing the requests
in that order (`reads_linearize`).
-/

namespace Wahana

open Reader

/-- The data, the clients, and for each client the bytes that it has sent
and that have not been read. -/
structure Server (ι σ : Type) where
  data : σ
  client : ι → RedisClient
  wire : ι → Bytes

section

variable {ι σ : Type} (exec : σ → List Bytes → σ × Outcome)

namespace Server

def start (s : σ) (wire : ι → Bytes) : Server ι σ := ⟨s, fun _ => .fresh, wire⟩

variable [DecidableEq ι]

/-- A number of bytes of a client has arrived, and the client is read. -/
def read (server : Server ι σ) (e : ι × Nat) : Server ι σ :=
  let (s, c, left) :=
    readQueryFromClient exec server.data (server.client e.1) ((server.wire e.1).take e.2)
  { data := s
    client := Function.update server.client e.1 c
    wire := Function.update server.wire e.1 (left ++ (server.wire e.1).drop e.2) }

variable {exec} in
theorem read_eq {server : Server ι σ} {i : ι} {k : Nat} {s' : σ} {c' : RedisClient}
    {left' : Bytes} (hread : readQueryFromClient exec server.data (server.client i)
      ((server.wire i).take k) = (s', c', left')) :
    server.read exec (i, k) = ⟨s', Function.update server.client i c',
      Function.update server.wire i (left' ++ (server.wire i).drop k)⟩ := by
  simp only [read, hread]

def run (server : Server ι σ) (reads : List (ι × Nat)) : Server ι σ :=
  reads.foldl (read exec) server

end Server

/-! ## Requests of several clients -/

/-- Executing requests of several clients: the state, and the replies with
the clients they go to. -/
def execLog : σ → List (ι × List Bytes) → σ × List (ι × Bytes)
  | s, [] => (s, [])
  | s, (i, argv) :: log =>
      let (s, o) := exec s argv
      let (s, replies) := execLog s log
      (s, (i, o.reply) :: replies)

variable {exec}

theorem execLog_append : ∀ {s : σ} (log log' : List (ι × List Bytes)),
    execLog exec s (log ++ log')
      = ((execLog exec (execLog exec s log).1 log').1,
          (execLog exec s log).2 ++ (execLog exec (execLog exec s log).1 log').2)
  | _, [], _ => rfl
  | s, (i, argv) :: log, log' => by
      simp only [List.cons_append, execLog, execLog_append log log']

variable (exec) in
/-- The requests of one client. -/
theorem execLog_tag (i : ι) : ∀ (s : σ) (requests : List (List Bytes)),
    (execLog exec s (requests.map (i, ·))).1 = (execAll exec s requests).1 ∧
      ∃ replies : List Bytes, (execLog exec s (requests.map (i, ·))).2 = replies.map (i, ·)
        ∧ replies.flatten = (execAll exec s requests).2
  | _, [] => ⟨rfl, [], rfl, rfl⟩
  | s, argv :: requests => by
      obtain ⟨hstate, replies, hreplies, hflat⟩ := execLog_tag i (exec s argv).1 requests
      refine ⟨hstate, (exec s argv).2.reply :: replies, ?_, ?_⟩
      · simp only [List.map_cons, execLog, hreplies]
      · simp only [List.flatten_cons, hflat, execAll]

/-- What belongs to one client. -/
def ofClient {α : Type} [DecidableEq ι] (i : ι) (xs : List (ι × α)) : List α :=
  (xs.filter fun x => x.1 = i).map (·.2)

section

variable {α : Type} [DecidableEq ι] {i j : ι}

theorem ofClient_append (xs ys : List (ι × α)) :
    ofClient i (xs ++ ys) = ofClient i xs ++ ofClient i ys := by
  simp [ofClient]

theorem ofClient_tag (xs : List α) : ofClient i (xs.map (i, ·)) = xs := by
  simp [ofClient, List.filter_map, Function.comp_def]

theorem ofClient_tag_other (h : i ≠ j) (xs : List α) : ofClient i (xs.map (j, ·)) = [] := by
  simp [ofClient, List.filter_map, Function.comp_def, Ne.symm h]

end

/-! ## One read -/

variable (exec) in
/-- Where a client is: the requests in `done` have been executed with the
replies `R`, and of what follows less than a request has been read. -/
structure ClientAt (requests : List (List Bytes)) (wire : Bytes) (done : List (List Bytes))
    (R : Bytes) (c : RedisClient) (left : Bytes) : Prop where
  exists_part : ∃ todo part, requests = done ++ todo ∧ wire = wireOf done ++ part ++ left
    ∧ PartOf todo part
    ∧ ∀ s, (redisReader exec).drain (s, idle R) part = ((s, c.toRedisConn), c.querybuf)
  pos : c.qbPos = 0

theorem readlen_le (c : RedisClient) : c.readlen ≤ protoIobufLen := by
  rw [RedisClient.readlen]
  split
  · simp only
    split
    · omega
    · exact le_refl _
  · exact le_refl _

theorem Quiet.not_overrun {R : Bytes} {c : RedisConn} {rest : Bytes} (h : Quiet R c rest) :
    ¬ c.overrun := by
  intro hover
  rw [RedisConn.overrun, h.closed] at hover
  cases hover.1

theorem wireOf_append (xs ys : List (List Bytes)) : wireOf (xs ++ ys) = wireOf xs ++ wireOf ys :=
  List.flatMap_append

namespace ClientAt

variable {requests done : List (List Bytes)} {wire R left : Bytes} {c : RedisClient}

theorem start (requests : List (List Bytes)) (wire : Bytes) :
    ClientAt exec requests wire [] [] .fresh wire := by
  refine ⟨⟨requests, [], rfl, rfl, ?_, fun s => drain_of_none next_idle_nil⟩, rfl⟩
  cases requests with
  | nil => rfl
  | cons argv requests => exact ⟨multibulk argv, by simp [multibulk], rfl⟩

theorem quiet (h : ClientAt exec requests wire done R c left) (hproper : Proper exec requests)
    (s : σ) : Quiet R c.toRedisConn c.querybuf := by
  obtain ⟨⟨todo, part, rfl, -, hpart, hdrain⟩, -⟩ := h
  obtain ⟨c', rest, hquiet, hdrain'⟩ := drain_part (R := R)
    (fun argv hargv => hproper argv (by simp [hargv])) hpart
  obtain ⟨hc, rfl⟩ := Prod.mk.inj ((hdrain s).symm.trans (hdrain' s))
  obtain ⟨-, rfl⟩ := Prod.mk.inj hc
  exact hquiet

/-- The limit on the query buffer is not hit: what is kept of a request is
not more than an argument. -/
theorem length_le (h : ClientAt exec requests wire done R c left)
    (hproper : Proper exec requests) (s : σ) (avail : Bytes) :
    (c.querybuf ++ avail.take c.readlen).length ≤ clientMaxQuerybufLen := by
  have hlen := (h.quiet hproper s).length
  have hread := readlen_le c
  have hbulk : protoMaxBulkLen = 536870912 := rfl
  have hbuf : protoIobufLen = 16384 := rfl
  have hmax : clientMaxQuerybufLen = 1073741824 := rfl
  rw [List.length_append, List.length_take]
  omega

/-- A piece goes to the end of the query buffer, and the requests it
completes are executed. -/
theorem process (h : ClientAt exec requests wire done R c left) (hproper : Proper exec requests)
    (hwire : wire <+: wireOf requests) {piece left' : Bytes} (hleft : left = piece ++ left')
    (s : σ) {s' : σ} {c' : RedisClient}
    (hread : processInputBuffer exec s { c with querybuf := c.querybuf ++ piece } = (s', c')) :
    ∃ new, s' = (execAll exec s new).1 ∧
      ClientAt exec requests wire (done ++ new) (R ++ (execAll exec s new).2) c' left' := by
  have hquiet := h.quiet hproper s
  obtain ⟨⟨todo, part, rfl, hsplit, hpart, hdrain⟩, hpos⟩ := h
  have htodo : Proper exec todo := fun argv hargv => hproper argv (by simp [hargv])
  -- the buffer and the piece are what has been read of the requests to come
  obtain ⟨missing, hmissing⟩ := hwire
  rw [hsplit, hleft, wireOf_append, List.append_assoc, List.append_assoc,
    List.append_cancel_left_eq, ← List.append_assoc, ← List.append_assoc,
    List.append_assoc _ left'] at hmissing
  obtain ⟨new, todo', part', rfl, hpiece, hpart', hexec⟩ := drain_requests htodo hmissing
  have hover : ¬ ((redisReader exec).drain (s, idle R) part).1.2.overrun := by
    rw [hdrain]
    exact hquiet.not_overrun
  have happend := redisReader_stable.drain_append piece (s, idle R) part hover
  rw [hdrain, hexec] at happend
  -- processing the buffer is draining the reader
  have hbuffer := processInputBuffer_drain exec s
    { c with querybuf := c.querybuf ++ piece }
  have hrest : ({ c with querybuf := c.querybuf ++ piece } : RedisClient).rest
      = c.querybuf ++ piece := by
    simp [RedisClient.rest, hpos]
  rw [hrest, hread, ← happend] at hbuffer
  obtain ⟨c₂, rest₂, -, hdrain₂⟩ := drain_part (R := R ++ (execAll exec s new).2)
    (fun argv hargv => htodo argv (by simp [hargv])) hpart'
  rw [hdrain₂] at hbuffer
  obtain ⟨hc, hrest₂⟩ := Prod.mk.inj hbuffer
  obtain ⟨hs, hc⟩ := Prod.mk.inj hc
  refine ⟨new, hs.symm, ⟨todo', part', by simp, ?_, hpart', fun s₂ => ?_⟩, ?_⟩
  · rw [hsplit, hleft, wireOf_append]
    simp only [List.append_assoc]
    rw [← List.append_assoc part piece, hpiece]
    simp only [List.append_assoc]
  · rw [hdrain₂, hc, hrest₂]
  · have : c' = (processInputBuffer exec s { c with querybuf := c.querybuf ++ piece }).2 := by
      rw [hread]
    rw [this]
    rfl

/-- One read executes the requests it completes. -/
theorem read (h : ClientAt exec requests wire done R c left) (hproper : Proper exec requests)
    (hwire : wire <+: wireOf requests) (s : σ) (k : Nat) {s' : σ} {c' : RedisClient}
    {left' : Bytes} (hread : readQueryFromClient exec s c (left.take k) = (s', c', left')) :
    ∃ new, s' = (execAll exec s new).1 ∧
      ClientAt exec requests wire (done ++ new) (R ++ (execAll exec s new).2) c'
        (left' ++ left.drop k) := by
  rw [readQueryFromClient] at hread
  split at hread
  · rename_i hnil
    cases hread
    refine ⟨[], rfl, ?_⟩
    rw [List.take_append_drop, execAll, List.append_nil, List.append_nil]
    exact h
  · have hlimit := h.length_le hproper s (left.take k)
    simp only at hread
    rw [if_neg (by omega)] at hread
    cases hread
    refine h.process hproper hwire ?_ s rfl
    rw [← List.append_assoc, List.take_append_drop, List.take_append_drop]

end ClientAt

/-! ## All reads -/

variable [DecidableEq ι]

variable (exec) in
/-- The server has executed the requests in `log`. -/
structure Linearized (requests : ι → List (List Bytes)) (wire : ι → Bytes) (s : σ)
    (server : Server ι σ) (log : List (ι × List Bytes)) : Prop where
  data : server.data = (execLog exec s log).1
  client : ∀ i, ClientAt exec (requests i) (wire i) (ofClient i log)
    (ofClient i (execLog exec s log).2).flatten (server.client i) (server.wire i)

variable {requests : ι → List (List Bytes)} {wire : ι → Bytes} {s : σ}

theorem Linearized.start : Linearized exec requests wire s (.start s wire) [] :=
  ⟨rfl, fun i => ClientAt.start (requests i) (wire i)⟩

theorem Linearized.read (hproper : ∀ i, Proper exec (requests i))
    (hwire : ∀ i, wire i <+: wireOf (requests i)) {server : Server ι σ}
    {log : List (ι × List Bytes)} (h : Linearized exec requests wire s server log) (e : ι × Nat) :
    ∃ log', Linearized exec requests wire s (server.read exec e) log' := by
  obtain ⟨i, k⟩ := e
  generalize hread : readQueryFromClient exec server.data (server.client i)
    ((server.wire i).take k) = x
  obtain ⟨s', c', left'⟩ := x
  obtain ⟨new, hs', hclient⟩ := (h.client i).read (hproper i) (hwire i) server.data k hread
  obtain ⟨hstate, replies, hreplies, hflat⟩ := execLog_tag exec i server.data new
  have hlog : execLog exec s (log ++ new.map (i, ·))
      = (s', (execLog exec s log).2 ++ replies.map (i, ·)) := by
    rw [execLog_append, ← h.data, hstate, hreplies, hs']
  rw [Server.read_eq hread]
  refine ⟨log ++ new.map (i, ·), ?_, fun j => ?_⟩
  · rw [hlog]
  · rw [hlog]
    simp only [ofClient_append, List.flatten_append]
    by_cases hj : j = i
    · subst hj
      simp only [Function.update_self, ofClient_tag, hflat]
      exact hclient
    · simp only [Function.update_of_ne hj, ofClient_tag_other hj, List.append_nil,
        List.flatten_nil]
      exact h.client j

theorem Linearized.run (hproper : ∀ i, Proper exec (requests i))
    (hwire : ∀ i, wire i <+: wireOf (requests i)) :
    ∀ (reads : List (ι × Nat)) {server : Server ι σ} {log : List (ι × List Bytes)},
      Linearized exec requests wire s server log →
        ∃ log', Linearized exec requests wire s (server.run exec reads) log'
  | [], _, log, h => ⟨log, h⟩
  | e :: reads, _, _, h => by
      obtain ⟨log', h'⟩ := h.read hproper hwire e
      exact h'.run hproper hwire reads

theorem Linearized.ofClient_eq {server : Server ι σ} {log : List (ι × List Bytes)}
    (h : Linearized exec requests wire s server log) (i : ι) :
    ofClient i log = (arrived (requests i) ((wire i).length - (server.wire i).length)).1 := by
  obtain ⟨todo, part, hrequests, hsplit, hpart, -⟩ := (h.client i).exists_part
  rw [hsplit, List.length_append, Nat.add_sub_cancel, hrequests, arrived_eq hpart]

/-- **Reads linearize.** The clients send multibulk requests within the limits
of the protocol, none of which closes the connection; the bytes of the last
one may not have been sent yet. Whatever the server then reads, in whatever
order, there is an order of the requests that have arrived completely, the one
in which they were executed one by one, and every client is sent the replies to
its own. -/
theorem reads_linearize (hproper : ∀ i, Proper exec (requests i))
    (hwire : ∀ i, wire i <+: wireOf (requests i)) (s : σ) (reads : List (ι × Nat))
    {server : Server ι σ} (hserver : (Server.start s wire).run exec reads = server) :
    ∃ log : List (ι × List Bytes), server.data = (execLog exec s log).1 ∧
      ∀ i, ofClient i log
          = (arrived (requests i) ((wire i).length - (server.wire i).length)).1 ∧
        (server.client i).reply = (ofClient i (execLog exec s log).2).flatten := by
  obtain ⟨log, h⟩ := Linearized.start.run hproper hwire reads (s := s)
  rw [hserver] at h
  exact ⟨log, h.data, fun i => ⟨h.ofClient_eq i, ((h.client i).quiet (hproper i) s).reply⟩⟩

/-- The first client sends two requests, the second one. -/
def mixedRequests : Bool → List (List Bytes)
  | true => [[bytes "SET", bytes "k", bytes "v"], [bytes "GET", bytes "k"]]
  | false => [[bytes "DEL", bytes "k"]]

theorem mixedRequests_proper : ∀ i, Proper remember (mixedRequests i) := by
  intro i argv hargv
  refine ⟨?_, fun s => rfl⟩
  have hsmall : argv ≠ [] ∧ argv.length ≤ 3 ∧ ∀ a ∈ argv, a.length ≤ 3 := by
    revert argv
    cases i <;> decide
  exact ⟨hsmall.1, by omega, fun a ha => by
    have := hsmall.2.2 a ha
    have hbulk : protoMaxBulkLen = 536870912 := rfl
    omega⟩

/-- The second request of the first client is still on its way when the
request of the second one is read. -/
theorem mixedRequests_linearize :
    ∃ log : List (Bool × List Bytes),
      ((Server.start [] fun i => wireOf (mixedRequests i)).run remember
        [(true, 30), (false, 9), (false, 50)]).data = (execLog remember [] log).1 ∧
      ofClient true log = [[bytes "SET", bytes "k", bytes "v"]] := by
  obtain ⟨log, hdata, hlog⟩ := reads_linearize mixedRequests_proper
    (fun i => List.prefix_rfl) [] [(true, 30), (false, 9), (false, 50)] rfl
  refine ⟨log, hdata, ?_⟩
  rw [(hlog true).1]
  decide +kernel

end

end Wahana
