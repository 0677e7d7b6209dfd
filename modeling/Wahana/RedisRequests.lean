import Wahana.Predis
import Wahana.RedisBuffer

/-!
# Requests on the wire

A client library writes each request as a count and its strings with their
lengths. From a stream of such requests the server executes exactly those
that have arrived completely, in their order (`drain_requests`); of a
request that is not there completely it executes nothing (`drain_part`), and
what it keeps of it stays small, so the limits on the input of a client are
not hit.
-/

namespace Wahana

open Reader

/-- A request in bulks. -/
def multibulk (argv : List Bytes) : Bytes :=
  ch '*' :: decimal argv.length ++ crlf ++ argv.flatMap bulk

theorem writeRequest_eq (commandID : Bytes) (arguments : List Bytes) :
    Predis.writeRequest commandID arguments = multibulk (commandID :: arguments) := by
  simp [Predis.writeRequest, multibulk]

/-- The requests a server in its default configuration takes. -/
structure IsRequest (argv : List Bytes) : Prop where
  ne : argv ≠ []
  count : argv.length ≤ 1024 * 1024
  args : ∀ a ∈ argv, (a.length : Int) ≤ protoMaxBulkLen

/-- A client between two requests. -/
def idle (reply : Bytes) : RedisConn := { RedisConn.start with reply := reply }

/-- A client in the middle of a request: the arguments it has, how many are
missing, and the length of the next one. -/
def reading (reply : Bytes) (argv : List Bytes) (multibulklen : Nat) (bulklen : Option Nat) :
    RedisConn :=
  { idle reply with
    reqtype := some .multibulk, argv := argv, multibulklen := multibulklen, bulklen := bulklen }

/-! ## Count lines -/

theorem strchr_of_notMem : ∀ {c : UInt8} {s : Bytes}, c ∉ s → strchr c s = none
  | _, [], _ => rfl
  | c, b :: s, h => by
      rw [List.mem_cons, not_or] at h
      rw [strchr, if_neg (Ne.symm h.1), strchr_of_notMem h.2]
      simp

theorem strchr_append_cons : ∀ {c : UInt8} {s : Bytes} (t : Bytes), c ∉ s → 0 ∉ s →
    strchr c (s ++ c :: t) = some s.length
  | c, [], t, _, _ => by simp [strchr]
  | c, b :: s, t, hc, h0 => by
      rw [List.mem_cons, not_or] at hc h0
      rw [List.cons_append, strchr, if_neg (Ne.symm hc.1), if_neg (Ne.symm h0.1),
        strchr_append_cons t hc.2 h0.2]
      rfl

/-- A byte that starts a count line. -/
def IsSign (sign : UInt8) : Prop := sign ≠ ch '\r' ∧ sign ≠ 0

theorem notMem_count {b sign : UInt8} (hsign : b ≠ sign) (hb : isDigit b = false) (n : Nat) :
    b ∉ sign :: decimal n := by
  rw [List.mem_cons, not_or]
  refine ⟨hsign, fun hmem => ?_⟩
  rw [isDigit_of_mem_decimal hmem] at hb
  cases hb

theorem strchr_count {sign : UInt8} (hsign : IsSign sign) (n : Nat) (q : Bytes) :
    strchr (ch '\r') (sign :: decimal n ++ ch '\r' :: q) = some ((decimal n).length + 1) :=
  strchr_append_cons q (notMem_count (Ne.symm hsign.1) rfl n) (notMem_count (Ne.symm hsign.2) rfl n)

theorem countLine_count {sign : UInt8} (hsign : IsSign sign) (n : Nat) (q : Bytes) :
    countLine (sign :: decimal n ++ crlf ++ q) = .line ((decimal n).length + 1) := by
  have hshape : sign :: decimal n ++ crlf ++ q = sign :: decimal n ++ ch '\r' :: (ch '\n' :: q) := by
    simp [crlf]
  rw [countLine_eq_line, hshape]
  refine ⟨strchr_count hsign n _, ?_⟩
  simp

theorem countOf_count {n : Nat} (hn : (n : Int) ≤ llongMax) (sign : UInt8) (q : Bytes) :
    countOf (sign :: decimal n ++ crlf ++ q) ((decimal n).length + 1) = some (n : Int) := by
  rw [countOf, List.cons_append, List.cons_append, List.drop_one, List.tail_cons,
    List.append_assoc, Nat.add_sub_cancel, List.take_left, string2ll_decimal hn]

theorem length_decimal_le {n : Nat} (hn : (n : Int) ≤ llongMax) : (decimal n).length ≤ 20 := by
  rw [← signed_natCast]
  exact length_signed_le (isLongLong_natCast hn)

theorem drop_count (n : Nat) (sign : UInt8) (q : Bytes) :
    (sign :: decimal n ++ crlf ++ q).drop ((decimal n).length + 1 + 2) = q :=
  List.drop_left' (by simp [crlf])

/-- A count line that is not there completely is waited for. -/
theorem countLine_truncated {sign : UInt8} (hsign : IsSign sign) {n : Nat}
    (hn : (n : Int) ≤ llongMax) {p missing : Bytes} (hne : missing ≠ [])
    (h : p ++ missing = sign :: decimal n ++ crlf) : countLine p = .wait ∧ p.length ≤ 22 := by
  have hlen := length_decimal_le hn
  have hr := notMem_count (Ne.symm hsign.1) (rfl : isDigit (ch '\r') = false) n
  have hmax : protoInlineMaxSize = 65536 := rfl
  have hnone : ∀ {x : Bytes}, strchr (ch '\r') x = none → x.length ≤ 22 → countLine x = .wait := by
    intro x hx hle
    simp only [countLine, hx]
    exact if_neg (by omega)
  rcases truncated_append h with ⟨m, -, hm⟩ | ⟨q, rfl, hq⟩
  · -- inside the number
    have hple : p.length ≤ (sign :: decimal n).length := by
      rw [← hm, List.length_append]
      omega
    rw [List.length_cons] at hple
    refine ⟨hnone (strchr_of_notMem fun hmem => hr ?_) (by omega), by omega⟩
    rw [← hm]
    exact List.mem_append_left _ hmem
  · -- between the number and the line feed
    rcases q with _ | ⟨b, q⟩
    · rw [List.append_nil, List.length_cons]
      exact ⟨hnone (strchr_of_notMem hr) (by rw [List.length_cons]; omega), by omega⟩
    · obtain ⟨rfl, hq⟩ := List.cons.inj hq
      obtain rfl : q = [] := by
        have hlen₂ := congrArg List.length hq
        have hpos := List.length_pos_of_ne_nil hne
        rw [List.length_append, List.length_cons, show crlf.length = 2 from rfl] at hlen₂
        exact List.eq_nil_of_length_eq_zero (by omega)
      refine ⟨?_, by simp; omega⟩
      simp only [countLine, strchr_count hsign]
      exact if_pos (by simp only [List.length_append, List.length_cons, List.length_nil]; omega)

/-! ## Steps in a request -/

section

variable {σ : Type} {exec : σ → List Bytes → σ × Outcome} {s : σ} {R : Bytes} {argv : List Bytes}

theorem next_readCount {rest : Bytes} (hrest : rest ≠ []) :
    (redisReader exec).next (s, reading R argv 0 none) rest
      = (readCount exec s (reading R argv 0 none) rest).result s (reading R argv 0 none) rest :=
  redisNext_of_type (c := reading R argv 0 none) exec rfl hrest rfl

theorem next_readLength {m : Nat} {rest : Bytes} (hrest : rest ≠ []) :
    (redisReader exec).next (s, reading R argv (m + 1) none) rest
      = (readLength s (reading R argv (m + 1) none) rest).result s
          (reading R argv (m + 1) none) rest :=
  redisNext_of_type (c := reading R argv (m + 1) none) exec rfl hrest rfl

theorem next_readArgument {m bulklen : Nat} {rest : Bytes} (hrest : rest ≠ []) :
    (redisReader exec).next (s, reading R argv (m + 1) (some bulklen)) rest
      = (readArgument exec s (reading R argv (m + 1) (some bulklen)) bulklen rest).result s
          (reading R argv (m + 1) (some bulklen)) rest :=
  redisNext_of_type (c := reading R argv (m + 1) (some bulklen)) exec rfl hrest rfl

theorem next_type (p : Bytes) :
    (redisReader exec).next (s, idle R) (ch '*' :: p)
      = some ((s, reading R [] 0 none), ch '*' :: p) :=
  rfl

theorem next_count {n : Nat} (hpos : 0 < n) (hn : n ≤ 1024 * 1024) (q : Bytes) :
    (redisReader exec).next (s, reading R [] 0 none) (ch '*' :: decimal n ++ crlf ++ q)
      = some ((s, reading R [] n none), q) := by
  have hmax : llongMax = 2 ^ 63 - 1 := rfl
  rw [next_readCount (by simp), readCount, withCountLine, countLine_count ⟨by decide, by decide⟩]
  simp only [countOf_count (n := n) (by omega)]
  rw [if_neg (by omega), if_neg (by omega), ReadAct.result, drop_count]
  rfl

theorem next_length {n m : Nat} (hn : (n : Int) ≤ protoMaxBulkLen) (q : Bytes) :
    (redisReader exec).next (s, reading R argv (m + 1) none) (ch '$' :: decimal n ++ crlf ++ q)
      = some ((s, reading R argv (m + 1) (some n)), q) := by
  have hmax : llongMax = 2 ^ 63 - 1 := rfl
  have hbulk : protoMaxBulkLen = 536870912 := rfl
  rw [next_readLength (by simp), readLength, withCountLine,
    countLine_count ⟨by decide, by decide⟩]
  simp only [countOf_count (n := n) (by omega)]
  rw [if_neg (by simp), if_neg (by omega), ReadAct.result, drop_count]
  rfl

theorem next_argument (a : Bytes) (m : Nat) (q : Bytes) :
    (redisReader exec).next (s, reading R argv (m + 1) (some a.length)) (a ++ crlf ++ q)
      = some (if m = 0 then requestRead exec s (reading R (argv ++ [a]) 0 none)
          else (s, reading R (argv ++ [a]) m none), q) := by
  rw [next_readArgument (by simp [crlf]), readArgument, if_neg (by simp [crlf]), ReadAct.result, List.append_assoc,
    List.take_left, ← List.append_assoc, List.drop_left' (by simp [crlf])]
  cases m <;> rfl

/-! ## Steps not made -/

theorem next_idle_nil : (redisReader exec).next (s, idle R) [] = none := rfl

theorem next_count_wait {p : Bytes} (h : countLine p = .wait) :
    (redisReader exec).next (s, reading R argv 0 none) p = none := by
  by_cases hp : p = []
  · rw [hp]
    rfl
  · rw [next_readCount hp, readCount, withCountLine, h]
    rfl

theorem next_length_wait {p : Bytes} {m : Nat} (h : countLine p = .wait) :
    (redisReader exec).next (s, reading R argv (m + 1) none) p = none := by
  by_cases hp : p = []
  · rw [hp]
    rfl
  · rw [next_readLength hp, readLength, withCountLine, h]
    rfl

theorem next_argument_wait {bulklen m : Nat} {p : Bytes} (h : p.length < bulklen + 2) :
    (redisReader exec).next (s, reading R argv (m + 1) (some bulklen)) p = none := by
  by_cases hp : p = []
  · rw [hp]
    rfl
  · rw [next_readArgument hp, readArgument, if_pos h]
    rfl

/-! ## A request -/

theorem bulk_append (a q : Bytes) :
    bulk a ++ q = ch '$' :: decimal a.length ++ crlf ++ (a ++ crlf ++ q) := by
  simp [bulk]

theorem drain_bulks : ∀ {todo done : List Bytes} (q : Bytes), todo ≠ [] →
    (∀ a ∈ todo, (a.length : Int) ≤ protoMaxBulkLen) →
      (redisReader exec).drain (s, reading R done todo.length none) (todo.flatMap bulk ++ q)
        = (redisReader exec).drain (requestRead exec s (reading R (done ++ todo) 0 none)) q
  | [], _, _, hne, _ => absurd rfl hne
  | a :: todo, done, q, _, hargs => by
      rw [List.flatMap_cons, List.append_assoc, bulk_append, List.length_cons,
        drain_of_some (next_length (hargs a (by simp)) _), drain_of_some (next_argument a _ _)]
      cases todo with
      | nil => rfl
      | cons b todo =>
          rw [if_neg (by simp), drain_bulks q (by simp) fun x hx => hargs x (by simp [hx])]
          simp

/-- A client that still waits for the rest of a request. -/
structure Quiet (R : Bytes) (c : RedisConn) (rest : Bytes) : Prop where
  reply : c.reply = R
  closed : c.closed = false
  protocolError : c.protocolError = none
  length : (rest.length : Int) ≤ protoMaxBulkLen + 2

theorem quiet_reading {m : Nat} {bulklen : Option Nat} {rest : Bytes}
    (h : (rest.length : Int) ≤ protoMaxBulkLen + 2) : Quiet R (reading R argv m bulklen) rest :=
  ⟨rfl, rfl, rfl, h⟩

theorem drain_bulks_truncated : ∀ {todo done : List Bytes} {p missing : Bytes}, missing ≠ [] →
    (∀ a ∈ todo, (a.length : Int) ≤ protoMaxBulkLen) → p ++ missing = todo.flatMap bulk →
      ∃ c rest, Quiet R c rest ∧
        ∀ s, (redisReader exec).drain (s, reading R done todo.length none) p = ((s, c), rest)
  | [], _, _, _, hne, _, h => by
      rw [List.flatMap_nil, List.append_eq_nil_iff] at h
      exact absurd h.2 hne
  | a :: todo, done, p, missing, hne, hargs, h => by
      have hbulk : protoMaxBulkLen = 536870912 := rfl
      have hmax : llongMax = 2 ^ 63 - 1 := rfl
      rw [List.forall_mem_cons] at hargs
      rw [List.flatMap_cons, bulk_append] at h
      rcases truncated_append h with ⟨m, hm, hline⟩ | ⟨q, rfl, hq⟩
      · -- the length is not there
        obtain ⟨hwait, hlen⟩ := countLine_truncated ⟨by decide, by decide⟩ (by omega) hm hline
        exact ⟨_, p, quiet_reading (by omega), fun s => drain_of_none (next_length_wait hwait)⟩
      · simp only [List.length_cons, drain_of_some (next_length hargs.1 _)]
        rcases truncated_append hq with ⟨m, hm, harg⟩ | ⟨q, rfl, hrest⟩
        · -- the argument is not there
          have hlt : q.length < a.length + 2 := by
            have hlen := congrArg List.length harg
            have hpos := List.length_pos_of_ne_nil hm
            rw [List.length_append, List.length_append, show crlf.length = 2 from rfl] at hlen
            omega
          exact ⟨_, q, quiet_reading (by omega), fun s => drain_of_none (next_argument_wait hlt)⟩
        · obtain ⟨c, rest, hquiet, hdrain⟩ := drain_bulks_truncated hne hargs.2 hrest
          refine ⟨c, rest, hquiet, fun s => ?_⟩
          have htodo : todo.length ≠ 0 := by
            intro h0
            rw [List.eq_nil_of_length_eq_zero h0, List.flatMap_nil, List.append_eq_nil_iff] at hrest
            exact hne hrest.2
          rw [drain_of_some (next_argument a _ _), if_neg htodo, hdrain]

theorem requestRead_of_not_quit (hne : argv ≠ []) (hquit : (exec s argv).2.quit = false) :
    requestRead exec s (reading R argv 0 none)
      = ((exec s argv).1, idle (R ++ (exec s argv).2.reply)) := by
  rw [requestRead, if_neg (show (reading R argv 0 none).argv ≠ [] from hne),
    processCommandAndResetClient]
  simp [reading, hquit, RedisConn.resetClient, idle, RedisConn.start]

theorem drain_request (hargv : IsRequest argv) (hquit : (exec s argv).2.quit = false) (q : Bytes) :
    (redisReader exec).drain (s, idle R) (multibulk argv ++ q)
      = (redisReader exec).drain ((exec s argv).1, idle (R ++ (exec s argv).2.reply)) q := by
  have hpos := List.length_pos_of_ne_nil hargv.ne
  rw [multibulk, List.append_assoc, List.cons_append, List.cons_append, drain_of_some (next_type _),
    ← List.cons_append, ← List.cons_append, drain_of_some (next_count hpos hargv.count _),
    drain_bulks q hargv.ne hargv.args, List.nil_append, requestRead_of_not_quit hargv.ne hquit]

theorem drain_truncated (hargv : IsRequest argv) {p missing : Bytes} (hne : missing ≠ [])
    (h : p ++ missing = multibulk argv) :
    ∃ c rest, Quiet R c rest ∧ ∀ s, (redisReader exec).drain (s, idle R) p = ((s, c), rest) := by
  have hbulk : protoMaxBulkLen = 536870912 := rfl
  cases p with
  | nil => exact ⟨_, [], ⟨rfl, rfl, rfl, by simp [hbulk]⟩, fun s => drain_of_none next_idle_nil⟩
  | cons b p =>
      obtain rfl : b = ch '*' := (List.cons.inj h).1
      simp only [drain_of_some (next_type _)]
      have hpos := List.length_pos_of_ne_nil hargv.ne
      rcases truncated_append h with ⟨m, hm, hline⟩ | ⟨q, hq, hargs⟩
      · have hmax : llongMax = 2 ^ 63 - 1 := rfl
        have hcount := hargv.count
        obtain ⟨hwait, hlen⟩ := countLine_truncated ⟨by decide, by decide⟩ (by omega) hm hline
        exact ⟨_, _, quiet_reading (by omega), fun s => drain_of_none (next_count_wait hwait)⟩
      · simp only [hq, drain_of_some (next_count hpos hargv.count _)]
        exact drain_bulks_truncated hne hargv.args hargs

/-! ## A stream of requests -/

/-- The requests of a client, one after another. -/
def wireOf (requests : List (List Bytes)) : Bytes := requests.flatMap multibulk

variable (exec) in
/-- Executing requests: the state, and the replies. -/
def execAll : σ → List (List Bytes) → σ × Bytes
  | s, [] => (s, [])
  | s, argv :: requests =>
      let (s, o) := exec s argv
      let (s, reply) := execAll s requests
      (s, o.reply ++ reply)

/-- The requests that are there completely when `n` bytes have arrived, and
the number of bytes after them. -/
def arrived : List (List Bytes) → Nat → List (List Bytes) × Nat
  | [], n => ([], n)
  | argv :: requests, n =>
      if (multibulk argv).length ≤ n then
        let (done, part) := arrived requests (n - (multibulk argv).length)
        (argv :: done, part)
      else ([], n)

/-- Less than the next request. -/
def PartOf : List (List Bytes) → Bytes → Prop
  | [], part => part = []
  | argv :: _, part => ∃ missing, missing ≠ [] ∧ part ++ missing = multibulk argv

variable (exec) in
/-- A list of requests the server takes; none of them is `QUIT`. -/
def Proper (requests : List (List Bytes)) : Prop :=
  ∀ argv ∈ requests, IsRequest argv ∧ ∀ s, (exec s argv).2.quit = false

theorem arrived_eq : ∀ {done todo : List (List Bytes)} {part : Bytes}, PartOf todo part →
    arrived (done ++ todo) (wireOf done ++ part).length = (done, part.length)
  | [], [], part, h => by
      obtain rfl : part = [] := h
      rfl
  | [], argv :: todo, part, h => by
      obtain ⟨missing, hne, hpart⟩ := h
      have hpos := List.length_pos_of_ne_nil hne
      rw [List.nil_append, wireOf, List.flatMap_nil, List.nil_append, arrived, if_neg]
      rw [← hpart, List.length_append]
      omega
  | argv :: done, todo, part, h => by
      have hlen : (wireOf (argv :: done) ++ part).length
          = (multibulk argv).length + (wireOf done ++ part).length := by
        rw [wireOf, List.flatMap_cons, List.append_assoc, List.length_append, wireOf]
      rw [hlen, List.cons_append, arrived, if_pos (by omega), Nat.add_sub_cancel_left, arrived_eq h]

/-- **Exactly the complete requests are executed**, in their order, and the
client is left with less than a request. -/
theorem drain_requests : ∀ {requests : List (List Bytes)} {p missing : Bytes},
    Proper exec requests → p ++ missing = wireOf requests →
      ∃ done todo part, requests = done ++ todo ∧ p = wireOf done ++ part ∧ PartOf todo part ∧
        ∀ s R, (redisReader exec).drain (s, idle R) p
          = (redisReader exec).drain ((execAll exec s done).1, idle (R ++ (execAll exec s done).2))
              part
  | [], p, missing, _, h => by
      rw [wireOf, List.flatMap_nil, List.append_eq_nil_iff] at h
      refine ⟨[], [], p, rfl, rfl, h.1, fun s R => ?_⟩
      rw [execAll, List.append_nil]
  | argv :: requests, p, missing, hproper, h => by
      rw [Proper, List.forall_mem_cons] at hproper
      obtain ⟨⟨hargv, hquit⟩, hrequests⟩ := hproper
      rw [wireOf, List.flatMap_cons] at h
      rcases truncated_append h with ⟨m, hm, hpart⟩ | ⟨q, rfl, hq⟩
      · refine ⟨[], argv :: requests, p, rfl, rfl, ⟨m, hm, hpart⟩, fun s R => ?_⟩
        rw [execAll, List.append_nil]
      · obtain ⟨done, todo, part, rfl, rfl, hpart, hdrain⟩ := drain_requests hrequests hq
        refine ⟨argv :: done, todo, part, rfl, ?_, hpart, fun s R => ?_⟩
        · rw [wireOf, wireOf, List.flatMap_cons, List.append_assoc]
        · rw [drain_request hargv (hquit s), hdrain, execAll, List.append_assoc]

/-- Of a part of a request nothing is executed. -/
theorem drain_part {todo : List (List Bytes)} {part : Bytes} (hproper : Proper exec todo)
    (h : PartOf todo part) :
    ∃ c rest, Quiet R c rest ∧ ∀ s, (redisReader exec).drain (s, idle R) part = ((s, c), rest) := by
  cases todo with
  | nil =>
      obtain rfl : part = [] := h
      exact ⟨_, [], ⟨rfl, rfl, rfl, by decide⟩, fun s => drain_of_none next_idle_nil⟩
  | cons argv todo =>
      obtain ⟨missing, hne, hpart⟩ := h
      exact drain_truncated (hproper argv (by simp)).1 hne hpart

end

end Wahana
