import Wahana.ElasticClient

/-!
# What a call of the client can send

A call is retried while curl fails and retries are left, and a request whose
answer is lost may have reached the store all the same. What keeps the
transport from storing a document twice is the pool: a connection that has
failed is not ready again for two minutes. The handler below it has a retry
of its own, three sends at most, which the pool does not see
(`curlHandler_spec`).

`attempt_cases` says once what an attempt does. From it follow, by induction
on the retries left,

- `attempts_nodup`: a call that takes less than two minutes calls the handler
  for no entry of the pool twice, however many retries it has,
- `attempts_uri`: each attempt puts the path of its host in front of the URI
  of the attempt before, so that a retry keeps the URI only where hosts have
  no path,

and, by induction on the documents, `indexAll_stored`: with the one default
host, the script's documents reach the store in order, up to the call that
ended the script, and each once unless a reply came without a status line.
-/

namespace Wahana

namespace Elastic

/-! ## The sends of the handler -/

/-- The handler, begun at the `k`th send with `left` more allowed, has made
`sends` sends and gives `response`. -/
structure SendsOf (answer : Nat → CurlResult) (left k sends : Nat) (response : Response) :
    Prop where
  first : k < sends
  last : sends ≤ k + left + 1
  once : answer k ≠ .nothing → sends = k + 1
  status : ∀ code decodes, response = .status code decodes →
    ∃ j, sends = j + 1 ∧ answer j = .status code decodes

theorem sendFrom_spec (answer : Nat → CurlResult) (hasBody : Bool) : ∀ left k,
    SendsOf answer left k (sendFrom answer hasBody left k).1 (sendFrom answer hasBody left k).2
  | left, k => by
      unfold sendFrom
      split
      · exact ⟨by simp, by simp, fun _ => rfl, by simp⟩
      · rename_i code decodes hk
        refine ⟨by simp, by simp, fun _ => rfl, ?_⟩
        rintro code' decodes' ⟨⟩
        exact ⟨k, rfl, hk⟩
      · rename_i hk
        split
        · split
          · exact ⟨by simp, by simp, fun _ => rfl, by simp⟩
          · rename_i left
            obtain ⟨hfirst, hlast, -, hstatus⟩ := sendFrom_spec answer hasBody left (k + 1)
            exact ⟨by omega, by omega, fun h => absurd hk h, hstatus⟩
        · exact ⟨by simp, by simp, fun _ => rfl, by simp⟩

theorem curlHandler_spec (answer : Nat → CurlResult) (body : Body) :
    SendsOf answer 2 0 (curlHandler answer body).1 (curlHandler answer body).2 :=
  sendFrom_spec answer _ 2 0

/-! ## One attempt -/

/-- A connection the pool hands out at one of these times. -/
def Usable (time : Nat → Int) (c : Connection) : Prop :=
  c.isAlive = true ∨ ∃ j, c.readyToRevive (time j) = true

theorem nextConnection_some {time : Nat → Int} {cs : List Connection} :
    ∀ {total current current' i : Nat},
      nextConnection time cs total current = (current', some i) →
        ∃ c, cs[i]? = some c ∧ Usable time c
  | 0, _, _, _, h => by simp [nextConnection] at h
  | total + 1, current, current', i, h => by
      unfold nextConnection at h
      split at h
      · simp at h
      · rename_i c hc
        split at h
        · rename_i halive
          obtain ⟨-, hi⟩ := Prod.mk.inj h
          rw [← Option.some.inj hi]
          exact ⟨c, hc, .inl halive⟩
        split at h
        · rename_i hready
          obtain ⟨-, hi⟩ := Prod.mk.inj h
          rw [← Option.some.inj hi]
          exact ⟨c, hc, .inr ⟨_, hready⟩⟩
        · exact nextConnection_some h

namespace Transport

/-- The handler call for a request on the connection `c` at `i`. -/
def callOf (w : World) (t : Transport) (i : Nat) (c : Connection) (r : HttpRequest) : Attempt :=
  ⟨i, c.request r, (curlHandler (w.answer t.sent.length) r.body).1⟩

/-- The transport after a call of the handler. -/
def afterSend (t : Transport) (current : Nat) (a : Attempt) : Transport :=
  { t with current, sent := t.sent ++ [a] }

theorem attempt_cases (w : World) (t : Transport) (r : HttpRequest) :
    (∃ current o, attempt w t r = .ended { t with current } o ∧ o ≠ .returned) ∨
    ∃ current i c, t.connections[i]? = some c ∧ Usable (w.selectedAt t.sent.length) c ∧
      r.body ≠ .failed ∧
      attempt w t r = handle w (t.afterSend current (callOf w t i c r)) t.sent.length i
        (c.request r) (w.response t.sent.length r.body) := by
  unfold attempt
  split
  · exact .inl ⟨_, _, rfl, by simp⟩
  · rename_i current i hnext
    obtain ⟨c, hc, husable⟩ := nextConnection_some hnext
    rw [hc]
    dsimp only
    split
    · exact .inl ⟨_, _, rfl, by simp⟩
    · rename_i hbody
      exact .inr ⟨current, i, c, hc, husable, hbody, rfl⟩

def paths (t : Transport) : List (Option Bytes) := t.connections.map (·.path)

structure SameHosts (t t' : Transport) : Prop where
  paths : t'.paths = t.paths
  sent : t'.sent = t.sent

theorem map_path_modify (f : Connection → Connection) (hf : ∀ c, (f c).path = c.path)
    (cs : List Connection) (i : Nat) :
    (cs.modify i f).map (·.path) = cs.map (·.path) := by
  apply List.ext_getElem?
  intro k
  simp only [List.getElem?_map, List.getElem?_modify]
  split
  · cases cs[k]? <;> simp [hf]
  · cases cs[k]? <;> rfl

def fail (w : World) (t : Transport) (n i : Nat) : Transport :=
  { t with connections := t.connections.modify i (.markDead (w.answeredAt n)) }

theorem handle_cases (w : World) (t : Transport) (n i : Nat) (r : HttpRequest)
    (response : Response) :
    (response = .curlError ∧ handle w t n i r response = .failed (t.fail w n i) r) ∨
    ∃ t' o, handle w t n i r response = .ended t' o ∧ SameHosts t t' ∧
      (o = .returned → ∃ code decodes, response = .status code decodes ∧ code < 400) := by
  have halive : ∀ t' : Transport, t'.sent = t.sent →
      t'.connections = t.connections.modify i (.markAlive (w.answeredAt n)) → SameHosts t t' := by
    intro t' hsent hconn
    refine ⟨?_, hsent⟩
    unfold paths
    rw [hconn]
    exact map_path_modify (.markAlive (w.answeredAt n)) (fun _ => rfl) _ _
  cases response with
  | curlError => exact .inl ⟨rfl, rfl⟩
  | otherError => exact .inr ⟨t, _, rfl, ⟨rfl, rfl⟩, by simp⟩
  | status code decodes =>
      right
      unfold handle
      dsimp only
      split
      · exact ⟨_, _, rfl, halive _ rfl rfl, by simp⟩
      split
      · exact ⟨_, _, rfl, halive _ rfl rfl, fun _ => ⟨code, decodes, rfl, by omega⟩⟩
      · exact ⟨_, _, rfl, halive _ rfl rfl, by simp⟩

/-! ## Failed connections -/

/-- The connection at `i` has failed in the `m`th call of the handler and has
not been tried since. -/
def Down (w : World) (t : Transport) (m i : Nat) : Prop :=
  ∃ c, t.connections[i]? = some c ∧ c.isAlive = false ∧ 0 < c.failedPings ∧
    c.lastPing = w.answeredAt m

theorem down_fail {w : World} {t : Transport} {n i : Nat} {c : Connection}
    (hc : t.connections[i]? = some c) : Down w (t.fail w n i) n i := by
  refine ⟨c.markDead (w.answeredAt n), ?_, rfl, Nat.succ_pos _, rfl⟩
  simp [fail, hc]

theorem Down.fail_of_ne {w : World} {t : Transport} {m n i k : Nat} (h : Down w t m k)
    (hne : i ≠ k) : Down w (t.fail w n i) m k := by
  obtain ⟨c, hc, hrest⟩ := h
  refine ⟨c, ?_, hrest⟩
  simp [fail, hc, hne]

/-- Two minutes are the shortest time after which a failed connection is
tried again. -/
theorem Down.not_usable {w : World} {t : Transport} {m i : Nat} {c : Connection}
    {time : Nat → Int} (h : Down w t m i) (hc : t.connections[i]? = some c)
    (htime : ∀ j, time j ≤ w.answeredAt m + 120) : ¬ Usable time c := by
  obtain ⟨c', hc', halive, hfailed, hping⟩ := h
  obtain rfl : c = c' := Option.some.inj (hc.symm.trans hc')
  rintro (hup | ⟨j, hready⟩)
  · rw [halive] at hup
    cases hup
  · have hready := of_decide_eq_true hready
    have hpow : 2 ≤ 2 ^ c.failedPings := by
      calc 2 = 2 ^ 1 := rfl
        _ ≤ 2 ^ c.failedPings := Nat.pow_le_pow_right (by omega) hfailed
    have hj := htime j
    rw [hping] at hready
    omega

/-! ## Attempts of a call -/

theorem fail_paths (w : World) (t : Transport) (n i : Nat) :
    (t.fail w n i).paths = t.paths :=
  map_path_modify (.markDead (w.answeredAt n)) (fun _ => rfl) _ _

/-- The transport with one retry counted. -/
def retry (t : Transport) : Transport := { t with retryAttempts := t.retryAttempts + 1 }

/-- The transport when a call of the handler has failed and is retried. -/
def afterFailure (w : World) (t : Transport) (current i : Nat) (c : Connection)
    (r : HttpRequest) : Transport :=
  ((t.afterSend current (callOf w t i c r)).fail w t.sent.length i).retry

section

variable (w : World) (t : Transport) (current i : Nat) (c : Connection) (r : HttpRequest)

@[simp] theorem afterFailure_sent :
    (afterFailure w t current i c r).sent = t.sent ++ [callOf w t i c r] := rfl

@[simp] theorem afterFailure_paths : (afterFailure w t current i c r).paths = t.paths :=
  fail_paths w (t.afterSend current (callOf w t i c r)) t.sent.length i

@[simp] theorem length_afterFailure :
    (afterFailure w t current i c r).connections.length = t.connections.length :=
  List.length_modify ..

end

theorem down_afterFailure {w : World} {t : Transport} {current i : Nat} {c : Connection}
    {r : HttpRequest} (hc : t.connections[i]? = some c) :
    Down w (afterFailure w t current i c r) t.sent.length i :=
  down_fail (t := t.afterSend current (callOf w t i c r)) hc

theorem Down.afterFailure {w : World} {t : Transport} {current i m k : Nat} {c : Connection}
    {r : HttpRequest} (h : Down w t m k) (hne : i ≠ k) :
    Down w (afterFailure w t current i c r) m k :=
  Down.fail_of_ne (t := t.afterSend current (callOf w t i c r)) h hne

/-- How a call goes on: it ends without a call of the handler, with its first
one, or fails there and is tried again while retries are left. -/
theorem performWith_cases (w : World) (left : Nat) (t : Transport) (r : HttpRequest) :
    (∃ current o, performWith w left t r = ({ t with current }, o) ∧ o ≠ .returned) ∨
    ∃ current i c, t.connections[i]? = some c ∧ Usable (w.selectedAt t.sent.length) c ∧
      r.body ≠ .failed ∧
      ((∃ t' o, performWith w left t r = (t', o) ∧
          SameHosts (t.afterSend current (callOf w t i c r)) t' ∧
          (o = .returned →
            ∃ code decodes, w.response t.sent.length r.body = .status code decodes ∧ code < 400)) ∨
        w.response t.sent.length r.body = .curlError ∧ ∃ k, left = k + 1 ∧
          performWith w left t r =
            performWith w k (afterFailure w t current i c r) (c.request r)) := by
  have hrun := performWith.eq_def w left t r
  dsimp only at hrun
  rcases attempt_cases w t r with ⟨current, o, h, ho⟩ | ⟨current, i, c, hc, husable, hbody, h⟩
  · left
    rw [h] at hrun
    exact ⟨current, o, hrun, ho⟩
  · right
    refine ⟨current, i, c, hc, husable, hbody, ?_⟩
    rw [h] at hrun
    rcases handle_cases w (t.afterSend current (callOf w t i c r)) t.sent.length i (c.request r)
      (w.response t.sent.length r.body) with ⟨hn, hfail⟩ | ⟨t', o, hend, hsame, hret⟩
    · rw [hfail] at hrun
      cases left with
      | zero => exact .inl ⟨_, _, hrun, ⟨fail_paths w _ _ i, rfl⟩, by simp⟩
      | succ k => exact .inr ⟨hn, k, rfl, hrun⟩
    · rw [hend] at hrun
      exact .inl ⟨t', o, hrun, hsame, hret⟩

/-! ## The requests of a call -/

def pathAt (paths : List (Option Bytes)) (i : Nat) : Bytes := (paths[i]?.getD none).getD []

theorem request_eq {t : Transport} {i : Nat} {c : Connection} (hc : t.connections[i]? = some c)
    (r : HttpRequest) : c.request r = { r with uri := pathAt t.paths i ++ r.uri } := by
  simp [Connection.request, pathAt, paths, hc]

/-- Each request is the one before with one more path in front. -/
def Chained (paths : List (Option Bytes)) : HttpRequest → List Attempt → Prop
  | _, [] => True
  | r, a :: as =>
      a.entry < paths.length ∧ a.request = { r with uri := pathAt paths a.entry ++ r.uri } ∧
        Chained paths a.request as

theorem performWith_sent {w : World} : ∀ (left : Nat) (t : Transport) (r : HttpRequest),
    (performWith w left t r).1.paths = t.paths ∧
      ∃ new, (performWith w left t r).1.sent = t.sent ++ new ∧ Chained t.paths r new
  | left, t, r => by
      rcases performWith_cases w left t r with
        ⟨current, o, h, -⟩ | ⟨current, i, c, hc, -, -, ⟨t', o, h, hsame, -⟩ | ⟨-, k, hk, h⟩⟩
      · rw [h]
        exact ⟨rfl, [], by simp, trivial⟩
      · have hlt : i < t.paths.length := by
          simpa [paths] using (List.getElem?_eq_some_iff.mp hc).1
        rw [h]
        exact ⟨hsame.paths, [callOf w t i c r], hsame.sent, hlt, request_eq hc r, trivial⟩
      · have hlt : i < t.paths.length := by
          simpa [paths] using (List.getElem?_eq_some_iff.mp hc).1
        obtain ⟨hpaths, new, hnew, hchain⟩ := performWith_sent k
          (afterFailure w t current i c r) (c.request r)
        rw [afterFailure_paths] at hpaths hchain
        rw [h]
        refine ⟨hpaths, callOf w t i c r :: new, ?_, hlt, request_eq hc r, hchain⟩
        rw [hnew, afterFailure_sent, List.append_assoc, List.singleton_append]
termination_by left => left

theorem Chained.uri {paths : List (Option Bytes)} : ∀ {before : List Attempt} {r : HttpRequest}
    {a : Attempt} {after : List Attempt}, Chained paths r (before ++ a :: after) →
    a.request = { r with
      uri := ((before ++ [a]).map fun b => pathAt paths b.entry).reverse.flatten ++ r.uri }
  | [], r, a, after, h => by
      obtain ⟨-, ha, -⟩ := h
      simpa using ha
  | b :: before, r, a, after, h => by
      obtain ⟨-, hb, hrest⟩ := h
      have ha := Chained.uri hrest
      rw [ha, hb]
      simp

/-- A call sends its method and body unchanged, and its URI behind the paths
of all the hosts it has tried so far. -/
theorem attempts_uri (w : World) (t : Transport) (r : HttpRequest) :
    ∃ new, (t.performRequest w r).1.sent = t.sent ++ new ∧
      ∀ before a after, new = before ++ a :: after →
        a.request = { r with
          uri := ((before ++ [a]).map fun b => pathAt t.paths b.entry).reverse.flatten ++ r.uri } := by
  obtain ⟨-, new, hnew, hchain⟩ := performWith_sent (w := w) (t.retries - t.retryAttempts) t r
  refine ⟨new, hnew, ?_⟩
  intro before a after hsplit
  rw [hsplit] at hchain
  exact hchain.uri

/-! ## No entry twice -/

theorem performWith_nodup {w : World} {first : Nat} : ∀ (left : Nat) (t : Transport)
    (r : HttpRequest) (down : List Nat),
    (∀ k ∈ down, ∃ m, first ≤ m ∧ m < t.sent.length ∧ Down w t m k) →
    (∀ m n j, first ≤ m → m < n → n < (performWith w left t r).1.sent.length →
      w.selectedAt n j ≤ w.answeredAt m + 120) →
    first ≤ t.sent.length →
    ∃ new, (performWith w left t r).1.sent = t.sent ++ new ∧ (new.map (·.entry)).Nodup ∧
      ∀ a ∈ new, a.entry ∉ down ∧ a.entry < t.connections.length
  | left, t, r, down, hdown, hclock, hfirst => by
      rcases performWith_cases w left t r with
        ⟨current, o, h, -⟩ | ⟨current, i, c, hc, husable, -, hrest⟩
      · rw [h]
        exact ⟨[], by simp⟩
      have hlt := (List.getElem?_eq_some_iff.mp hc).1
      -- an entry that failed in this call cannot have been chosen
      have hfresh : t.sent.length < (performWith w left t r).1.sent.length → i ∉ down := by
        intro hlong hi
        obtain ⟨m, hm, hmt, hd⟩ := hdown i hi
        exact hd.not_usable hc (fun j => hclock m _ j hm hmt hlong) husable
      rcases hrest with ⟨t', o, h, hsame, -⟩ | ⟨-, k, hk, h⟩
      · have hsent : (performWith w left t r).1.sent = t.sent ++ [callOf w t i c r] := by
          rw [h]
          exact hsame.sent
        refine ⟨[callOf w t i c r], hsent, by simp, ?_⟩
        have hi := hfresh (by simp [hsent])
        simpa using ⟨hi, hlt⟩
      · have hlonger : t.sent.length < (performWith w left t r).1.sent.length := by
          obtain ⟨-, new, hnew, -⟩ := performWith_sent (w := w) k (afterFailure w t current i c r)
            (c.request r)
          rw [h, hnew]
          simp
        have hi := hfresh hlonger
        have hdown₁ : ∀ k ∈ i :: down, ∃ m, first ≤ m ∧
            m < (afterFailure w t current i c r).sent.length ∧
              Down w (afterFailure w t current i c r) m k := by
          intro k hk
          rcases List.mem_cons.mp hk with rfl | hk
          · exact ⟨t.sent.length, hfirst, by simp, down_afterFailure hc⟩
          · obtain ⟨m, hm, hmt, hd⟩ := hdown k hk
            exact ⟨m, hm, by simp; omega, hd.afterFailure fun he => hi (he ▸ hk)⟩
        obtain ⟨new, hnew, hnodup, hout⟩ := performWith_nodup k (afterFailure w t current i c r)
          (c.request r) (i :: down) hdown₁ (by rw [← h]; exact hclock) (by simp; omega)
        rw [length_afterFailure] at hout
        refine ⟨callOf w t i c r :: new, by rw [h, hnew]; simp, ?_, ?_⟩
        · rw [List.map_cons, List.nodup_cons]
          refine ⟨?_, hnodup⟩
          intro hmem
          obtain ⟨a, ha, hai⟩ := List.mem_map.mp hmem
          exact (hout a ha).1 (List.mem_cons.mpr (.inl hai))
        · intro a ha
          rcases List.mem_cons.mp ha with rfl | ha
          · exact ⟨hi, hlt⟩
          · obtain ⟨hnot, hbound⟩ := hout a ha
            exact ⟨fun hm => hnot (List.mem_cons_of_mem i hm), hbound⟩
termination_by left => left

/-- A call that takes at most two minutes from its first failure on calls the
handler for no entry of the pool twice, so that it makes at most as many calls
as the pool has entries. -/
theorem attempts_nodup (w : World) (t : Transport) (r : HttpRequest)
    (hclock : ∀ m n j, t.sent.length ≤ m → m < n → n < (t.performRequest w r).1.sent.length →
      w.selectedAt n j ≤ w.answeredAt m + 120) :
    ∃ new, (t.performRequest w r).1.sent = t.sent ++ new ∧ (new.map (·.entry)).Nodup ∧
      new.length ≤ t.connections.length := by
  obtain ⟨new, hnew, hnodup, hout⟩ := performWith_nodup (w := w) _ t r []
    (by simp) hclock (Nat.le_refl _)
  refine ⟨new, hnew, hnodup, ?_⟩
  have hsub : new.map (·.entry) ⊆ List.range t.connections.length := by
    intro i hi
    obtain ⟨a, ha, rfl⟩ := List.mem_map.mp hi
    exact List.mem_range.mpr (hout a ha).2
  simpa using (List.subperm_of_subset hnodup hsub).length_le

/-- A network on which every reply is lost without an error number. -/
def silent : World where
  answer _ _ := .nothing
  applied _ _ := true
  answeredAt _ := 1000
  selectedAt _ _ := 1000

theorem twoEntries_called_once :
    (((build [none, some (bytes "/es")]).performRequest silent
      ⟨bytes "POST", bytes "/a/b", .text []⟩).1.sent.map (·.sends)) = [3, 3] ∧
    ∃ new, ((build [none, some (bytes "/es")]).performRequest silent
        ⟨bytes "POST", bytes "/a/b", .text []⟩).1.sent = [] ++ new ∧
      (new.map (·.entry)).Nodup ∧ new.length ≤ 2 :=
  ⟨by decide +kernel, attempts_nodup silent (build [none, some (bytes "/es")]) _
    fun _ _ _ _ _ _ => show (1000 : Int) ≤ 1000 + 120 by decide⟩

/-! ## One host -/

section OneHost

variable {w : World}
  (hprompt : ∀ n j s, w.response n (.text s) = .curlError →
    w.selectedAt (n + 1) j ≤ w.answeredAt n + 120)
include hprompt

/-- On one host a call calls the handler at most once: a retry finds no
connection. -/
theorem performWith_once (left : Nat) {t : Transport} {r : HttpRequest} {json : Option Bytes}
    (hjson : r.body = .ofJson json) (hone : t.connections.length = 1) :
    ((performWith w left t r).1.sent = t.sent ∧ (performWith w left t r).2 ≠ .returned) ∨
    r.body ≠ .failed ∧ ∃ i c, (performWith w left t r).1.sent = t.sent ++ [callOf w t i c r] ∧
      ((performWith w left t r).2 = .returned →
        ∃ code decodes, w.response t.sent.length r.body = .status code decodes ∧ code < 400) := by
  rcases performWith_cases w left t r with
    ⟨current, o, h, ho⟩ | ⟨current, i, c, hc, -, hbody, hrest⟩
  · rw [h]
    exact .inl ⟨rfl, ho⟩
  refine .inr ⟨hbody, i, c, ?_⟩
  rcases hrest with ⟨t', o, h, hsame, hret⟩ | ⟨herr, k, -, h⟩
  · rw [h]
    exact ⟨hsame.sent, hret⟩
  · rcases performWith_cases w k (afterFailure w t current i c r) (c.request r) with
      ⟨current', o, h', ho⟩ | ⟨current', i', c', hc', husable, -⟩
    · rw [h, h']
      exact ⟨rfl, fun hr => absurd hr ho⟩
    · have hlt := (List.getElem?_eq_some_iff.mp hc).1
      have hlt' := (List.getElem?_eq_some_iff.mp hc').1
      rw [length_afterFailure] at hlt'
      obtain rfl : i = i' := by omega
      rw [afterFailure_sent, List.length_append, List.length_singleton] at husable
      cases json with
      | none => exact absurd hjson hbody
      | some s =>
          rw [hjson] at herr
          exact absurd husable
            ((down_afterFailure hc).not_usable hc' fun j => hprompt _ j s herr)

theorem performRequest_once {t : Transport} (hpaths : t.paths = [none]) {r : HttpRequest}
    {json : Option Bytes} (hjson : r.body = .ofJson json) :
    (t.performRequest w r).1.paths = [none] ∧
    (((t.performRequest w r).1.sent = t.sent ∧ (t.performRequest w r).2 ≠ .returned) ∨
    r.body ≠ .failed ∧ ∃ i, (t.performRequest w r).1.sent =
        t.sent ++ [⟨i, r, (curlHandler (w.answer t.sent.length) r.body).1⟩] ∧
      ((t.performRequest w r).2 = .returned →
        ∃ code decodes, w.response t.sent.length r.body = .status code decodes ∧ code < 400)) := by
  have hone : t.connections.length = 1 := by
    rw [← List.length_map (·.path)]
    exact congrArg List.length hpaths
  obtain ⟨hsame, new, hnew, hchain⟩ := performWith_sent (w := w) (t.retries - t.retryAttempts) t r
  refine ⟨hsame.trans hpaths, ?_⟩
  rcases performWith_once hprompt (t.retries - t.retryAttempts) hjson hone with
    hnone | ⟨hbody, i, c, ha, hret⟩
  · exact .inl hnone
  · obtain rfl : new = [callOf w t i c r] := List.append_cancel_left (hnew.symm.trans ha)
    obtain ⟨hlt, hreq, -⟩ := hchain
    obtain h0 : i = 0 := by simpa [hpaths, callOf] using hlt
    have hreq : c.request r = r := by
      rw [show c.request r = _ from hreq, hpaths, show (callOf w t i c r).entry = 0 from h0]
      rfl
    have hcall : callOf w t i c r = ⟨i, r, (curlHandler (w.answer t.sent.length) r.body).1⟩ := by
      rw [callOf, hreq]
    exact .inr ⟨hbody, i, hcall ▸ ha, hret⟩

end OneHost

end Transport

/-! ## A script -/

section Script

variable {β : Type} {w : World} {serialize : β → Option Bytes}

theorem indexAll_returned {t t₁ : Transport} {r : IndexRequest β}
    (h : t.performRequest w (httpRequest serialize r) = (t₁, .returned))
    (rs : List (IndexRequest β)) :
    indexAll w serialize t (r :: rs) =
      ((indexAll w serialize t₁ rs).1, (indexAll w serialize t₁ rs).2 + 1) := by
  rw [indexAll, index_endpointOf, h]

theorem indexAll_stopped {t t₁ : Transport} {r : IndexRequest β} {o : Outcome}
    (h : t.performRequest w (httpRequest serialize r) = (t₁, o)) (ho : o ≠ .returned)
    (rs : List (IndexRequest β)) : indexAll w serialize t (r :: rs) = (t₁, 0) := by
  rw [indexAll, index_endpointOf, h]
  cases o with
  | returned => exact absurd rfl ho
  | _ => rfl

/-- How often the document of the `n`th handler call may be in the store: at
most three times, at least once if its call returned, and at most once if the
first send got an error number or a status line. -/
structure StoredBy (w : World) (n : Nat) (returned : Prop) (c : Nat) : Prop where
  le_three : c ≤ 3
  pos : returned → 1 ≤ c
  once : w.answer n 0 ≠ .nothing → c ≤ 1

theorem copies_le (n : Nat) (a : Attempt) : copies w n a ≤ a.sends := by
  unfold copies
  exact List.countP_le_length.trans (Nat.le_of_eq List.length_range)

/-- The handler calls `new`, from the `n`th on, of a script over `rs` of which
`k` calls have returned; `stored` says how often each document is stored. -/
structure SentOf (w : World) (serialize : β → Option Bytes) (rs : List (IndexRequest β))
    (n k : Nat) (new : List Attempt) (stored : List Nat) : Prop where
  inOrder : new.map (·.request) <+: rs.map (httpRequest serialize)
  encoded : ∀ a ∈ new, a.request.body ≠ .failed
  sends : ∀ a ∈ new, a.sends ≤ 3
  calls : new.length = k ∨ new.length = k + 1
  length : stored.length = new.length
  applied : appliedFrom w n new =
    (List.zipWith List.replicate stored (rs.map (httpRequest serialize))).flatten
  each : ∀ m c, stored[m]? = some c → StoredBy w (n + m) (m < k) c

theorem SentOf.nil (rs : List (IndexRequest β)) (n : Nat) : SentOf w serialize rs n 0 [] [] where
  inOrder := by simp
  encoded := by simp
  sends := by simp
  calls := .inl rfl
  length := rfl
  applied := rfl
  each := by simp

/-- The handler call for the document `r`. -/
structure CallOf (w : World) (serialize : β → Option Bytes) (r : IndexRequest β) (n : Nat)
    (returned : Prop) (a : Attempt) : Prop where
  request : a.request = httpRequest serialize r
  encoded : a.request.body ≠ .failed
  sends : a.sends ≤ 3
  stored : StoredBy w n returned (copies w n a)

/-- The call that ended the script. -/
theorem SentOf.last {r : IndexRequest β} {a : Attempt} {n : Nat}
    (h : CallOf w serialize r n False a) (rs : List (IndexRequest β)) :
    SentOf w serialize (r :: rs) n 0 [a] [copies w n a] where
  inOrder := by simp [h.request]
  encoded := by simpa using h.encoded
  sends := by simpa using h.sends
  calls := .inr rfl
  length := rfl
  applied := by simp [appliedFrom, h.request]
  each := by
    intro m c hm
    cases m with
    | zero =>
        obtain rfl : copies w n a = c := Option.some.inj hm
        exact ⟨h.stored.le_three, fun h0 => absurd h0 (Nat.not_lt_zero 0), h.stored.once⟩
    | succ m => simp at hm

/-- A call that returned, and those after it. -/
theorem SentOf.cons {r : IndexRequest β} {a : Attempt} {rs : List (IndexRequest β)} {n k : Nat}
    {new : List Attempt} {stored : List Nat} (ha : CallOf w serialize r n True a)
    (h : SentOf w serialize rs (n + 1) k new stored) :
    SentOf w serialize (r :: rs) n (k + 1) (a :: new) (copies w n a :: stored) where
  inOrder := by simpa [ha.request] using h.inOrder
  encoded := List.forall_mem_cons.mpr ⟨ha.encoded, h.encoded⟩
  sends := List.forall_mem_cons.mpr ⟨ha.sends, h.sends⟩
  calls := by simpa using h.calls
  length := by simpa using h.length
  applied := by simp [appliedFrom, ha.request, h.applied]
  each := by
    intro m c hm
    cases m with
    | zero =>
        obtain rfl : copies w n a = c := Option.some.inj hm
        exact ⟨ha.stored.le_three, fun _ => ha.stored.pos trivial, ha.stored.once⟩
    | succ m =>
        obtain ⟨hle, hpos, honce⟩ := h.each m c hm
        have hn : n + (m + 1) = n + 1 + m := by omega
        rw [hn]
        exact ⟨hle, fun hlt => hpos (by omega), honce⟩

section

variable (serialize)
  (hprompt : ∀ n j s, w.response n (.text s) = .curlError →
    w.selectedAt (n + 1) j ≤ w.answeredAt n + 120)
  (hstored : ∀ n k code decodes, w.answer n k = .status code decodes → code < 400 →
    w.applied n k = true)

include hstored in
/-- The sends of one handler call, of which the last is stored when it got a
status below 400. -/
theorem storedBy_curlHandler (n i : Nat) (r : HttpRequest) (returned : Prop)
    (hret : returned → ∃ code decodes, w.response n r.body = .status code decodes ∧ code < 400) :
    (curlHandler (w.answer n) r.body).1 ≤ 3 ∧
      StoredBy w n returned (copies w n ⟨i, r, (curlHandler (w.answer n) r.body).1⟩) := by
  obtain ⟨-, hlast, honce, hstatus⟩ := curlHandler_spec (w.answer n) r.body
  have hle := copies_le (w := w) n ⟨i, r, (curlHandler (w.answer n) r.body).1⟩
  refine ⟨hlast, hle.trans hlast, ?_, fun h0 => hle.trans (Nat.le_of_eq (honce h0))⟩
  intro h
  obtain ⟨code, decodes, hresponse, hcode⟩ := hret h
  obtain ⟨j, hj, hanswer⟩ := hstatus code decodes hresponse
  exact List.countP_pos_iff.mpr
    ⟨j, List.mem_range.mpr (by rw [hj]; exact Nat.lt_succ_self j),
      hstored n j code decodes hanswer hcode⟩

include hprompt hstored

theorem indexAll_sent : ∀ (rs : List (IndexRequest β)) {t : Transport}, t.paths = [none] →
    ∃ new stored, (indexAll w serialize t rs).1.sent = t.sent ++ new ∧
      SentOf w serialize rs t.sent.length (indexAll w serialize t rs).2 new stored
  | [], t, _ => ⟨[], [], by simp [indexAll], .nil [] _⟩
  | r :: rs, t, hpaths => by
      obtain ⟨hpaths₁, hcall⟩ := Transport.performRequest_once hprompt hpaths
        (show (httpRequest serialize r).body = .ofJson (serialize r.body) from rfl)
      generalize hx : t.performRequest w (httpRequest serialize r) = x at hpaths₁ hcall
      obtain ⟨t₁, o⟩ := x
      rcases hcall with ⟨hsent, ho⟩ | ⟨hbody, i, hsent, hret⟩
      · rw [indexAll_stopped hx ho]
        exact ⟨[], [], by simpa using hsent, .nil _ _⟩
      by_cases ho : o = .returned
      · subst ho
        obtain ⟨hsends, hby⟩ := storedBy_curlHandler hstored t.sent.length i
          (httpRequest serialize r) True (fun _ => hret rfl)
        obtain ⟨new, stored, hnew, hrun⟩ := indexAll_sent rs hpaths₁
        have hlen : t₁.sent.length = t.sent.length + 1 := by
          rw [show t₁.sent = _ from hsent]
          simp
        rw [hlen] at hrun
        rw [indexAll_returned hx]
        refine ⟨_, _, ?_, .cons ⟨rfl, hbody, hsends, hby⟩ hrun⟩
        rw [hnew, show t₁.sent = _ from hsent]
        simp
      · obtain ⟨hsends, hby⟩ := storedBy_curlHandler hstored t.sent.length i
          (httpRequest serialize r) False False.elim
        rw [indexAll_stopped hx ho]
        exact ⟨_, _, hsent, .last ⟨rfl, hbody, hsends, hby⟩ rs⟩

end

end Script

/-- The first document is stored at its second send, the answer to the second
document is lost. -/
def secondAnswerLost : World where
  answer n k :=
    match n, k with
    | 0, 0 => .nothing
    | 0, _ => .status 201 true
    | _, _ => .errno
  applied _ _ := true
  answeredAt _ := 1000
  selectedAt _ _ := 1000

def threeDocuments : List (IndexRequest Nat) :=
  [⟨"index_uwsgi", "log_nginx", none, 1⟩, ⟨"index_uwsgi", "log_nginx", none, 2⟩,
    ⟨"index_uwsgi", "log_nginx", none, 3⟩]

end Elastic

end Wahana
