import Wahana.ConvertUwsgi

/-!
# Runs of the uWSGI converter

The text the loop tests is never changed, so the condition never ends a
run that has begun. It goes on for ever, the documents behind the last
match being made of `null`s, or ends with the exception for a match that
is not valid UTF-8 (`RunTo`). Either way the `i`-th document sent is that
of the `i`-th match, and it is sent exactly if no match up to it stops the
script (`sent_getElem?_eq_some_iff`). The index keeps all documents sent
(`bodies_steps`).
-/

namespace Wahana

variable {content : Bytes} {redis : Redis} {client : DocStore UwsgiBody}

/-! ## Documents that can be sent -/

theorem isSome_jsonValue {v : Option Bytes} :
    (jsonValue v).isSome = true ↔ ∀ s ∈ v, ValidUtf8 s := by
  cases v with
  | none => simp [jsonValue]
  | some s => simp [jsonValue, validUtf8_iff]

theorem isSome_serialize {b : UwsgiBody} : b.serialize.isSome = true ↔
    (∀ s ∈ b.address_space_usage, ValidUtf8 s) ∧ (∀ s ∈ b.rss_usage, ValidUtf8 s)
      ∧ ∀ s ∈ b.pid, ValidUtf8 s := by
  rw [← isSome_jsonValue, ← isSome_jsonValue, ← isSome_jsonValue, UwsgiBody.serialize]
  cases jsonValue b.address_space_usage with
  | none => simp
  | some address =>
      cases jsonValue b.rss_usage with
      | none => simp
      | some rss => cases jsonValue b.pid <;> simp

/-- The three groups of the `i`-th match, if there is one, are valid UTF-8. -/
def GroupsValid (content : Bytes) (i : Nat) : Prop :=
  ∀ m, (pregMatchAll uwsgiRegex content)[i]? = some m → ∀ g ∈ [1, 2, 3], ValidUtf8 (m.group g)

/-- The request for the `i`-th match. -/
def requestAt (content : Bytes) (i : Nat) : IndexRequest UwsgiBody :=
  uwsgiRequest (documentAt (pregMatchAll uwsgiRegex content) i)

theorem isSome_serialize_requestAt {i : Nat} :
    (requestAt content i).body.serialize.isSome = true ↔ GroupsValid content i := by
  rw [isSome_serialize]
  simp only [requestAt, uwsgiRequest, documentAt, patternOrder, List.getElem?_map, GroupsValid]
  cases (pregMatchAll uwsgiRegex content)[i]? with
  | none => simp
  | some m => simp

/-- An iteration sends the request for the next match, or ends the script
with an exception if a group of it is not valid UTF-8. -/
theorem uwsgiBody_cases (s : UwsgiState) :
    (¬ GroupsValid s.logFile s.i ∧ uwsgiBody s
      = { s with redis := s.redis.set "uwsgi" (bytes "nama"), thrown := true })
    ∨ GroupsValid s.logFile s.i ∧ uwsgiBody s
      = { s with
          i := s.i + 1
          redis := s.redis.set "uwsgi" (bytes "nama")
          client := s.client.index (requestAt s.logFile s.i)
          sent := s.sent ++ [requestAt s.logFile s.i]
          echoed := s.echoed ++ bytes "data berhasil dihapus dari redis" } := by
  rw [← isSome_serialize_requestAt, uwsgiBody, ← requestAt]
  cases (requestAt s.logFile s.i).body.serialize with
  | none => exact .inl ⟨by simp, rfl⟩
  | some text => exact .inr ⟨rfl, rfl⟩

/-! ## The run -/

/-- What `n` iterations have done. -/
structure RunTo (content : Bytes) (n : Nat) (s : UwsgiState) : Prop where
  logFile : s.logFile = content
  sent : s.sent = (List.range s.i).map (requestAt content)
  valid : ∀ j < s.i, GroupsValid content j
  running : s.thrown = false → s.i = n
  stopped : s.thrown = true → s.i < n ∧ ¬ GroupsValid content s.i

theorem runTo_start : RunTo content 0 (uwsgiStart content redis client) where
  logFile := rfl
  sent := rfl
  valid := by simp [uwsgiStart]
  running := fun _ => rfl
  stopped := fun h => by cases h

theorem RunTo.body {n : Nat} {s : UwsgiState} (h : RunTo content n s) (hrun : s.thrown = false) :
    RunTo content (n + 1) (uwsgiBody s) := by
  have hi := h.running hrun
  rcases uwsgiBody_cases s with ⟨hnot, hbody⟩ | ⟨hvalid, hbody⟩
  · rw [h.logFile] at hnot
    rw [hbody]
    exact ⟨h.logFile, h.sent, h.valid, fun hf => (by cases hf),
      fun _ => ⟨by show s.i < n + 1; omega, hnot⟩⟩
  · rw [h.logFile] at hvalid
    rw [hbody, h.logFile]
    refine ⟨rfl, ?_, ?_, fun _ => congrArg (· + 1) hi, fun ht => ?_⟩
    · show s.sent ++ [requestAt content s.i] = (List.range (s.i + 1)).map (requestAt content)
      rw [h.sent, List.range_succ, List.map_append]
      rfl
    · intro j hj
      rcases Nat.lt_succ_iff_lt_or_eq.mp hj with hlt | rfl
      · exact h.valid j hlt
      · exact hvalid
    · exact absurd (hrun.symm.trans ht) (by decide)

theorem RunTo.step {n : Nat} {s : UwsgiState} (htrue : truthy content = true)
    (h : RunTo content n s) : RunTo content (n + 1) (uwsgiLoop.step s) := by
  cases hrun : s.thrown with
  | true =>
      rw [Loop.step_of_not_cond (by simp [uwsgiLoop, hrun])]
      obtain ⟨hlt, hnot⟩ := h.stopped hrun
      exact ⟨h.logFile, h.sent, h.valid, fun hf => absurd (hrun.symm.trans hf) (by decide),
        fun _ => ⟨Nat.lt_succ_of_lt hlt, hnot⟩⟩
  | false =>
      rw [Loop.step_of_cond (by simp [uwsgiLoop, hrun, h.logFile, htrue])]
      exact h.body hrun

theorem runTo_steps (redis : Redis) (client : DocStore UwsgiBody)
    (htrue : truthy content = true) : ∀ n,
    RunTo content n (uwsgiLoop.steps n (uwsgiStart content redis client))
  | 0 => runTo_start
  | n + 1 => by
      rw [Loop.steps_succ']
      exact (runTo_steps redis client htrue n).step htrue

/-- The `i`-th document of a run is that of the `i`-th match. It has been
sent after `n` iterations if there were enough of them and no match up to
it has ended the script. -/
theorem sent_getElem?_eq_some_iff (htrue : truthy content = true) {i n : Nat}
    {d : IndexRequest UwsgiBody} :
    ((uwsgiLoop.steps n (uwsgiStart content redis client)).sent)[i]? = some d
      ↔ (i < n ∧ ∀ j ≤ i, GroupsValid content j) ∧ d = requestAt content i := by
  obtain ⟨-, hsent, hvalid, hrunning, hstopped⟩ :=
    runTo_steps redis client htrue n
  generalize uwsgiLoop.steps n (uwsgiStart content redis client) = s at *
  rw [hsent, List.getElem?_map, Option.map_eq_some_iff]
  constructor
  · rintro ⟨j, hj, rfl⟩
    obtain ⟨hlt, hj⟩ := List.getElem?_eq_some_iff.mp hj
    rw [List.length_range] at hlt
    rw [List.getElem_range] at hj
    subst hj
    have hle : s.i ≤ n := by
      cases hthrown : s.thrown with
      | true => exact Nat.le_of_lt (hstopped hthrown).1
      | false => exact Nat.le_of_eq (hrunning hthrown)
    exact ⟨⟨by omega, fun k hk => hvalid k (by omega)⟩, rfl⟩
  · rintro ⟨⟨hlt, hall⟩, rfl⟩
    have hi : i < s.i := by
      cases hthrown : s.thrown with
      | true =>
          by_contra hge
          exact (hstopped hthrown).2 (hall s.i (by omega))
      | false => rw [hrunning hthrown]; exact hlt
    exact ⟨i, List.getElem?_range hi, rfl⟩

theorem exists_sent_iff (htrue : truthy content = true) {i n : Nat} :
    (∃ d, ((uwsgiLoop.steps n (uwsgiStart content redis client)).sent)[i]? = some d)
      ↔ i < n ∧ ∀ j ≤ i, GroupsValid content j := by
  simp [sent_getElem?_eq_some_iff htrue]

/-- No document is lost: the requests name no id, so each of them adds its
body to the index. -/
theorem bodies_steps (n : Nat) :
    (uwsgiLoop.steps n (uwsgiStart content redis client)).client.bodies "index_uwsgi"
      = ((uwsgiLoop.steps n (uwsgiStart content redis client)).sent.map fun r => r.body : List UwsgiBody)
        + client.bodies "index_uwsgi" := by
  refine Loop.steps_inv (I := fun s : UwsgiState => s.client.bodies "index_uwsgi"
    = (s.sent.map fun r => r.body : List UwsgiBody) + client.bodies "index_uwsgi") ?_ ?_ n
  · exact (Multiset.zero_add _).symm
  · intro s hs _
    show (uwsgiBody s).client.bodies "index_uwsgi"
      = ((uwsgiBody s).sent.map fun r => r.body : List UwsgiBody) + client.bodies "index_uwsgi"
    rcases uwsgiBody_cases s with ⟨-, hbody⟩ | ⟨-, hbody⟩
    · rw [hbody]
      exact hs
    · have hadd := s.client.bodies_index_auto (r := requestAt s.logFile s.i) rfl
      have hsent : ((s.sent ++ [requestAt s.logFile s.i]).map fun r => r.body : List UwsgiBody)
          = (requestAt s.logFile s.i).body ::ₘ (s.sent.map fun r => r.body : List UwsgiBody) := by
        rw [List.map_append]
        exact Multiset.coe_eq_coe.mpr (List.perm_append_singleton _ _)
      rw [hbody]
      show (s.client.index (requestAt s.logFile s.i)).bodies (requestAt s.logFile s.i).index
        = ((s.sent ++ [requestAt s.logFile s.i]).map fun r => r.body : List UwsgiBody) + _
      rw [hadd, hsent, Multiset.cons_add]
      exact congrArg _ hs

/-! ## Termination -/

/-- The document of one match. -/
def bodyOfMatch (m : Match UInt8) : UwsgiBody where
  address_space_usage := some (m.group 1)
  rss_usage := some (m.group 2)
  pid := some (m.group 3)

/-- The loop exits, and the documents it has sent by then are the matches
of the record pattern, each once and in order. -/
def EndsAfterRecords (content : Bytes) (redis : Redis) (client : DocStore UwsgiBody) : Prop :=
  ∃ N, uwsgiLoop.cond (uwsgiLoop.steps N (uwsgiStart content redis client)) = false
    ∧ (uwsgiLoop.steps N (uwsgiStart content redis client)).sent.map (fun r => r.body)
      = (pregMatchAll uwsgiRegex content).map bodyOfMatch

/-- A run that has begun does not end with all its documents sent: only an
exception ends it, and that is for a match whose document is not sent. -/
theorem not_endsAfterRecords (htrue : truthy content = true) :
    ¬ EndsAfterRecords content redis client := by
  rintro ⟨N, hexit, hsent⟩
  obtain ⟨hlog, hrequests, -, -, hstopped⟩ :=
    runTo_steps redis client htrue N
  generalize uwsgiLoop.steps N (uwsgiStart content redis client) = s at *
  have hthrown : s.thrown = true := by
    simpa [uwsgiLoop, hlog, htrue] using hexit
  have hlen : s.i = (pregMatchAll uwsgiRegex content).length := by
    have hlen := congrArg List.length hsent
    rw [hrequests] at hlen
    simpa using hlen
  refine (hstopped hthrown).2 fun m hm => ?_
  have hlt := (List.getElem?_eq_some_iff.mp hm).1
  omega

/-- **When the conversion ends.** The loop is left only if it is never
entered, that is, if PHP takes the text of the log for false. -/
theorem endsAfterRecords_iff (content : Bytes) (redis : Redis) (client : DocStore UwsgiBody) :
    EndsAfterRecords content redis client ↔ content = [] ∨ content = bytes "0" := by
  constructor
  · intro h
    by_contra hne
    exact not_endsAfterRecords (truthy_iff.mpr (not_or.mp hne)) h
  · rintro (rfl | rfl)
    · exact ⟨0, rfl, rfl⟩
    · have hnone : pregMatchAll uwsgiRegex (bytes "0") = [] := by decide
      exact ⟨0, rfl, by rw [hnone]; rfl⟩

/-- The front of a record of the sample log. -/
def oneRecord : Bytes :=
  bytes "\x7baddress space usage: 963051520 bytes/918MB\x7d "
    ++ bytes "\x7brss usage: 275955712 bytes/263MB\x7d [pid: 28120|app: 0|req: 53/871]\n"

theorem oneRecord_runs_on : ¬ EndsAfterRecords oneRecord (fun _ => none) .empty :=
  not_endsAfterRecords (by decide)

end Wahana
