import Wahana.NginxRun
import Wahana.NginxStaging

/-!
# Two concurrent runs of the nginx converter

Two runs talk to one Redis server and stage their records under the same
key. A run goes through four commands for each line, `SET json`,
`GET json`, `INDEX` and `DEL json`; a schedule says whose command is next.

On its own a run of this machine sends what the sequential loop sends
(`solo_sent`). Beside another run, each of its documents depends on one
window, from the `SET` of the line to the `GET` after it: as long as no
command of the other run writes the key in there, the document is the one
of the run's own line, whatever happened in the windows before
(`own_record_of_undisturbed`). The invariant ties the value under the key
to the phase of the run. Nothing in the converter enforces this, and one
`SET` or `DEL` in the window makes a run send the other's record or a
document without values (`records_exchanged`).
-/

namespace Wahana

/-! ## The machine -/

/-- The command a run executes next. -/
inductive Phase where
  | set
  | get
  | index
  | del
  deriving DecidableEq, Repr

/-- One run: the lines it has not finished, the reply to its last `GET`,
and the bodies it has sent. -/
structure ConvRun where
  todo : List Bytes
  phase : Phase
  user : Option Bytes
  sent : List NginxBody

def ConvRun.start (lines : List Bytes) : ConvRun := ⟨lines, .set, none, []⟩

def ConvRun.step (r : ConvRun) (redis : Redis) : ConvRun × Redis :=
  match r.todo with
  | [] => (r, redis)
  | line :: rest =>
      match r.phase with
      | .set => ({ r with phase := .get }, redis.set "json" (staged (parseLine line)))
      | .get => ({ r with phase := .index, user := redis.get "json" }, redis)
      | .index => ({ r with phase := .del, sent := r.sent ++ [bodyOf r.user] }, redis)
      | .del => ({ r with phase := .set, todo := rest }, redis.del "json")

inductive Client where
  | A
  | B
  deriving DecidableEq, Repr

structure Race where
  run : Client → ConvRun
  redis : Redis

namespace Race

def start (lines : Client → List Bytes) (redis : Redis) : Race :=
  ⟨fun c => .start (lines c), redis⟩

def step (s : Race) (c : Client) : Race :=
  ⟨Function.update s.run c ((s.run c).step s.redis).1, ((s.run c).step s.redis).2⟩

def exec (s : Race) (schedule : List Client) : Race := schedule.foldl step s

theorem run_step_self (s : Race) (c : Client) :
    (s.step c).run c = ((s.run c).step s.redis).1 := by
  simp [step]

theorem run_step_other (s : Race) {c d : Client} (h : c ≠ d) :
    (s.step d).run c = s.run c := by
  simp [step, h]

end Race

/-! ## A run on its own -/

/-- Four commands of one run, with no other in between, are one iteration
of the loop. -/
theorem exec_four {s : Race} {c : Client} {line : Bytes} {rest : List Bytes}
    (htodo : (s.run c).todo = line :: rest) (hphase : (s.run c).phase = .set) :
    ((s.exec [c, c, c, c]).run c).todo = rest ∧ ((s.exec [c, c, c, c]).run c).phase = .set
      ∧ ((s.exec [c, c, c, c]).run c).sent = (s.run c).sent ++ [(requestOf line).body] := by
  simp [Race.exec, Race.step, ConvRun.step, htodo, hphase, requestOf, nginxRequest]

theorem exec_solo {c : Client} : ∀ {lines : List Bytes} {s : Race}, (s.run c).todo = lines →
    (s.run c).phase = .set →
    ((s.exec (List.replicate (4 * lines.length) c)).run c).sent
      = (s.run c).sent ++ lines.map fun l => (requestOf l).body
  | [], s, _, _ => by simp [Race.exec]
  | line :: rest, s, htodo, hphase => by
      obtain ⟨htodo', hphase', hsent⟩ := exec_four htodo hphase
      have ih := exec_solo htodo' hphase'
      have hsplit : List.replicate (4 * (line :: rest).length) c
          = [c, c, c, c] ++ List.replicate (4 * rest.length) c := by
        rw [List.length_cons, Nat.mul_add, Nat.add_comm, List.replicate_add]
        rfl
      rw [hsplit, Race.exec, List.foldl_append]
      show ((Race.exec (s.exec [c, c, c, c]) _).run c).sent = _
      rw [ih, hsent]
      simp

/-- The machine is the converter: on the reads of a file, a run that is
left alone sends the bodies that the loop sends. -/
theorem solo_sent {content : Bytes} {redis : Redis} {client : DocStore NginxBody} {s' : NginxState}
    (h : nginxLoop.Exits (nginxStart content redis client) s') (c : Client)
    {lines : Client → List Bytes} (hlines : lines c = reads content) :
    (((Race.start lines redis).exec (List.replicate (4 * (reads content).length) c)).run c).sent
      = s'.sent.map fun r => r.body := by
  rw [exec_solo (s := Race.start lines redis) (c := c) hlines rfl, exits_sent h]
  simp [Race.start, ConvRun.start]

/-! ## Two runs -/

/-- The next command of the run changes the shared key. -/
def ConvRun.writes (r : ConvRun) : Bool :=
  !r.todo.isEmpty && (r.phase == .set || r.phase == .del)

/-- Between its `j`-th `SET` and the `GET` after it: a run sends one body
for each line, so it has sent `j` of them. -/
def ConvRun.waitsFor (r : ConvRun) (j : Nat) : Bool := r.phase == .get && r.sent.length == j

/-- Along the schedule, no command of the other run writes the key while
`c` waits for its `j`-th `GET`. -/
def Undisturbed (c : Client) (j : Nat) : Race → List Client → Prop
  | _, [] => True
  | s, d :: schedule =>
      (d ≠ c → (s.run d).writes = true → (s.run c).waitsFor j = false)
        ∧ Undisturbed c j (s.step d) schedule

instance decidableUndisturbed (c : Client) (j : Nat) :
    (s : Race) → (schedule : List Client) → Decidable (Undisturbed c j s schedule)
  | _, [] => isTrue trivial
  | s, d :: schedule =>
      have := decidableUndisturbed c j (s.step d) schedule
      inferInstanceAs (Decidable ((d ≠ c → (s.run d).writes = true →
        (s.run c).waitsFor j = false) ∧ Undisturbed c j (s.step d) schedule))

theorem redis_step_of_not_writes {r : ConvRun} (h : r.writes = false) (redis : Redis) :
    (r.step redis).2 = redis := by
  obtain ⟨todo, phase, user, sent⟩ := r
  cases todo with
  | nil => rfl
  | cons line rest => cases phase <;> simp [ConvRun.writes] at h <;> rfl

/-- The lines of the run and the bodies it has sent go in step: between
`INDEX` and `DEL` a line has its body and is not finished. -/
def InStep (lines : List Bytes) (r : ConvRun) : Prop :=
  match r.phase with
  | .del => ∃ line, r.todo = line :: lines.drop r.sent.length
  | _ => r.todo = lines.drop r.sent.length

/-- In the `j`-th window the text of the current line is what the key, and
then the run's own variable, holds. -/
def HoldsLine (j : Nat) (r : ConvRun) (redis : Redis) : Prop :=
  match r.phase with
  | .get => r.sent.length = j → ∀ line ∈ r.todo.head?,
      redis.get "json" = some (staged (parseLine line))
  | .index => r.sent.length = j → ∀ line ∈ r.todo.head?,
      r.user = some (staged (parseLine line))
  | _ => True

/-- What holds of a run whose `j`-th window is not disturbed. -/
structure Tracks (lines : List Bytes) (j : Nat) (r : ConvRun) (redis : Redis) : Prop where
  inStep : InStep lines r
  holds : HoldsLine j r redis
  own : ∀ b, r.sent[j]? = some b → ∃ l, lines[j]? = some l ∧ b = (parseLine l).toBody

theorem tracks_start (lines : List Bytes) (j : Nat) (redis : Redis) :
    Tracks lines j (.start lines) redis where
  inStep := rfl
  holds := trivial
  own := by simp [ConvRun.start]

/-- The body of the current line takes the next place. -/
theorem own_append {lines : List Bytes} {j : Nat} {sent : List NginxBody} {b : NginxBody}
    (hsent : ∀ b', sent[j]? = some b' → ∃ l, lines[j]? = some l ∧ b' = (parseLine l).toBody)
    (hb : sent.length = j → ∃ l, lines[j]? = some l ∧ b = (parseLine l).toBody) :
    ∀ b', (sent ++ [b])[j]? = some b' → ∃ l, lines[j]? = some l ∧ b' = (parseLine l).toBody := by
  intro b' hb'
  rcases Nat.lt_trichotomy j sent.length with hlt | heq | hgt
  · rw [List.getElem?_append_left hlt] at hb'
    exact hsent b' hb'
  · have hlast : (sent ++ [b])[j]? = some b := by
      rw [heq]
      exact List.getElem?_concat_length
    rw [← Option.some.inj (hlast.symm.trans hb')]
    exact hb heq.symm
  · rw [List.getElem?_eq_none (by simp; omega)] at hb'
    cases hb'

theorem Tracks.step {lines : List Bytes} {j : Nat} {r : ConvRun} {redis : Redis}
    (hvalid : ∀ l ∈ lines, ValidUtf8 l) (h : Tracks lines j r redis) :
    Tracks lines j (r.step redis).1 (r.step redis).2 := by
  obtain ⟨todo, phase, user, sent⟩ := r
  cases todo with
  | nil => exact h
  | cons line rest =>
      obtain ⟨hin, hholds, hown⟩ := h
      cases phase with
      | set =>
          refine ⟨hin, fun _ l hl => ?_, hown⟩
          obtain rfl : line = l := by simpa [ConvRun.step] using hl
          exact Redis.get_set ..
      | get => exact ⟨hin, hholds, hown⟩
      | index =>
          have hdrop : line :: rest = lines.drop sent.length := hin
          have hline : lines[sent.length]? = some line := by
            rw [← List.head?_drop, ← hdrop]
            rfl
          refine ⟨⟨line, ?_⟩, trivial, own_append hown fun hj => ?_⟩
          · show line :: rest = line :: lines.drop (sent ++ [bodyOf user]).length
            rw [List.length_append, ← List.drop_drop, ← hdrop]
            rfl
          · have huser : user = some (staged (parseLine line)) := hholds hj line rfl
            rw [hj] at hline
            refine ⟨line, hline, ?_⟩
            rw [huser, bodyOf_staged_parseLine (hvalid line (List.mem_of_getElem? hline))]
      | del =>
          obtain ⟨l, hl⟩ := hin
          exact ⟨(List.cons.inj hl).2, trivial, hown⟩

/-- What the other run does to the key does not matter outside the window. -/
theorem Tracks.frame {lines : List Bytes} {j : Nat} {r : ConvRun} {redis redis' : Redis}
    (h : Tracks lines j r redis) (hkey : r.waitsFor j = true → redis' = redis) :
    Tracks lines j r redis' := by
  obtain ⟨todo, phase, user, sent⟩ := r
  obtain ⟨hin, hholds, hown⟩ := h
  refine ⟨hin, ?_, hown⟩
  cases phase with
  | get =>
      intro hj line hline
      rw [hkey (by simpa [ConvRun.waitsFor] using hj)]
      exact hholds hj line hline
  | set | index | del => exact hholds

theorem Tracks.exec {c : Client} {j : Nat} {lines : List Bytes}
    (hvalid : ∀ l ∈ lines, ValidUtf8 l) :
    ∀ {schedule : List Client} {s : Race}, Tracks lines j (s.run c) s.redis →
      Undisturbed c j s schedule →
      Tracks lines j ((s.exec schedule).run c) (s.exec schedule).redis
  | [], s, h, _ => h
  | d :: schedule, s, h, hclear => by
      obtain ⟨hstep, hclear⟩ := hclear
      refine Tracks.exec hvalid (s := s.step d) ?_ hclear
      by_cases hd : d = c
      · subst hd
        rw [Race.run_step_self]
        exact h.step hvalid
      · rw [Race.run_step_other s (Ne.symm hd)]
        refine h.frame fun hwaits => redis_step_of_not_writes ?_ s.redis
        by_contra hw
        have hfree := hstep hd (by simpa using hw)
        rw [hwaits] at hfree
        cases hfree

theorem tracks_of_undisturbed (lines : Client → List Bytes) (redis : Redis)
    {schedule : List Client} {c : Client} (hvalid : ∀ l ∈ lines c, ValidUtf8 l) {j : Nat}
    (hclear : Undisturbed c j (Race.start lines redis) schedule) :
    Tracks (lines c) j (((Race.start lines redis).exec schedule).run c)
      ((Race.start lines redis).exec schedule).redis := by
  have hstart : Tracks (lines c) j ((Race.start lines redis).run c) redis :=
    tracks_start (lines c) j redis
  exact hstart.exec hvalid hclear

/-- A run that is disturbed in none of its windows sends its own records,
in order. -/
theorem own_records_in_order (lines : Client → List Bytes) (redis : Redis)
    {schedule : List Client} {c : Client} (hvalid : ∀ l ∈ lines c, ValidUtf8 l)
    (hclear : ∀ j, Undisturbed c j (Race.start lines redis) schedule) :
    (((Race.start lines redis).exec schedule).run c).sent
      <+: (lines c).map fun l => (parseLine l).toBody := by
  rw [List.prefix_iff_getElem?]
  intro j hj
  obtain ⟨l, hl, hb⟩ := (tracks_of_undisturbed lines redis hvalid (hclear j)).own _
    (List.getElem?_eq_getElem hj)
  rw [List.getElem?_map, hl, hb]
  rfl

/-- **When a run sends its own record.** Whatever the interleaving and
whatever happened before, if no `SET` or `DEL` of the other run falls
between the `j`-th `SET` of run `c` and the `GET` after it, the `j`-th body
that `c` sends has the eleven fields of its own `j`-th line. -/
theorem own_record_of_undisturbed (lines : Client → List Bytes) (redis : Redis)
    (hvalid : ∀ c, ∀ l ∈ lines c, ValidUtf8 l) (schedule : List Client) (c : Client) (j : Nat)
    (hclear : Undisturbed c j (Race.start lines redis) schedule) (b : NginxBody)
    (hb : (((Race.start lines redis).exec schedule).run c).sent[j]? = some b) :
    ∃ l, (lines c)[j]? = some l ∧ b = (parseLine l).toBody :=
  (tracks_of_undisturbed lines redis (hvalid c) hclear).own b hb

/-- Two files of one line each. -/
def oneLineEach : Client → List Bytes
  | .A => [bytes "1.1.1.1 - - [1/Aug +7] \"GET /a H\" 200 10 \"-\" rt=1 u=1 h=1 r=1 g=1\n"]
  | .B => [bytes "2.2.2.2 - - [2/Aug +7] \"GET /b H\" 404 20 \"-\" rt=2 u=2 h=2 r=2 g=2\n"]

/-- The files of `oneLineEach`, with a second line for `A`. -/
def twoLinesAndOne : Client → List Bytes
  | .A => oneLineEach .A ++
      [bytes "3.3.3.3 - - [1/Aug +7] \"GET /c H\" 200 30 \"-\" rt=3 u=3 h=3 r=3 g=3\n"]
  | .B => oneLineEach .B

theorem twoLinesAndOne_valid : ∀ c, ∀ l ∈ twoLinesAndOne c, ValidUtf8 l := by
  have hvalid : ∀ c, ∀ l ∈ twoLinesAndOne c, (utf8Decode l).isSome = true := by
    intro c
    cases c with
    | A => decide +kernel
    | B => decide +kernel
  exact fun c l hl => validUtf8_iff.mpr (hvalid c l hl)

/-- `B` stages its record in the first window of `A` and reads it back in
front of the second, which it leaves alone. -/
theorem own_record_after_disturbance :
    ¬ Undisturbed .A 0 (Race.start twoLinesAndOne fun _ => none)
        [.A, .B, .A, .A, .A, .B, .A, .B, .A, .A, .B]
    ∧ Undisturbed .A 1 (Race.start twoLinesAndOne fun _ => none)
        [.A, .B, .A, .A, .A, .B, .A, .B, .A, .A, .B]
    ∧ ∃ l, (twoLinesAndOne .A)[1]? = some l
      ∧ bodyOf (some (staged (parseLine ((twoLinesAndOne .A).getLastD []))))
        = (parseLine l).toBody := by
  have hclear : Undisturbed .A 1 (Race.start twoLinesAndOne fun _ => none)
      [.A, .B, .A, .A, .A, .B, .A, .B, .A, .A, .B] := by
    decide
  exact ⟨by decide, hclear, own_record_of_undisturbed twoLinesAndOne (fun _ => none)
    twoLinesAndOne_valid _ .A 1 hclear _ rfl⟩

theorem oneLineEach_valid : ∀ c, ∀ l ∈ oneLineEach c, ValidUtf8 l := by
  intro c l hl
  cases c with
  | A => exact twoLinesAndOne_valid .A l (List.mem_append_left _ hl)
  | B => exact twoLinesAndOne_valid .B l hl

/-- **Records are exchanged and lost.** `B` stages its record between the
`SET` and the `GET` of `A`, and `A` sends it as its own; or `B` deletes the
key there, and `A` sends a document without values. -/
theorem records_exchanged : (∀ c, ∀ l ∈ oneLineEach c, ValidUtf8 l)
    ∧ (((Race.start oneLineEach fun _ => none).exec [.A, .B, .A, .A]).run .A).sent
      = ((oneLineEach .B).map fun l => (parseLine l).toBody)
    ∧ (((Race.start oneLineEach fun _ => none).exec [.B, .B, .B, .A, .B, .A, .A]).run .A).sent
      = [bodyOf none]
    ∧ ¬ ∀ (schedule : List Client) (c : Client) (j : Nat) (b : NginxBody),
      (((Race.start oneLineEach fun _ => none).exec schedule).run c).sent[j]? = some b →
        ∃ l, (oneLineEach c)[j]? = some l ∧ b = (parseLine l).toBody := by
  have hB := bodyOf_staged_parseLine (oneLineEach_valid .B _ (List.mem_singleton.mpr rfl))
  have hsent : (((Race.start oneLineEach fun _ => none).exec [.A, .B, .A, .A]).run .A).sent
      = ((oneLineEach .B).map fun l => (parseLine l).toBody) :=
    congrArg (fun b => [b]) hB
  refine ⟨oneLineEach_valid, hsent, rfl, fun hall => ?_⟩
  obtain ⟨l, hl, hb⟩ := hall [.A, .B, .A, .A] .A 0 _ (by rw [hsent]; rfl)
  have hl' : (oneLineEach .A).headD [] = l := by
    simpa [oneLineEach] using hl
  rw [← hl'] at hb
  exact absurd hb (by decide +kernel)

end Wahana
