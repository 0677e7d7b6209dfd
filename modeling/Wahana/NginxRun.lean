import Wahana.ConvertNginx

/-!
# Runs of the nginx converter

The whole run of the loop, on an arbitrary file. `nginxLoop_exits` says
that it ends and which requests it has sent by then: one for every line
and, since `feof` lags behind, one more for the end of a file that is
empty or ends in a line feed.

Both results about runs are read off this list. All requests name the
same document, so the index keeps all bodies only if there is one request
(`keepsAll_iff`); and the requests are the records of the file only if
there is no read at the end and every line is matched
(`sendsRecords_iff`).
-/

namespace Wahana

/-! ## Lines of a file -/

/-- The lines of a file, each with its line feed. -/
def lines : Bytes → List Bytes
  | [] => []
  | b :: s =>
      if b = ch '\n' then [b] :: lines s
      else
        match lines s with
        | [] => [[b]]
        | l :: ls => (b :: l) :: ls

/-- No byte follows the last line feed. -/
def Ended (s : Bytes) : Prop := ∀ b ∈ s.getLast?, b = ch '\n'

instance (s : Bytes) : Decidable (Ended s) :=
  inferInstanceAs (Decidable (∀ b ∈ s.getLast?, b = ch '\n'))

/-- What successive reads return until the end-of-file flag is set. -/
def reads (s : Bytes) : List Bytes := lines s ++ if Ended s then [[]] else []

theorem line_induction {P : Bytes → Prop} (last : ∀ l, ch '\n' ∉ l → P l)
    (line : ∀ l s, ch '\n' ∉ l → P s → P (l ++ ch '\n' :: s)) (s : Bytes) : P s := by
  have hgen : ∀ l, ch '\n' ∉ l → P (l ++ s) := by
    induction s with
    | nil =>
        intro l hl
        rw [List.append_nil]
        exact last l hl
    | cons b s ih =>
        intro l hl
        by_cases hb : b = ch '\n'
        · rw [hb]
          exact line l s hl (ih [] (by simp))
        · have hlb : ch '\n' ∉ l ++ [b] := by simp [hl, Ne.symm hb]
          simpa using ih (l ++ [b]) hlb
  exact hgen [] (by simp)

theorem fgets_line {l : Bytes} (hl : ch '\n' ∉ l) (s : Bytes) :
    fgets ⟨l ++ ch '\n' :: s, false⟩ = (some (l ++ [ch '\n']), ⟨s, false⟩) := by
  have htake := takeLine_line hl s
  cases l with
  | nil => simp [fgets, takeLine]
  | cons b l =>
      rw [List.cons_append] at htake
      simp [fgets, htake]

theorem fgets_last {l : Bytes} (hl : ch '\n' ∉ l) :
    (fgets ⟨l, false⟩).1.getD [] = l ∧ (fgets ⟨l, false⟩).2 = ⟨[], true⟩ := by
  have htake := takeLine_last hl
  cases l with
  | nil => exact ⟨rfl, rfl⟩
  | cons b l => simp [fgets, htake]

theorem lines_line {l : Bytes} (hl : ch '\n' ∉ l) (s : Bytes) :
    lines (l ++ ch '\n' :: s) = (l ++ [ch '\n']) :: lines s := by
  induction l with
  | nil => simp [lines]
  | cons b l ih =>
      simp only [List.mem_cons, not_or] at hl
      simp [lines, Ne.symm hl.1, ih hl.2]

theorem lines_last {l : Bytes} (hl : ch '\n' ∉ l) : lines l = if l = [] then [] else [l] := by
  induction l with
  | nil => rfl
  | cons b l ih =>
      simp only [List.mem_cons, not_or] at hl
      rw [lines, if_neg (Ne.symm hl.1), ih hl.2]
      cases l <;> simp

theorem ended_line {l s : Bytes} : Ended (l ++ ch '\n' :: s) ↔ Ended s := by
  cases s with
  | nil => simp [Ended]
  | cons b s => simp [Ended, List.getLast?_append]

theorem ended_last {l : Bytes} (hl : ch '\n' ∉ l) : Ended l ↔ l = [] := by
  constructor
  · intro h
    by_contra hne
    have hmem := List.getLast_mem hne
    have hlast := h _ (List.getLast?_eq_some_getLast hne)
    exact hl (hlast ▸ hmem)
  · rintro rfl
    simp [Ended]

theorem reads_line {l : Bytes} (hl : ch '\n' ∉ l) (s : Bytes) :
    reads (l ++ ch '\n' :: s) = (l ++ [ch '\n']) :: reads s := by
  simp only [reads, lines_line hl, ended_line, List.cons_append]

theorem reads_last {l : Bytes} (hl : ch '\n' ∉ l) : reads l = [l] := by
  by_cases h : l = []
  · subst h
    decide
  · simp [reads, lines_last hl, ended_last hl, h]

theorem length_reads (s : Bytes) : (reads s).length = s.count (ch '\n') + 1 := by
  induction s using line_induction with
  | last l hl => simp [reads_last hl, List.count_eq_zero.mpr hl]
  | line l s hl ih =>
      rw [reads_line hl, List.length_cons, ih, List.count_append, List.count_cons_self,
        List.count_eq_zero.mpr hl]
      omega

/-! ## The run -/

/-- The request that one iteration issues for a line. -/
def requestOf (line : Bytes) : IndexRequest NginxBody :=
  nginxRequest (bodyOf (some (staged (parseLine line))))

theorem nginxBody_sent (s : NginxState) :
    (nginxBody s).sent = s.sent ++ [requestOf ((fgets s.fn).1.getD [])] := by
  simp [nginxBody, requestOf]

theorem nginxBody_client (s : NginxState) :
    (nginxBody s).client = s.client.index (requestOf ((fgets s.fn).1.getD [])) := by
  simp [nginxBody, requestOf]

theorem nginxBody_fn (s : NginxState) : (nginxBody s).fn = (fgets s.fn).2 := rfl

/-- The loop ends, and it has sent one request for each read. -/
theorem nginxLoop_exits {content : Bytes} : ∀ {s : NginxState}, s.fn = ⟨content, false⟩ →
    ∃ s', nginxLoop.Exits s s' ∧ s'.sent = s.sent ++ (reads content).map requestOf := by
  induction content using line_induction with
  | last l hl =>
      intro s hs
      have hcond : nginxLoop.cond s = true := by simp [nginxLoop, hs, feof]
      obtain ⟨hline, heof⟩ := fgets_last hl
      rw [← hs] at hline heof
      refine ⟨nginxBody s, .body hcond (.done ?_), ?_⟩
      · show (!feof (nginxBody s).fn) = false
        rw [nginxBody_fn, heof]
        rfl
      · rw [nginxBody_sent, hline, reads_last hl]
        rfl
  | line l t hl ih =>
      intro s hs
      have hcond : nginxLoop.cond s = true := by simp [nginxLoop, hs, feof]
      have hread := fgets_line hl t
      rw [← hs] at hread
      obtain ⟨s', hexits, hsent⟩ := ih (s := nginxBody s) (by rw [nginxBody_fn, hread])
      refine ⟨s', .body hcond hexits, ?_⟩
      rw [hsent, nginxBody_sent, hread, reads_line hl]
      simp

theorem exits_sent {content : Bytes} {redis : Redis} {client : DocStore NginxBody}
    {s' : NginxState} (h : nginxLoop.Exits (nginxStart content redis client) s') :
    s'.sent = (reads content).map requestOf := by
  obtain ⟨s₁, hexits, hsent⟩ := nginxLoop_exits (s := nginxStart content redis client) rfl
  rw [h.unique hexits, hsent]
  rfl

/-! ## What the index holds -/

/-- The documents of the index are the bodies sent so far. -/
def KeepsAll (s : NginxState) : Prop :=
  s.client.bodies "tester" = (s.sent.map fun r => r.body : List NginxBody)

/-- The store is the result of the requests, and they all name one
document. -/
def SentFrom (client : DocStore NginxBody) (s : NginxState) : Prop :=
  s.client = s.sent.foldl DocStore.index client
    ∧ ∀ r ∈ s.sent, r.index = "tester" ∧ r.type = "log_nginx" ∧ r.id = some 3

theorem sentFrom_steps (content : Bytes) (redis : Redis) (client : DocStore NginxBody) (n : Nat) :
    SentFrom client (nginxLoop.steps n (nginxStart content redis client)) := by
  refine Loop.steps_inv ⟨rfl, by simp [nginxStart]⟩ ?_ n
  rintro s ⟨hclient, hsent⟩ -
  show SentFrom client (nginxBody s)
  rw [SentFrom, nginxBody_client, nginxBody_sent, List.foldl_append, ← hclient]
  refine ⟨rfl, List.forall_mem_append.mpr ⟨hsent, ?_⟩⟩
  simp [requestOf, nginxRequest]

theorem SentFrom.keepsAll_iff_length {client : DocStore NginxBody} {s : NginxState}
    (h : SentFrom client s) (hempty : client.bodies "tester" = 0) :
    KeepsAll s ↔ s.sent.length ≤ 1 := by
  obtain ⟨hclient, hsent⟩ := h
  have honly : client.OnlyAt ⟨"tester", "log_nginx", .given 3⟩ :=
    DocStore.onlyAt_of_bodies_eq_zero hempty
  rw [KeepsAll, hclient]
  rcases List.eq_nil_or_concat s.sent with hnil | ⟨rs, r, hconcat⟩
  · simp [hnil, hempty]
  · rw [hconcat, List.concat_eq_append] at hsent ⊢
    obtain ⟨hrs, hr⟩ := List.forall_mem_append.mp hsent
    obtain ⟨hix, hty, hid⟩ := hr r (by simp)
    have hone := DocStore.bodies_index_given (c := rs.foldl DocStore.index client) (r := r)
      (by rw [hix, hty]; exact DocStore.OnlyAt.foldl (k := ⟨"tester", "log_nginx", .given 3⟩) honly hrs)
      hid
    rw [hix] at hone
    rw [List.foldl_append, List.foldl_cons, List.foldl_nil, hone]
    constructor
    · intro heq
      have hcard := congrArg Multiset.card heq
      simp at hcard
      simp [hcard]
    · intro hlen
      have hrs' : rs = [] := List.eq_nil_of_length_eq_zero (by simpa using hlen)
      simp [hrs']

theorem keepsAll_steps_iff {client : DocStore NginxBody} (content : Bytes) (redis : Redis)
    (hempty : client.bodies "tester" = 0) (n : Nat) :
    KeepsAll (nginxLoop.steps n (nginxStart content redis client))
      ↔ (nginxLoop.steps n (nginxStart content redis client)).sent.length ≤ 1 :=
  (sentFrom_steps content redis client n).keepsAll_iff_length hempty

theorem keepsAll_exits_iff {content : Bytes} {redis : Redis} {client : DocStore NginxBody}
    (hempty : client.bodies "tester" = 0) {s' : NginxState}
    (h : nginxLoop.Exits (nginxStart content redis client) s') :
    KeepsAll s' ↔ ch '\n' ∉ content := by
  have hsent := exits_sent h
  obtain ⟨n, rfl, -⟩ := h
  rw [keepsAll_steps_iff content redis hempty n, hsent, List.length_map, length_reads,
    ← List.count_eq_zero]
  omega

/-- A file without a line feed is read in one iteration. -/
theorem steps_sent_le_one {content : Bytes} (h : ch '\n' ∉ content) (redis : Redis)
    (client : DocStore NginxBody) :
    ∀ n, (nginxLoop.steps n (nginxStart content redis client)).sent.length ≤ 1
  | 0 => by simp [Loop.steps_zero, nginxStart]
  | n + 1 => by
      have hdone : nginxLoop.cond (nginxBody (nginxStart content redis client)) = false := by
        show (!feof (fgets ⟨content, false⟩).2) = false
        rw [(fgets_last h).2]
        rfl
      rw [Loop.steps_succ, Loop.step_of_cond rfl]
      show (nginxLoop.steps n (nginxBody (nginxStart content redis client))).sent.length ≤ 1
      rw [Loop.steps_of_not_cond hdone, nginxBody_sent]
      simp [nginxStart]

/-- **When no record is overwritten.** Every request names the document
with id 3, so at the end of the run, and in every state on the way, the
index holds the bodies sent so far exactly when the file has no line
feed: then there is one request. -/
theorem keepsAll_iff (content : Bytes) (redis : Redis) (client : DocStore NginxBody)
    (hempty : client.bodies "tester" = 0) :
    ((∃ s', nginxLoop.Exits (nginxStart content redis client) s' ∧ KeepsAll s')
        ↔ ch '\n' ∉ content)
      ∧ ((∀ n, KeepsAll (nginxLoop.steps n (nginxStart content redis client)))
        ↔ ch '\n' ∉ content) := by
  obtain ⟨s₁, hexits, -⟩ := nginxLoop_exits (s := nginxStart content redis client) rfl
  constructor
  · constructor
    · rintro ⟨s', hs', hkeeps⟩
      exact (keepsAll_exits_iff hempty hs').mp hkeeps
    · intro h
      exact ⟨s₁, hexits, (keepsAll_exits_iff hempty hexits).mpr h⟩
  · constructor
    · intro hall
      have hlast := keepsAll_exits_iff hempty hexits
      obtain ⟨n, rfl, -⟩ := hexits
      exact hlast.mp (hall n)
    · intro h n
      exact (keepsAll_steps_iff content redis hempty n).mpr (steps_sent_le_one h redis client n)

/-- Two records like those of the sample log. -/
def firstRecord : Bytes :=
  bytes "182.0.142.13 - - [04/Aug/2021:13:33:41 +0700] \"GET /a/3pl/csn/cur/WAX23561 HTTP/1.1\" "
    ++ bytes "200 6559 \"https://drp.ds1.pideltaro.com/app/dcaf/\" "
    ++ bytes "rt=0.772 uct=\"0.000\" uht=\"0.766\" urt=\"0.772\" gz=\"6.89\"\n"

def secondRecord : Bytes :=
  bytes "114.124.231.57 - - [04/Aug/2021:13:33:41 +0700] \"GET /a/3pl/dash/kpi HTTP/1.1\" "
    ++ bytes "200 162 \"https://drp.ds1.pideltaro.com/app/dcaf/\" "
    ++ bytes "rt=0.357 uct=\"0.000\" uht=\"0.357\" urt=\"0.358\" gz=\"1.59\""

/-- A store with documents of another index. -/
def otherIndex : DocStore NginxBody :=
  (DocStore.empty.index ⟨"nginx", "log_nginx", none, (requestOf firstRecord).body⟩).index
    ⟨"nginx", "log_nginx", some 3, (requestOf secondRecord).body⟩

theorem keepsAll_one_line : pregMatchAll accessLog secondRecord ≠ [] ∧
    (∃ s', nginxLoop.Exits (nginxStart secondRecord (fun _ => none) otherIndex) s' ∧ KeepsAll s') ∧
    ∀ n, KeepsAll (nginxLoop.steps n (nginxStart secondRecord (fun _ => none) otherIndex)) := by
  have h := keepsAll_iff secondRecord (fun _ => none) otherIndex rfl
  exact ⟨by decide +kernel, h.1.mpr (by decide +kernel), h.2.mpr (by decide +kernel)⟩

def twoRecords : Bytes := firstRecord ++ secondRecord

theorem twoRecords_overwritten :
    (DocStore.empty : DocStore NginxBody).bodies "tester" = 0 ∧
    ¬ ∃ s', nginxLoop.Exits (nginxStart twoRecords (fun _ => none) .empty) s' ∧ KeepsAll s' := by
  refine ⟨rfl, ?_⟩
  rintro ⟨s', hs', hkeeps⟩
  have hno := (keepsAll_exits_iff rfl hs').mp hkeeps
  exact absurd hno (by decide +kernel)

/-! ## Which requests are sent -/

def matchesLine (line : Bytes) : Bool := !(pregMatchAll accessLog line).isEmpty

/-- The run ends having sent one request for each line that the pattern
matches, in order, and no other. -/
def SendsRecords (content : Bytes) (redis : Redis) (client : DocStore NginxBody) : Prop :=
  ∃ s', nginxLoop.Exits (nginxStart content redis client) s'
    ∧ s'.sent = ((lines content).filter matchesLine).map requestOf

theorem length_lines_le (s : Bytes) : (lines s).length ≤ (reads s).length := by
  simp [reads]

/-- **When the requests are the records of the file.** A line that is not
matched, and the read at the end of a file that is empty or ends in a line
feed, are indexed all the same. -/
theorem sendsRecords_iff (content : Bytes) (redis : Redis) (client : DocStore NginxBody) :
    SendsRecords content redis client
      ↔ ¬ Ended content ∧ ∀ l ∈ lines content, matchesLine l = true := by
  constructor
  · rintro ⟨s', hs', hsent⟩
    rw [exits_sent hs'] at hsent
    -- comparing lengths: no line is dropped by the filter, and there is no further read
    have hlen : (reads content).length = ((lines content).filter matchesLine).length := by
      simpa using congrArg List.length hsent
    have hle := List.length_filter_le matchesLine (lines content)
    have hle' := length_lines_le content
    refine ⟨?_, ?_⟩
    · intro hended
      have : (reads content).length = (lines content).length + 1 := by simp [reads, hended]
      omega
    · exact List.length_filter_eq_length_iff.mp (by omega)
  · rintro ⟨hended, hall⟩
    obtain ⟨s', hs', -⟩ := nginxLoop_exits (s := nginxStart content redis client) rfl
    refine ⟨s', hs', ?_⟩
    rw [exits_sent hs', List.filter_eq_self.mpr hall, reads, if_neg hended, List.append_nil]

/-- A well-formed file, ending in a line feed: both records are matched,
and a third request, with eleven empty fields, is sent. -/
theorem twoRecords_newline_extra_request :
    ¬ SendsRecords (twoRecords ++ [ch '\n']) (fun _ => none) .empty := by
  rintro ⟨s', hs', hsent⟩
  rw [exits_sent hs'] at hsent
  have hlen := congrArg List.length hsent
  rw [List.length_map, List.length_map] at hlen
  exact absurd hlen (by decide +kernel)

end Wahana
