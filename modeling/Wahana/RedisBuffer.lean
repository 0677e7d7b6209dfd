import Wahana.RedisReader

/-!
# Redis: the query buffer is a plain reader

Processing the query buffer, with its position, its trimming and the short
cut for large arguments, has the effect of draining the plain reader
(`processInputBuffer_drain`). So what a client's bytes do to the server does
not depend on how they were cut into reads (`fragmentation_independent`), as
long as no read leaves a line of more than 64 KiB unfinished.
-/

namespace Wahana

variable {σ : Type} {exec : σ → List Bytes → σ × Outcome} {s : σ}

/-! ## Draining one step -/

theorem readAct_nil (reqtype : ReqType) (c : RedisConn) : readAct exec reqtype s c [] = .wait := by
  cases reqtype with
  | inline => rfl
  | multibulk =>
      rw [readAct]
      split
      · rfl
      · split
        · rfl
        · rw [readArgument, if_pos (by simp)]

section

variable {reqtype : ReqType} {c : RedisConn} {rest : Bytes}

theorem drain_of_wait (htype : c.reqtype = some reqtype) (hopen : c.closed = false)
    (h : readAct exec reqtype s c rest = .wait) :
    (redisReader exec).drain (s, c) rest = ((s, c), rest) := by
  apply Reader.drain_of_none
  by_cases hrest : rest = []
  · exact if_pos (Or.inl hrest)
  · show redisNext exec (s, c) rest = none
    rw [redisNext_of_type exec htype hrest hopen, h]
    rfl

theorem drain_of_fail {e : ProtocolError} (htype : c.reqtype = some reqtype)
    (hopen : c.closed = false) (h : readAct exec reqtype s c rest = .fail e) :
    (redisReader exec).drain (s, c) rest = ((s, c.setProtocolError e), rest) := by
  have hrest : rest ≠ [] := by
    rintro rfl
    rw [readAct_nil] at h
    cases h
  have hnext : (redisReader exec).next (s, c) rest = some ((s, c.setProtocolError e), rest) := by
    show redisNext exec (s, c) rest = _
    rw [redisNext_of_type exec htype hrest hopen, h]
    rfl
  rw [Reader.drain_of_some hnext]
  exact Reader.drain_of_none (if_pos (Or.inr (closed_setProtocolError e)))

theorem drain_of_take {n : Nat} {sc : σ × RedisConn} (htype : c.reqtype = some reqtype)
    (hopen : c.closed = false) (h : readAct exec reqtype s c rest = .take n sc) :
    (redisReader exec).drain (s, c) rest = (redisReader exec).drain sc (rest.drop n) := by
  have hrest : rest ≠ [] := by
    rintro rfl
    rw [readAct_nil] at h
    cases h
  apply Reader.drain_of_some
  show redisNext exec (s, c) rest = _
  rw [redisNext_of_type exec htype hrest hopen, h]
  rfl

end

/-! ## The buffer -/

namespace RedisClient

theorem length_rest (c : RedisClient) : c.rest.length = c.querybuf.length - c.qbPos := by
  rw [rest, List.length_drop]

variable (exec s) in
/-- What the parsing of a request is for the plain reader: `C_OK` comes with
a whole request, and with fewer bytes left; anything else ends the drain. -/
structure Parsed (c : RedisClient) (r : Bool × RedisClient) : Prop where
  stop : r.1 = false → (redisReader exec).drain (s, c.toRedisConn) c.rest
    = ((s, r.2.toRedisConn), r.2.rest)
  go : r.1 = true → (redisReader exec).drain (s, c.toRedisConn) c.rest
      = (redisReader exec).drain (requestRead exec s r.2.toRedisConn) r.2.rest
    ∧ r.2.rest.length < c.rest.length

theorem Parsed.of_wait {c : RedisClient} {reqtype : ReqType} (htype : c.reqtype = some reqtype)
    (hopen : c.closed = false) (h : readAct exec reqtype s c.toRedisConn c.rest = .wait) :
    Parsed exec s c (false, c) where
  stop _ := drain_of_wait htype hopen h
  go h := by cases h

theorem Parsed.of_fail {c : RedisClient} {reqtype : ReqType} {e : ProtocolError}
    (htype : c.reqtype = some reqtype) (hopen : c.closed = false)
    (h : readAct exec reqtype s c.toRedisConn c.rest = .fail e) :
    Parsed exec s c (false, c.fail e) where
  stop _ := drain_of_fail htype hopen h
  go h := by cases h

theorem Parsed.of_go {c c' : RedisClient}
    (hdrain : (redisReader exec).drain (s, c.toRedisConn) c.rest
      = (redisReader exec).drain (requestRead exec s c'.toRedisConn) c'.rest)
    (hlt : c'.rest.length < c.rest.length) : Parsed exec s c (true, c') where
  stop h := by cases h
  go _ := ⟨hdrain, hlt⟩

/-- Parsing may begin with a step of the reader. -/
theorem Parsed.of_drain_eq {c c' : RedisClient} {r : Bool × RedisClient}
    (hdrain : (redisReader exec).drain (s, c.toRedisConn) c.rest
      = (redisReader exec).drain (s, c'.toRedisConn) c'.rest)
    (hle : c'.rest.length ≤ c.rest.length) (h : Parsed exec s c' r) : Parsed exec s c r where
  stop hr := by rw [hdrain, h.stop hr]
  go hr := ⟨by rw [hdrain, (h.go hr).1], by have := (h.go hr).2; omega⟩

theorem takeArgument_conn (c : RedisClient) {bulklen : Nat} :
    (c.takeArgument bulklen).toRedisConn = c.toRedisConn.addArgument (c.rest.take bulklen) := by
  rw [takeArgument]
  split
  · rename_i hbig
    simp [RedisConn.addArgument, rest, hbig]
  · rfl

theorem takeArgument_rest (c : RedisClient) {bulklen : Nat} :
    (c.takeArgument bulklen).rest = c.rest.drop (bulklen + 2) := by
  rw [takeArgument]
  split
  · rename_i hbig
    simp [rest, hbig]
  · simp [rest]

theorem rest_advance (c : RedisClient) (n : Nat) :
    ({ c with qbPos := c.qbPos + n } : RedisClient).rest = c.rest.drop n := by
  simp [rest]

/-- Moving the bytes that are left to the front of the buffer. -/
theorem makeRoomFor_rest (bulklen : Nat) (c : RedisClient) :
    (c.makeRoomFor bulklen).rest = c.rest := by
  rw [makeRoomFor]
  split
  · simp [rest]
  · rfl

theorem makeRoomFor_conn (bulklen : Nat) (c : RedisClient) :
    (c.makeRoomFor bulklen).toRedisConn = c.toRedisConn := by
  rw [makeRoomFor]
  split <;> rfl

/-- Reading the length of an argument, in the buffer and plainly. -/
theorem readBulklen_act {c : RedisClient} (hbulk : c.bulklen = none) :
    (readLength s c.toRedisConn c.rest = .wait ∧ c.readBulklen = .error c)
      ∨ (∃ e, readLength s c.toRedisConn c.rest = .fail e ∧ c.readBulklen = .error (c.fail e))
      ∨ ∃ n bulklen c', readLength s c.toRedisConn c.rest = .take n (s, c'.toRedisConn)
          ∧ c.readBulklen = .ok c' ∧ c'.rest = c.rest.drop n
          ∧ c'.toRedisConn = { c.toRedisConn with bulklen := some bulklen } := by
  rw [readLength, withCountLine, readBulklen, hbulk]
  cases hline : countLine c.rest with
  | tooBig => exact Or.inr (Or.inl ⟨_, rfl, rfl⟩)
  | wait => exact Or.inl ⟨rfl, rfl⟩
  | line newline =>
      simp only
      by_cases hdollar : c.rest.head? ≠ some (ch '$')
      · simp only [if_pos hdollar]
        exact Or.inr (Or.inl ⟨_, rfl, rfl⟩)
      · simp only [if_neg hdollar]
        cases hcount : countOf c.rest newline with
        | none => exact Or.inr (Or.inl ⟨_, rfl, rfl⟩)
        | some ll =>
            simp only
            by_cases hrange : ll < 0 ∨ ll > protoMaxBulkLen
            · simp only [if_pos hrange]
              exact Or.inr (Or.inl ⟨_, rfl, rfl⟩)
            · simp only [if_neg hrange]
              refine Or.inr (Or.inr ⟨newline + 2, ll.toNat, _, ?_, rfl, ?_, ?_⟩)
              · simp only [makeRoomFor_conn]
              · exact (makeRoomFor_rest _ _).trans (rest_advance c (newline + 2))
              · simp only [makeRoomFor_conn]

variable (exec s) in
/-- Up to the argument that comes next: its length is read, or was known. -/
theorem readBulklen_spec {c : RedisClient} (htype : c.reqtype = some .multibulk)
    (hopen : c.closed = false) (hcount : c.multibulklen ≠ 0) :
    (∃ c', c.readBulklen = .error c' ∧ Parsed exec s c (false, c')) ∨
      ∃ bulklen c', c.readBulklen = .ok c'
        ∧ (redisReader exec).drain (s, c.toRedisConn) c.rest
            = (redisReader exec).drain (s, c'.toRedisConn) c'.rest
        ∧ c'.rest.length ≤ c.rest.length
        ∧ c'.toRedisConn = { c.toRedisConn with bulklen := some bulklen } := by
  cases hbulk : c.bulklen with
  | some bulklen =>
      exact Or.inr ⟨bulklen, c, by rw [readBulklen, hbulk], rfl, Nat.le_refl _, by rw [← hbulk]⟩
  | none =>
      have hact : readAct exec .multibulk s c.toRedisConn c.rest
          = readLength s c.toRedisConn c.rest := by
        simp only [readAct, if_neg hcount, hbulk]
      rcases readBulklen_act (s := s) hbulk with ⟨h, heq⟩ | ⟨e, h, heq⟩ | ⟨n, k, c', h, heq, hrest, hc'⟩
      · exact Or.inl ⟨c, heq, .of_wait htype hopen (hact.trans h)⟩
      · exact Or.inl ⟨c.fail e, heq, .of_fail htype hopen (hact.trans h)⟩
      · refine Or.inr ⟨k, c', heq, ?_, ?_, hc'⟩
        · rw [drain_of_take htype hopen (hact.trans h), hrest]
        · rw [hrest, List.length_drop]
          omega

variable (exec s) in
/-- The argument that comes next, of known length. -/
theorem drain_argument {c : RedisClient} {bulklen : Nat} (htype : c.reqtype = some .multibulk)
    (hopen : c.closed = false) (hcount : c.multibulklen ≠ 0) (hbulk : c.bulklen = some bulklen)
    (hlen : bulklen + 2 ≤ c.rest.length) :
    (redisReader exec).drain (s, c.toRedisConn) c.rest
      = (redisReader exec).drain
          (if (c.takeArgument bulklen).multibulklen = 0
            then requestRead exec s (c.takeArgument bulklen).toRedisConn
            else (s, (c.takeArgument bulklen).toRedisConn))
          (c.takeArgument bulklen).rest := by
  have hact : readAct exec .multibulk s c.toRedisConn c.rest = .take (bulklen + 2)
      (if (c.takeArgument bulklen).multibulklen = 0
        then requestRead exec s (c.takeArgument bulklen).toRedisConn
        else (s, (c.takeArgument bulklen).toRedisConn)) := by
    simp only [readAct, if_neg hcount, hbulk, readArgument, if_neg (Nat.not_lt.mpr hlen),
      takeArgument_conn]
  rw [drain_of_take htype hopen hact, takeArgument_rest]

theorem readBulks_parsed : ∀ (n : Nat) {c : RedisClient}, c.reqtype = some .multibulk →
    c.closed = false → c.multibulklen = n + 1 → Parsed exec s c (c.readBulks (n + 1))
  | n, c, htype, hopen, hcount => by
      rw [readBulks]
      rcases readBulklen_spec exec s htype hopen (by omega) with
        ⟨c', heq, hstop⟩ | ⟨bulklen, c', heq, hdrain, hle, hc'⟩
      · rw [heq]
        exact hstop
      · rw [heq]
        refine Parsed.of_drain_eq hdrain hle ?_
        have htype' : c'.reqtype = some .multibulk := by rw [hc']; exact htype
        have hopen' : c'.closed = false := by rw [hc']; exact hopen
        have hcount' : c'.multibulklen = n + 1 := by rw [hc']; exact hcount
        have hbulk : c'.bulklen = some bulklen := by rw [hc']
        simp only [hbulk, Option.getD_some, ← length_rest]
        by_cases hshort : c'.rest.length < bulklen + 2
        · rw [if_pos hshort]
          refine .of_wait htype' hopen' ?_
          simp only [readAct, if_neg (show c'.multibulklen ≠ 0 by omega), hbulk, readArgument,
            if_pos hshort]
        · rw [if_neg hshort]
          have hdrain' := drain_argument exec s htype' hopen' (by omega) hbulk
            (Nat.le_of_not_lt hshort)
          have hleft : (c'.takeArgument bulklen).multibulklen = n := by
            rw [takeArgument_conn, RedisConn.addArgument, hcount', Nat.add_sub_cancel]
          have hlt : (c'.takeArgument bulklen).rest.length < c'.rest.length := by
            rw [takeArgument_rest, List.length_drop]
            omega
          rw [hleft] at hdrain'
          cases n with
          | zero =>
              rw [if_pos rfl] at hdrain'
              exact .of_go hdrain' hlt
          | succ n =>
              rw [if_neg (by omega)] at hdrain'
              refine .of_drain_eq hdrain' (by omega) (readBulks_parsed n ?_ ?_ hleft)
              · rw [takeArgument_conn]; exact htype'
              · rw [takeArgument_conn]; exact hopen'

theorem processMultibulkBuffer_parsed {c : RedisClient} (htype : c.reqtype = some .multibulk)
    (hopen : c.closed = false) : Parsed exec s c c.processMultibulkBuffer := by
  rw [processMultibulkBuffer]
  by_cases h0 : c.multibulklen = 0
  · rw [if_pos h0]
    have hact : readAct exec .multibulk s c.toRedisConn c.rest
        = readCount exec s c.toRedisConn c.rest := by
      simp only [readAct, if_pos h0]
    rw [readCount, withCountLine] at hact
    cases hline : countLine c.rest with
    | tooBig => exact .of_fail htype hopen (by rw [hact, hline])
    | wait => exact .of_wait htype hopen (by rw [hact, hline])
    | line newline =>
        obtain ⟨-, hlen⟩ := countLine_eq_line.mp hline
        rw [hline] at hact
        have hadv := rest_advance c (newline + 2)
        have hlt : (c.rest.drop (newline + 2)).length < c.rest.length := by
          rw [List.length_drop]
          omega
        cases hcount : countOf c.rest newline with
        | none =>
            simp only [hcount] at hact ⊢
            exact .of_fail htype hopen hact
        | some ll =>
            simp only [hcount] at hact ⊢
            by_cases hbig : ll > 1024 * 1024
            · rw [if_pos hbig] at hact ⊢
              exact .of_fail htype hopen hact
            · rw [if_neg hbig] at hact ⊢
              by_cases hpos : ll ≤ 0
              · rw [if_pos hpos] at hact ⊢
                refine .of_go ?_ (by rw [hadv]; exact hlt)
                rw [drain_of_take htype hopen hact, hadv]
              · rw [if_neg hpos] at hact ⊢
                obtain ⟨n, hn⟩ : ∃ n, ll.toNat = n + 1 := ⟨ll.toNat - 1, by omega⟩
                rw [hn] at hact ⊢
                refine .of_drain_eq ?_ ?_ (readBulks_parsed n htype hopen rfl)
                · rw [drain_of_take htype hopen hact]
                  exact congrArg _ hadv.symm
                · exact Nat.le_of_lt (hadv ▸ hlt)
  · rw [if_neg h0]
    obtain ⟨n, hn⟩ := Nat.exists_eq_succ_of_ne_zero h0
    rw [hn]
    exact readBulks_parsed n htype hopen hn

theorem processInlineBuffer_parsed {c : RedisClient} (htype : c.reqtype = some .inline)
    (hopen : c.closed = false) : Parsed exec s c c.processInlineBuffer := by
  have hact : readAct exec .inline s c.toRedisConn c.rest
      = readInline exec s c.toRedisConn c.rest := rfl
  rw [readInline] at hact
  rw [processInlineBuffer]
  cases hstr : strchr (ch '\n') c.rest with
  | none =>
      simp only [hstr] at hact ⊢
      by_cases hbig : c.rest.length > protoInlineMaxSize
      · rw [if_pos hbig] at hact ⊢
        exact .of_fail htype hopen hact
      · rw [if_neg hbig] at hact ⊢
        exact .of_wait htype hopen hact
  | some newline =>
      have hlt := strchr_lt hstr
      simp only [hstr] at hact ⊢
      generalize hquery : (if newline ≠ 0 ∧ c.rest[newline - 1]? = some (ch '\r') then newline - 1
        else newline) = querylen at hact ⊢
      -- the line end has one or two bytes, and is left behind
      have hend : querylen + (if newline ≠ 0 ∧ c.rest[newline - 1]? = some (ch '\r') then 2 else 1)
          = newline + 1 := by
        rw [← hquery]
        split <;> omega
      rw [hend]
      have hadv := rest_advance c (newline + 1)
      cases hsplit : sdssplitargs (c.rest.take querylen) with
      | none =>
          simp only [hsplit] at hact ⊢
          exact .of_fail htype hopen hact
      | some argv =>
          simp only [hsplit] at hact ⊢
          refine .of_go ?_ ?_
          · rw [drain_of_take htype hopen hact]
            exact congrArg _ hadv.symm
          · have : (c.rest.drop (newline + 1)).length < c.rest.length := by
              rw [List.length_drop]
              omega
            exact hadv ▸ this

variable (exec s) in
theorem determineType_drain {c : RedisClient} (hrest : c.rest ≠ []) (hopen : c.closed = false) :
    (redisReader exec).drain (s, c.toRedisConn) c.rest
        = (redisReader exec).drain (s, c.determineType.toRedisConn) c.determineType.rest
      ∧ c.determineType.rest = c.rest ∧ c.determineType.closed = false
      ∧ ∃ reqtype, c.determineType.reqtype = some reqtype := by
  rw [determineType]
  cases htype : c.reqtype with
  | some reqtype => exact ⟨rfl, rfl, hopen, reqtype, htype⟩
  | none =>
      refine ⟨Reader.drain_of_some ?_, rfl, hopen, _, rfl⟩
      show redisNext exec (s, c.toRedisConn) c.rest = _
      rw [redisNext, if_neg (by simp [hrest, hopen])]
      simp only [htype]
      rfl

variable (exec s) in
theorem parseRequest_parsed {c : RedisClient} (hrest : c.rest ≠ []) (hopen : c.closed = false) :
    Parsed exec s c c.determineType.parseRequest := by
  obtain ⟨hdrain, hrest', hopen', reqtype, htype⟩ :=
    determineType_drain exec s hrest hopen
  refine .of_drain_eq hdrain (by rw [hrest']) ?_
  cases reqtype with
  | inline =>
      rw [parseRequest, if_pos htype]
      exact processInlineBuffer_parsed htype hopen'
  | multibulk =>
      rw [parseRequest, if_neg (by simp [htype])]
      exact processMultibulkBuffer_parsed htype hopen'

end RedisClient

/-! ## Processing -/

theorem processRequests_drain : ∀ (n : Nat) (s : σ) (c : RedisClient), c.rest.length ≤ n →
    (redisReader exec).drain (s, c.toRedisConn) c.rest
      = (((processRequests exec n s c).1, (processRequests exec n s c).2.toRedisConn),
          (processRequests exec n s c).2.rest)
  | 0, s, c, hn => by
      have hrest : c.rest = [] := List.eq_nil_of_length_eq_zero (by omega)
      exact Reader.drain_of_none (if_pos (Or.inl hrest))
  | n + 1, s, c, hn => by
      have hlen := c.length_rest
      rw [processRequests]
      by_cases hgo : c.qbPos < c.querybuf.length ∧ c.closed = false
      · rw [if_pos hgo]
        have hrest : c.rest ≠ [] := by
          intro h
          rw [h, List.length_nil] at hlen
          omega
        have hp := RedisClient.parseRequest_parsed exec s hrest hgo.2
        generalize c.determineType.parseRequest = r at hp
        obtain ⟨ok, c'⟩ := r
        cases ok with
        | false => exact hp.stop rfl
        | true =>
            obtain ⟨hdrain, hlt⟩ := hp.go rfl
            simp only at hdrain hlt
            rw [hdrain]
            exact processRequests_drain n _
              { c' with toRedisConn := (requestRead exec s c'.toRedisConn).2 }
              (show c'.rest.length ≤ n by omega)
      · rw [if_neg hgo]
        refine Reader.drain_of_none (if_pos ?_)
        by_cases hopen : c.closed = false
        · refine Or.inl (List.eq_nil_of_length_eq_zero ?_)
          have : ¬ c.qbPos < c.querybuf.length := fun h => hgo ⟨h, hopen⟩
          omega
        · exact Or.inr (by simpa using hopen)

variable (exec) in
/-- **The buffer is a plain reader.** Processing the query buffer drains the
reader that takes lines and arguments off the front of the bytes not yet
consumed. -/
theorem processInputBuffer_drain (s : σ) (c : RedisClient) :
    (redisReader exec).drain (s, c.toRedisConn) c.rest
      = (((processInputBuffer exec s c).1, (processInputBuffer exec s c).2.toRedisConn),
          (processInputBuffer exec s c).2.querybuf) :=
  processRequests_drain _ s c (by rw [c.length_rest])

/-! ## Reads -/

def RedisClient.fresh : RedisClient := ⟨.start, [], 0⟩

variable (exec) in
/-- Reading a stream: at each read some number of its bytes has arrived. -/
def readStream : List Nat → σ × RedisClient × Bytes → σ × RedisClient × Bytes
  | [], x => x
  | k :: ks, (s, c, wire) =>
      let (s, c, left) := readQueryFromClient exec s c (wire.take k)
      readStream ks (s, c, left ++ wire.drop k)

variable (exec s) in
/-- Between two reads the buffer starts with what is left over. -/
structure Waiting (c : RedisClient) : Prop where
  pos : c.qbPos = 0
  next : (redisReader exec).next (s, c.toRedisConn) c.querybuf = none

theorem readQueryFromClient_feed {c c' : RedisClient} {s' : σ} {avail left : Bytes}
    (hc : Waiting exec s c) (h : readQueryFromClient exec s c avail = (s', c', left))
    (hasap : c'.closeAsap = false) : Waiting exec s' c' ∧ ∃ piece, avail = piece ++ left ∧
      ((s', c'.toRedisConn), c'.querybuf)
        = (redisReader exec).feed ((s, c.toRedisConn), c.querybuf) piece := by
  rw [readQueryFromClient] at h
  split at h
  · rename_i hnil
    cases h
    refine ⟨hc, [], by simp, ?_⟩
    rw [Reader.feed, List.append_nil, Reader.drain_of_none hc.next]
  · simp only at h
    split at h
    · cases h
      cases hasap
    · cases h
      have hdrain := processInputBuffer_drain exec s
        { c with querybuf := c.querybuf ++ avail.take c.readlen }
      have hrest : ({ c with querybuf := c.querybuf ++ avail.take c.readlen } : RedisClient).rest
          = c.querybuf ++ avail.take c.readlen := by
        simp [RedisClient.rest, hc.pos]
      rw [hrest] at hdrain
      refine ⟨⟨rfl, ?_⟩, avail.take c.readlen, by simp, ?_⟩
      · have := Reader.next_drain (m := redisReader exec) (s, c.toRedisConn)
          (c.querybuf ++ avail.take c.readlen)
        rwa [hdrain] at this
      · rw [Reader.feed, hdrain]

theorem processInputBuffer_closed (s : σ) {c : RedisClient} (h : c.closed = true) :
    processInputBuffer exec s c = (s, c.trim) := by
  rw [processInputBuffer]
  cases c.querybuf.length - c.qbPos with
  | zero => rfl
  | succ n => rw [processRequests, if_neg (by simp [h])]

theorem readQueryFromClient_closeAsap (s : σ) {c : RedisClient} (h : c.closeAsap = true)
    (avail : Bytes) : (readQueryFromClient exec s c avail).2.1.closeAsap = true := by
  rw [readQueryFromClient]
  split
  · exact h
  · simp only
    split
    · rfl
    · rw [processInputBuffer_closed s (by simp [RedisConn.closed, h])]
      exact h

variable (exec) in
theorem readStream_closeAsap : ∀ (s : σ) (wire : Bytes) (ks : List Nat) {c : RedisClient},
    c.closeAsap = true → (readStream exec ks (s, c, wire)).2.1.closeAsap = true
  | _, _, [], _, h => h
  | s, wire, k :: ks, _, h =>
      readStream_closeAsap _ _ ks (readQueryFromClient_closeAsap s h (wire.take k))

theorem readStream_feedAll : ∀ (ks : List Nat) {s s' : σ} {c c' : RedisClient} {wire left : Bytes},
    Waiting exec s c → readStream exec ks (s, c, wire) = (s', c', left) → c'.closeAsap = false →
    Waiting exec s' c' ∧ ∃ pieces : List Bytes, wire = pieces.flatten ++ left ∧
      ((s', c'.toRedisConn), c'.querybuf)
        = (redisReader exec).feedAll ((s, c.toRedisConn), c.querybuf) pieces
  | [], s, s', c, c', wire, left, hc, h, _ => by
      cases h
      exact ⟨hc, [], rfl, rfl⟩
  | k :: ks, s, s', c, c', wire, left, hc, h, hasap => by
      rw [readStream] at h
      generalize hread : readQueryFromClient exec s c (wire.take k) = x at h
      obtain ⟨s₁, c₁, left₁⟩ := x
      have hasap₁ : c₁.closeAsap = false := by
        by_contra hbad
        have hlast := readStream_closeAsap exec s₁ (left₁ ++ wire.drop k) ks
          ((Bool.not_eq_false _).mp hbad)
        simp only at h
        rw [h, hasap] at hlast
        cases hlast
      obtain ⟨hc₁, piece, hpiece, hfeed⟩ := readQueryFromClient_feed hc hread hasap₁
      obtain ⟨hc', pieces, hpieces, hall⟩ := readStream_feedAll ks hc₁ h hasap
      refine ⟨hc', piece :: pieces, ?_, ?_⟩
      · rw [List.flatten_cons, List.append_assoc, ← hpieces, ← List.append_assoc, ← hpiece,
          List.take_append_drop]
      · rw [hall, hfeed]
        rfl

/-- What has been read of a stream determines the state, unless a limit was
hit. -/
theorem readStream_feed {ks : List Nat} {s s' : σ} {c c' : RedisClient} {wire left : Bytes}
    (hc : Waiting exec s c) (h : readStream exec ks (s, c, wire) = (s', c', left))
    (hasap : c'.closeAsap = false) (hover : ¬ c'.overrun) :
    Waiting exec s' c' ∧ ∃ done, wire = done ++ left ∧
      ((s', c'.toRedisConn), c'.querybuf)
        = (redisReader exec).feed ((s, c.toRedisConn), c.querybuf) done := by
  obtain ⟨hc', pieces, hwire, hall⟩ := readStream_feedAll ks hc h hasap
  refine ⟨hc', pieces.flatten, hwire, ?_⟩
  rw [hall, redisReader_stable.feedAll_flatten pieces hc.next]
  rw [← hall]
  exact hover

theorem waiting_fresh : Waiting exec s .fresh := ⟨rfl, rfl⟩

/-- **Requests do not depend on the reads.** If two servers read the same
stream to its end, each in its own reads of arbitrary sizes, and neither
stops the client for sending too much at once, they end in the same state
with the same replies. -/
theorem fragmentation_independent (s : σ) (wire : Bytes) (ks ks' : List Nat)
    {s₁ s₂ : σ} {c₁ c₂ : RedisClient}
    (h₁ : readStream exec ks (s, .fresh, wire) = (s₁, c₁, []))
    (h₂ : readStream exec ks' (s, .fresh, wire) = (s₂, c₂, []))
    (hasap₁ : c₁.closeAsap = false) (hasap₂ : c₂.closeAsap = false)
    (hover₁ : ¬ c₁.overrun) (hover₂ : ¬ c₂.overrun) : s₁ = s₂ ∧ c₁ = c₂ := by
  obtain ⟨hw₁, done₁, hdone₁, hfeed₁⟩ := readStream_feed waiting_fresh h₁ hasap₁ hover₁
  obtain ⟨hw₂, done₂, hdone₂, hfeed₂⟩ := readStream_feed waiting_fresh h₂ hasap₂ hover₂
  rw [List.append_nil] at hdone₁ hdone₂
  rw [← hdone₁, hdone₂, ← hfeed₂] at hfeed₁
  obtain ⟨hconn, hbuf⟩ := Prod.mk.inj hfeed₁
  obtain ⟨hs, hconn⟩ := Prod.mk.inj hconn
  refine ⟨hs, ?_⟩
  obtain ⟨conn₁, buf₁, pos₁⟩ := c₁
  obtain ⟨conn₂, buf₂, pos₂⟩ := c₂
  obtain rfl : pos₁ = 0 := hw₁.pos
  obtain rfl : pos₂ = 0 := hw₂.pos
  simp only at hconn hbuf
  rw [hconn, hbuf]

/-- A server that only remembers its requests. -/
def remember (s : List (List Bytes)) (argv : List Bytes) : List (List Bytes) × Outcome :=
  (s ++ [argv], ⟨bytes "+OK\r\n", false⟩)

/-- One request in bulks and one typed by hand. -/
def twoRequests : Bytes := bytes "*1\r\n$4\r\nPING\r\nget json\r\n"

/-- They are cut in a length, in a line end and in an argument, or read at
once. -/
theorem twoRequests_in_pieces : ∃ s₁ s₂ c₁ c₂,
    readStream remember [6, 5, 12, 100] ([], .fresh, twoRequests) = (s₁, c₁, []) ∧
    readStream remember [100] ([], .fresh, twoRequests) = (s₂, c₂, []) ∧ s₁ = s₂ ∧ c₁ = c₂ := by
  have h₁ : readStream remember [6, 5, 12, 100] ([], .fresh, twoRequests)
      = ([[bytes "PING"], [bytes "get", bytes "json"]],
        { RedisClient.fresh with reply := bytes "+OK\r\n+OK\r\n" }, []) := by
    decide +kernel
  have h₂ : readStream remember [100] ([], .fresh, twoRequests)
      = ([[bytes "PING"], [bytes "get", bytes "json"]],
        { RedisClient.fresh with reply := bytes "+OK\r\n+OK\r\n" }, []) := by
    decide +kernel
  exact ⟨_, _, _, _, h₁, h₂,
    fragmentation_independent [] _ _ _ h₁ h₂ rfl rfl (by decide) (by decide)⟩

end Wahana
