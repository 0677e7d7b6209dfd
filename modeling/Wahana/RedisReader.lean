import Wahana.Incremental
import Wahana.RedisInput

/-!
# Redis: the input as a stream

The query buffer with its position, its trimming and the short cut for
large arguments is one way to read a stream of bytes. `redisReader` is the
plain way: it looks at the bytes not yet consumed and takes a line or an
argument off their front. Processing the buffer is draining the plain reader
(`processInputBuffer_drain`).
-/

namespace Wahana

/-! ## The plain reader -/

/-- What the bytes at hand allow: nothing yet, a protocol error, or taking
some of them. -/
inductive ReadAct (σ : Type) where
  | wait
  | fail (e : ProtocolError)
  | take (n : Nat) (sc : σ × RedisConn)

section

variable {σ : Type} (exec : σ → List Bytes → σ × Outcome)

/-- A line typed by hand. -/
def readInline (s : σ) (c : RedisConn) (rest : Bytes) : ReadAct σ :=
  match strchr (ch '\n') rest with
  | none => if rest.length > protoInlineMaxSize then .fail .tooBigInlineRequest else .wait
  | some newline =>
      let cr := newline ≠ 0 ∧ rest[newline - 1]? = some (ch '\r')
      match sdssplitargs (rest.take (if cr then newline - 1 else newline)) with
      | none => .fail .unbalancedQuotes
      | some argv => .take (newline + 1) (requestRead exec s { c with argv := argv })

/-- A step that starts with a count line; `onLine` is given the position of
the line end. -/
def withCountLine (tooBig : ProtocolError) (onLine : Nat → Bytes → ReadAct σ) (rest : Bytes) :
    ReadAct σ :=
  match countLine rest with
  | .tooBig => .fail tooBig
  | .wait => .wait
  | .line newline => onLine newline rest

/-- The number of arguments. -/
def readCount (s : σ) (c : RedisConn) : Bytes → ReadAct σ :=
  withCountLine .tooBigMbulkCount fun newline rest =>
    match countOf rest newline with
    | none => .fail .invalidMbulkCount
    | some ll =>
        if ll > 1024 * 1024 then .fail .invalidMbulkCount
        else if ll ≤ 0 then .take (newline + 2) (requestRead exec s c)
        else .take (newline + 2) (s, { c with multibulklen := ll.toNat })

/-- The length of an argument. -/
def readLength (s : σ) (c : RedisConn) : Bytes → ReadAct σ :=
  withCountLine .tooBigBulkCount fun newline rest =>
    if rest.head? ≠ some (ch '$') then .fail (.expectedDollar (rest.headD 0))
    else
      match countOf rest newline with
      | none => .fail .invalidBulkLength
      | some ll =>
          if ll < 0 ∨ ll > protoMaxBulkLen then .fail .invalidBulkLength
          else .take (newline + 2) (s, { c with bulklen := some ll.toNat })

/-- The client with one more argument. -/
def RedisConn.addArgument (c : RedisConn) (arg : Bytes) : RedisConn :=
  { c with argv := c.argv ++ [arg], bulklen := none, multibulklen := c.multibulklen - 1 }

/-- An argument and the two bytes after it. -/
def readArgument (s : σ) (c : RedisConn) (bulklen : Nat) (rest : Bytes) : ReadAct σ :=
  if rest.length < bulklen + 2 then .wait
  else
    let c := c.addArgument (rest.take bulklen)
    .take (bulklen + 2) (if c.multibulklen = 0 then requestRead exec s c else (s, c))

/-- The step of a client whose request type is known. -/
def readAct (reqtype : ReqType) (s : σ) (c : RedisConn) (rest : Bytes) : ReadAct σ :=
  match reqtype with
  | .inline => readInline exec s c rest
  | .multibulk =>
      if c.multibulklen = 0 then readCount exec s c rest
      else
        match c.bulklen with
        | none => readLength s c rest
        | some bulklen => readArgument exec s c bulklen rest

def ReadAct.result (s : σ) (c : RedisConn) (rest : Bytes) :
    ReadAct σ → Option ((σ × RedisConn) × Bytes)
  | .wait => none
  | .fail e => some ((s, c.setProtocolError e), rest)
  | .take n sc => some (sc, rest.drop n)

def typeOf (rest : Bytes) : ReqType :=
  if rest.head? = some (ch '*') then .multibulk else .inline

def redisNext (sc : σ × RedisConn) (rest : Bytes) : Option ((σ × RedisConn) × Bytes) :=
  if rest = [] ∨ sc.2.closed = true then none
  else
    match sc.2.reqtype with
    | none => some ((sc.1, { sc.2 with reqtype := some (typeOf rest) }), rest)
    | some reqtype => (readAct exec reqtype sc.1 sc.2 rest).result sc.1 sc.2 rest

end

/-! ## Steps -/

theorem strchr_lt : ∀ {c : UInt8} {s : Bytes} {k : Nat}, strchr c s = some k → k < s.length
  | c, b :: s, k, h => by
      rw [strchr] at h
      split at h
      · cases h
        simp
      · split at h
        · cases h
        · obtain ⟨k', hk', rfl⟩ := Option.map_eq_some_iff.mp h
          have := strchr_lt hk'
          simp only [List.length_cons]
          omega

theorem strchr_append : ∀ {c : UInt8} {s : Bytes} {k : Nat} (t : Bytes), strchr c s = some k →
    strchr c (s ++ t) = some k
  | c, b :: s, k, t, h => by
      rw [strchr] at h
      rw [List.cons_append, strchr]
      split at h
      · rename_i hb
        rw [if_pos hb, ← h]
      · rename_i hb
        rw [if_neg hb]
        split at h
        · cases h
        · rename_i hb0
          obtain ⟨k', hk', rfl⟩ := Option.map_eq_some_iff.mp h
          rw [if_neg hb0, strchr_append t hk']
          rfl

theorem countLine_eq_line {rest : Bytes} {newline : Nat} : countLine rest = .line newline ↔
    strchr (ch '\r') rest = some newline ∧ newline + 2 ≤ rest.length := by
  rw [countLine]
  split
  · rename_i h
    split <;> simp [h]
  · rename_i k h
    rw [h]
    split
    · simp
      omega
    · simp
      omega

theorem countLine_append {rest : Bytes} {newline : Nat} (t : Bytes)
    (h : countLine rest = .line newline) : countLine (rest ++ t) = .line newline := by
  rw [countLine_eq_line] at h ⊢
  exact ⟨strchr_append t h.1, by rw [List.length_append]; omega⟩

theorem countOf_append {rest : Bytes} {newline : Nat} (t : Bytes)
    (h : newline + 2 ≤ rest.length) : countOf (rest ++ t) newline = countOf rest newline := by
  rw [countOf, countOf, List.drop_append_of_le_length (by omega),
    List.take_append_of_le_length (by rw [List.length_drop]; omega)]

/-- The errors that depend on how much has been received. -/
def ProtocolError.overrun : ProtocolError → Bool
  | tooBigInlineRequest | tooBigMbulkCount | tooBigBulkCount => true
  | _ => false

/-- A step on the bytes at hand stays what it is when more arrive, unless it
is the error of a line that got too long. -/
structure StableAct {σ : Type} (act : Bytes → ReadAct σ) : Prop where
  take : ∀ {rest n sc}, act rest = .take n sc → 0 < n ∧ n ≤ rest.length
    ∧ ∀ t, act (rest ++ t) = .take n sc
  fail : ∀ {rest e}, act rest = .fail e → e.overrun = false → ∀ t, act (rest ++ t) = .fail e

section

variable {σ : Type} {exec : σ → List Bytes → σ × Outcome} {s : σ} {c : RedisConn}

theorem withCountLine_stable {tooBig : ProtocolError} {onLine : Nat → Bytes → ReadAct σ}
    (hbig : tooBig.overrun = true)
    (happend : ∀ newline rest t, newline + 2 ≤ rest.length →
      onLine newline (rest ++ t) = onLine newline rest)
    (htake : ∀ newline rest n sc, onLine newline rest = .take n sc → n = newline + 2) :
    StableAct (withCountLine tooBig onLine) := by
  have hline : ∀ {rest newline} (t : Bytes), countLine rest = .line newline →
      withCountLine tooBig onLine (rest ++ t) = onLine newline rest := by
    intro rest newline t h
    rw [withCountLine, countLine_append t h]
    exact happend _ _ t (countLine_eq_line.mp h).2
  constructor
  · intro rest n sc h
    rw [withCountLine] at h
    split at h
    · cases h
    · cases h
    · rename_i newline heq
      obtain rfl := htake _ _ _ _ h
      exact ⟨by omega, (countLine_eq_line.mp heq).2, fun t => by rw [hline t heq, h]⟩
  · intro rest e h hover t
    rw [withCountLine] at h
    split at h
    · cases h
      rw [hbig] at hover
      cases hover
    · cases h
    · rename_i newline heq
      rw [hline t heq, h]

theorem readCount_stable : StableAct (readCount exec s c) := by
  refine withCountLine_stable rfl ?_ ?_
  · intro newline rest t h
    rw [countOf_append t h]
  · intro newline rest n sc h
    split at h
    · cases h
    · split_ifs at h <;> cases h <;> rfl

theorem readLength_stable : StableAct (readLength s c) := by
  refine withCountLine_stable rfl ?_ ?_
  · intro newline rest t h
    obtain ⟨b, rest, rfl⟩ := List.exists_cons_of_length_pos (show 0 < rest.length by omega)
    rw [countOf_append t h]
    rfl
  · intro newline rest n sc h
    split at h
    · cases h
    · split at h
      · cases h
      · split_ifs at h
        cases h
        rfl

theorem readArgument_stable {bulklen : Nat} : StableAct (readArgument exec s c bulklen) := by
  constructor
  · intro rest n sc h
    rw [readArgument] at h
    split at h
    · cases h
    · rename_i hlen
      cases h
      refine ⟨by omega, by omega, fun t => ?_⟩
      rw [readArgument, if_neg (by rw [List.length_append]; omega),
        List.take_append_of_le_length (by omega)]
  · intro rest e h
    rw [readArgument] at h
    split at h <;> cases h

theorem readInline_stable : StableAct (readInline exec s c) := by
  have hline : ∀ {rest newline} (t : Bytes), strchr (ch '\n') rest = some newline →
      readInline exec s c (rest ++ t) = readInline exec s c rest := by
    intro rest newline t h
    have hlt := strchr_lt h
    have hcr : (rest ++ t)[newline - 1]? = rest[newline - 1]? :=
      List.getElem?_append_left (by omega)
    rw [readInline, readInline, strchr_append t h, h]
    simp only [hcr]
    rw [List.take_append_of_le_length (by split <;> omega)]
  constructor
  · intro rest n sc h
    cases hstr : strchr (ch '\n') rest with
    | none =>
        rw [readInline, hstr] at h
        simp only at h
        split at h <;> cases h
    | some newline =>
        have hlt := strchr_lt hstr
        have hn : n = newline + 1 := by
          rw [readInline, hstr] at h
          simp only at h
          split at h
          · cases h
          · cases h
            rfl
        exact ⟨by omega, by omega, fun t => by rw [hline t hstr, h]⟩
  · intro rest e h hover t
    cases hstr : strchr (ch '\n') rest with
    | none =>
        rw [readInline, hstr] at h
        simp only at h
        split at h
        · cases h
          cases hover
        · cases h
    | some newline => rw [hline t hstr, h]

theorem readAct_stable (reqtype : ReqType) : StableAct (readAct exec reqtype s c) := by
  cases reqtype with
  | inline => exact readInline_stable
  | multibulk =>
      unfold readAct
      by_cases h0 : c.multibulklen = 0
      · simp only [if_pos h0]
        exact readCount_stable
      · simp only [if_neg h0]
        cases c.bulklen with
        | none => exact readLength_stable
        | some bulklen => exact readArgument_stable

/-! ## The reader -/

variable (exec) in
/-- What a step of the reader is, once the request type is known. -/
theorem redisNext_of_type {reqtype : ReqType} {rest : Bytes} (htype : c.reqtype = some reqtype)
    (hrest : rest ≠ []) (hopen : c.closed = false) :
    redisNext exec (s, c) rest = (readAct exec reqtype s c rest).result s c rest := by
  rw [redisNext, if_neg (by simp [hrest, hopen])]
  simp only [htype]

theorem closed_setProtocolError (e : ProtocolError) : (c.setProtocolError e).closed = true := by
  simp [RedisConn.closed, RedisConn.setProtocolError]

/-- Two for every byte, so that a request of one byte makes up for its type,
which is determined without consuming anything. -/
def redisFuel (sc : σ × RedisConn) (rest : Bytes) : Nat :=
  2 * rest.length + (if sc.2.reqtype = none then 1 else 0) + (if sc.2.closed then 0 else 1)

/-- The steps of the reader, one by one. -/
theorem redisNext_cases {sc sc' : σ × RedisConn} {rest rest' : Bytes}
    (h : redisNext exec sc rest = some (sc', rest')) : rest ≠ [] ∧ sc.2.closed = false ∧
      ((sc.2.reqtype = none ∧ rest' = rest
          ∧ sc' = (sc.1, { sc.2 with reqtype := some (typeOf rest) }))
        ∨ ∃ reqtype, sc.2.reqtype = some reqtype ∧
          ((∃ e, readAct exec reqtype sc.1 sc.2 rest = .fail e ∧ rest' = rest
              ∧ sc' = (sc.1, sc.2.setProtocolError e))
            ∨ ∃ n, readAct exec reqtype sc.1 sc.2 rest = .take n sc' ∧ rest' = rest.drop n)) := by
  rw [redisNext] at h
  split at h
  · cases h
  · rename_i hgo
    rw [not_or, Bool.not_eq_true] at hgo
    refine ⟨hgo.1, hgo.2, ?_⟩
    split at h
    · rename_i htype
      cases h
      exact Or.inl ⟨htype, rfl, rfl⟩
    · rename_i reqtype htype
      refine Or.inr ⟨reqtype, htype, ?_⟩
      cases hact : readAct exec reqtype sc.1 sc.2 rest with
      | wait => rw [hact] at h; cases h
      | fail e => rw [hact] at h; cases h; exact Or.inl ⟨e, rfl, rfl, rfl⟩
      | take n sc' => rw [hact] at h; cases h; exact Or.inr ⟨n, rfl, rfl⟩

theorem redisFuel_lt {sc sc' : σ × RedisConn} {rest rest' : Bytes}
    (h : redisNext exec sc rest = some (sc', rest')) : redisFuel sc' rest' < redisFuel sc rest := by
  obtain ⟨-, hopen, ⟨htype, rfl, rfl⟩ | ⟨reqtype, htype, ⟨e, -, rfl, rfl⟩ | ⟨n, hact, rfl⟩⟩⟩ :=
    redisNext_cases h
  · simp only [redisFuel, htype, RedisConn.closed]
    simp
  · simp only [redisFuel, htype, hopen, closed_setProtocolError]
    simp [RedisConn.setProtocolError, htype]
  · obtain ⟨hpos, hle, -⟩ := (readAct_stable reqtype).take hact
    simp only [redisFuel, htype, hopen, List.length_drop]
    split <;> split <;> simp <;> omega

variable (exec) in
def redisReader : Reader UInt8 (σ × RedisConn) where
  next := redisNext exec
  fuel := redisFuel
  fuel_lt := redisFuel_lt

/-- The client was stopped because a line got too long. -/
def RedisConn.overrun (c : RedisConn) : Prop :=
  c.closed = true ∧ c.protocolError.any (·.overrun) = true

instance (c : RedisConn) : Decidable c.overrun := inferInstanceAs (Decidable (_ ∧ _))

/-- Later input changes no step, up to the errors of lines that got too
long. -/
theorem redisReader_stable : (redisReader exec).StableUpTo fun sc => sc.2.overrun := by
  constructor
  · intro sc rest sc' rest' t h hover
    obtain ⟨hne, hopen, hcase⟩ := redisNext_cases h
    have hgo : ¬ (rest ++ t = [] ∨ sc.2.closed = true) := by simp [hne, hopen]
    show redisNext exec sc (rest ++ t) = _
    rw [redisNext, if_neg hgo]
    rcases hcase with ⟨htype, rfl, rfl⟩ | ⟨reqtype, htype, ⟨e, hact, rfl, rfl⟩ | ⟨n, hact, rfl⟩⟩
    · obtain ⟨b, rest, rfl⟩ := List.exists_cons_of_ne_nil hne
      simp only [htype]
      rfl
    · have he : e.overrun = false := by
        by_contra hov
        exact hover ⟨closed_setProtocolError e, by simpa [RedisConn.setProtocolError] using hov⟩
      simp only [htype, (readAct_stable reqtype).fail hact he t]
      rfl
    · obtain ⟨-, hle, happend⟩ := (readAct_stable reqtype).take hact
      simp only [htype, happend t, ReadAct.result, List.drop_append_of_le_length hle]
  · intro sc rest hover
    exact if_pos (Or.inr hover.1)

end

end Wahana
