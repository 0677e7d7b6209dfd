import Wahana.NginxPattern

/-!
# Access-log records

What nginx writes against what the pattern reads back. `LogParts.line` is
the written line of a record and `LogParts.fields` the eleven values a
reader of that line should keep.

Two classes of records are followed through the pattern. In an
`AccessRecord` every item is free of white space and the number of body
bytes is arbitrary: such a record is read back unless that number has a
single digit, since the item asks for two (`parsed_back_iff`). In an
`NginxRecord` seven items may contain spaces: `matched_iff_framed` says
which of these the pattern matches at all, and `no_wrong_field_iff` that
among them a value lands in the wrong field as soon as one of the four
quoted times has a space in it.
-/

namespace Wahana

/-! ## The written line -/

/-- The parts of a line, without the brackets, quotes and names around
them; `day`, `clock` and `zone` make up the time. -/
structure LogParts where
  (addr ident user day clock zone request status sent referer rt uct uht urt gz : Bytes)
  deriving DecidableEq, Repr

def inQuotes (u : Bytes) : Bytes := ch '"' :: (u ++ [ch '"'])

/-- `name="value"` -/
def item (name : String) (value : Bytes) : Bytes := bytes name ++ ch '=' :: inQuotes value

/-- The words joined by single spaces, then `v`. -/
def unwords : List Bytes → Bytes → Bytes
  | [], v => v
  | [T], v => T ++ v
  | T :: T' :: Ts, v => T ++ ch ' ' :: unwords (T' :: Ts) v

namespace LogParts

def timeOpen (p : LogParts) : Bytes := ch '[' :: (p.day ++ ch '/' :: p.clock)

def timeClose (p : LogParts) : Bytes := ch '+' :: (p.zone ++ [ch ']'])

def rtItem (p : LogParts) : Bytes := bytes "rt=" ++ p.rt

/-- The items after `rt`, then the end of the line. -/
def times (p : LogParts) (eol : Bytes) : Bytes :=
  unwords [item "uct" p.uct, item "uht" p.uht, item "urt" p.urt, item "gz" p.gz] eol

def line (p : LogParts) (eol : Bytes) : Bytes :=
  unwords [p.addr, p.ident, p.user, p.timeOpen, p.timeClose, inQuotes p.request, p.status, p.sent,
    inQuotes p.referer, p.rtItem, item "uct" p.uct, item "uht" p.uht, item "urt" p.urt,
    item "gz" p.gz] eol

theorem times_eq (p : LogParts) (eol : Bytes) :
    ∃ U, p.times eol = bytes "uct=" ++ ch '"' :: U := by
  have huct : bytes "uct=" = bytes "uct" ++ [ch '='] := by decide
  exact ⟨p.uct ++ ch '"' :: ch ' ' :: unwords [item "uht" p.uht, item "urt" p.urt,
    item "gz" p.gz] eol, by simp [times, unwords, item, inQuotes, huct]⟩

/-- The parts the converter keeps, as they are written. -/
def fields (p : LogParts) : NginxFields where
  ip_address := p.addr
  date := unwords [p.timeOpen, p.timeClose] []
  method := inQuotes p.request
  status := p.status
  ping := p.sent
  site := inQuotes p.referer
  rt := p.rtItem
  uct := item "uct" p.uct
  uht := item "uht" p.uht
  urt := item "urt" p.urt
  gz := item "gz" p.gz

end LogParts

/-! ## Shapes of the written items -/

abbrev IsWord (u : Bytes) : Prop := ∀ a ∈ u, isWord a = true

theorem isWord_inQuotes_iff {u : Bytes} : IsWord (inQuotes u) ↔ IsWord u := by
  rw [IsWord, inQuotes, List.forall_mem_cons, List.forall_mem_append]
  exact ⟨fun h => h.2.1, fun h => ⟨by decide, h, by decide⟩⟩

theorem isToken_item_iff {name : String} {u : Bytes} (hname : IsWord (bytes name)) :
    IsToken (item name u) ↔ IsWord u := by
  rw [IsToken, item, List.forall_mem_append, List.forall_mem_cons]
  constructor
  · intro h
    exact isWord_inQuotes_iff.mp h.2.2.2
  · intro h
    exact ⟨by simp, hname, by decide, isWord_inQuotes_iff.mpr h⟩

theorem isToken_inQuotes {u : Bytes} (h : IsWord u) : IsToken (inQuotes u) := isToken_quoted h

theorem isToken_rtItem {p : LogParts} (h : IsWord p.rt) : IsToken p.rtItem := by
  refine ⟨List.append_ne_nil_of_left_ne_nil (by decide) _, List.forall_mem_append.mpr ⟨?_, h⟩⟩
  decide

theorem isToken_timeOpen {p : LogParts} (hday : IsDigits p.day) (hclock : IsToken p.clock) :
    IsToken p.timeOpen :=
  isToken_time hday hclock

theorem isToken_timeClose {p : LogParts} (hzone : IsDigits p.zone) : IsToken p.timeClose :=
  isToken_zone hzone

/-! ## Records without white space inside their items -/

instance (T : Bytes) : Decidable (IsToken T) := inferInstanceAs (Decidable (_ ∧ _))

instance (d : Bytes) : Decidable (IsDigits d) := inferInstanceAs (Decidable (_ ∧ _))

abbrev Token := {T : Bytes // IsToken T}

abbrev Word := {u : Bytes // IsWord u}

abbrev Digits := {d : Bytes // IsDigits d}

structure AccessRecord where
  (addr ident user : Token)
  day : Digits
  clock : Token
  zone : Digits
  (verb target proto : Token)
  status : {d : Digits // d.1.length = 3}
  sent : Nat
  referer : Token
  (rt uct uht urt gz : Word)

namespace AccessRecord

def parts (r : AccessRecord) : LogParts where
  addr := r.addr
  ident := r.ident
  user := r.user
  day := r.day
  clock := r.clock
  zone := r.zone
  request := unwords [r.verb, r.target, r.proto] []
  status := r.status
  sent := decimal r.sent
  referer := r.referer
  rt := r.rt
  uct := r.uct
  uht := r.uht
  urt := r.urt
  gz := r.gz

def render (r : AccessRecord) : Bytes := r.parts.line [ch '\n']

/-- The split of the rendered line at its white space. -/
def tokens (r : AccessRecord) : AccessTokens where
  t1 := r.addr
  t2 := r.ident
  t3 := r.user
  t4 := r.parts.timeOpen
  t5 := r.parts.timeClose
  t6 := ch '"' :: r.verb
  w := [ch ' ']
  t7 := r.target
  w' := [ch ' ']
  t8 := r.proto ++ [ch '"']
  t9 := r.status
  t10 := decimal r.sent
  t11 := inQuotes r.referer
  t12 := r.parts.rtItem
  t13 := item "uct" r.uct
  t14 := item "uht" r.uht
  t15 := item "urt" r.urt
  t16 := item "gz" r.gz
  rest := [ch '\n']

theorem render_eq_line (r : AccessRecord) : r.render = r.tokens.line := by
  simp [render, LogParts.line, unwords, AccessTokens.line, AccessHead.text, tokens, parts, inQuotes]

theorem tokens_fields (r : AccessRecord) : r.tokens.fields = r.parts.fields := by
  simp [AccessTokens.fields, LogParts.fields, unwords, tokens, parts, inQuotes]

theorem tokens_spaced (r : AccessRecord) : r.tokens.toAccessHead.Spaced := by
  have hgap : IsGap [ch ' '] := ⟨by simp, by decide⟩
  have hverb : IsToken (ch '"' :: r.verb) := isToken_cons (by decide) r.verb.2.2
  have hproto : IsToken (r.proto ++ [ch '"']) := isToken_concat r.proto.2.2 (by decide)
  have hsent : IsDigits (decimal r.sent) :=
    ⟨decimal_ne_nil _, fun _ => isDigit_of_mem_decimal⟩
  refine ⟨?_, hgap, hgap⟩
  simp only [AccessHead.tokens, tokens, List.forall_mem_cons]
  exact ⟨r.addr.2, r.ident.2, r.user.2, isToken_timeOpen r.day.2 r.clock.2,
    isToken_timeClose r.zone.2, hverb, r.target.2, hproto, r.status.1.2.isToken, hsent.isToken,
    isToken_inQuotes r.referer.2.2, isToken_rtItem r.rt.2, (isToken_item_iff (by decide)).mpr r.uct.2,
    (isToken_item_iff (by decide)).mpr r.uht.2, (isToken_item_iff (by decide)).mpr r.urt.2, by simp⟩

theorem tokens_valid {r : AccessRecord} (h : 10 ≤ r.sent) : r.tokens.Valid := by
  have hstatus : NumberTok r.status := ⟨by have := r.status.2; omega, r.status.1.2.2⟩
  have hsent : NumberTok (decimal r.sent) :=
    ⟨two_le_length_decimal_iff.mpr h, fun _ => isDigit_of_mem_decimal⟩
  refine ⟨⟨r.tokens_spaced, ?_, ?_, ?_, ?_, hstatus, hsent, ?_⟩,
    (isToken_item_iff (by decide)).mpr r.gz.2, stops_cons (by decide)⟩
  · exact ⟨r.day, r.clock, r.day.2, r.clock.2.1, rfl⟩
  · exact ⟨r.zone, r.zone.2, rfl⟩
  · exact ⟨r.verb, r.verb.2.1, rfl⟩
  · exact ⟨r.proto, r.proto.2.1, rfl⟩
  · exact ⟨r.referer, r.referer.2.1, rfl⟩

/-- **Which records are read back.** The item for the number of body bytes
asks for two digits, so a record with fewer than ten bytes is not matched
at all; every other record is matched and its parts are read off. -/
theorem parsed_back_iff (r : AccessRecord) :
    (pregMatchAll accessLog r.render ≠ [] ∧ parseLine r.render = r.parts.fields)
      ↔ 10 ≤ r.sent := by
  constructor
  · rintro ⟨hmatch, -⟩
    obtain ⟨t, ht, hline⟩ := matchAll_ne_nil_iff.mp hmatch
    rw [render_eq_line] at hline
    obtain ⟨heq, -⟩ := AccessHead.text_unique r.tokens_spaced ht.head.toSpaced hline
    have hping := ht.head.ping
    rw [← heq] at hping
    exact two_le_length_decimal_iff.mp hping.1
  · intro h
    have hv := tokens_valid h
    rw [render_eq_line]
    exact ⟨matchAll_ne_nil_iff.mpr ⟨_, hv, rfl⟩, by rw [parseLine_line hv, tokens_fields]⟩

/-- A cached script, of the sample log: the answer `304` has no body. -/
def notModified : AccessRecord where
  addr := ⟨bytes "114.142.168.20", by decide⟩
  ident := ⟨bytes "-", by decide⟩
  user := ⟨bytes "-", by decide⟩
  day := ⟨bytes "04", by decide⟩
  clock := ⟨bytes "Aug/2021:13:33:41", by decide⟩
  zone := ⟨bytes "0700", by decide⟩
  verb := ⟨bytes "GET", by decide⟩
  target := ⟨bytes "/app/dcaf/service-worker.js", by decide⟩
  proto := ⟨bytes "HTTP/1.1", by decide⟩
  status := ⟨⟨bytes "304", by decide⟩, by decide⟩
  sent := 0
  referer := ⟨bytes "https://drp.ds1.pideltaro.com/app/dcaf/service-worker.js", by decide⟩
  rt := ⟨bytes "0.000", by decide⟩
  uct := ⟨bytes "-", by decide⟩
  uht := ⟨bytes "-", by decide⟩
  urt := ⟨bytes "-", by decide⟩
  gz := ⟨bytes "-", by decide⟩

example : notModified.render =
    bytes "114.142.168.20 - - [04/Aug/2021:13:33:41 +0700] "
      ++ bytes "\"GET /app/dcaf/service-worker.js HTTP/1.1\" 304 0 "
      ++ bytes "\"https://drp.ds1.pideltaro.com/app/dcaf/service-worker.js\" "
      ++ bytes "rt=0.000 uct=\"-\" uht=\"-\" urt=\"-\" gz=\"-\"\n" := by
  decide +kernel

theorem notModified_not_parsed : ¬ (pregMatchAll accessLog notModified.render ≠ []
    ∧ parseLine notModified.render = notModified.parts.fields) := by
  decide +kernel

end AccessRecord

/-! ## Records whose quoted items may contain white space -/

/-- Free of white space and of double quotes. -/
def Plain (u : Bytes) : Prop := ∀ a ∈ u, isWord a = true ∧ a ≠ ch '"'

/-- Non-empty, free of double quotes and line feeds. -/
def FreeText (u : Bytes) : Prop := u ≠ [] ∧ ∀ a ∈ u, a ≠ ch '"' ∧ a ≠ ch '\n'

instance (u : Bytes) : Decidable (Plain u) := inferInstanceAs (Decidable (∀ a ∈ u, _))

instance (u : Bytes) : Decidable (FreeText u) := inferInstanceAs (Decidable (_ ∧ _))

structure NginxRecord extends LogParts where
  addr_plain : Plain addr
  ident_plain : Plain ident
  user_text : FreeText user
  day_digits : IsDigits day
  clock_plain : clock ≠ [] ∧ Plain clock
  zone_digits : IsDigits zone
  request_text : FreeText request
  status_plain : Plain status
  sent_plain : Plain sent
  referer_text : FreeText referer
  rt_plain : Plain rt
  uct_text : FreeText uct
  uht_text : FreeText uht
  urt_text : FreeText urt
  gz_text : FreeText gz

/-- The last line of a file may lack its line feed. -/
def lineEnd (newline : Bool) : Bytes := if newline then [ch '\n'] else []

theorem stops_lineEnd (newline : Bool) : Stops isWord (lineEnd newline) := by
  cases newline
  · exact stops_nil
  · exact stops_cons (by decide)

/-- Three words, separated by white space. -/
def ThreeWords (u : Bytes) : Prop :=
  ∃ x w y w' z, IsToken x ∧ IsGap w ∧ IsToken y ∧ IsGap w' ∧ IsToken z
    ∧ u = x ++ (w ++ (y ++ (w' ++ z)))

/-- The first four words of `u`, separated by single spaces, and the rest. -/
structure FourWords (u a b c d rest : Bytes) : Prop where
  ha : IsToken a
  hb : IsToken b
  hc : IsToken c
  hd : IsToken d
  hrest : Stops isWord rest
  heq : u = unwords [a, b, c, d] rest

namespace NginxRecord

variable {r : NginxRecord} {newline : Bool}

def line (r : NginxRecord) (newline : Bool) : Bytes := r.toLogParts.line (lineEnd newline)

/-- The condition on the parts under which the pattern matches the line.
Spaces are admitted inside the request, where it asks for exactly three
words, and inside the four times, as long as the text they make up starts
with four words separated by single spaces. -/
structure Framed (r : NginxRecord) (newline : Bool) : Prop where
  addr : r.addr ≠ []
  ident : r.ident ≠ []
  user : IsWord r.user
  request : ThreeWords r.request
  status : NumberTok r.status
  sent : NumberTok r.sent
  referer : IsWord r.referer
  times : ∃ a b c d rest, FourWords (r.times (lineEnd newline)) a b c d rest

end NginxRecord

theorem Plain.isWord {u : Bytes} (h : Plain u) : IsWord u := fun a ha => (h a ha).1

theorem Plain.no_quote {u : Bytes} (h : Plain u) : ch '"' ∉ u := fun hq => (h _ hq).2 rfl

theorem FreeText.no_quote {u : Bytes} (h : FreeText u) : ch '"' ∉ u := fun hq => (h.2 _ hq).1 rfl

theorem IsWord.no_space {u : Bytes} (h : IsWord u) : ch ' ' ∉ u :=
  fun hs => absurd (h _ hs) (by decide)

/-! ### Realigning the items

In each step the written part, which may contain the separator, is
compared by `cut_at` with the token the pattern found there. -/

/-- A user name with spaces pushes the time out of its place. -/
theorem user_aligned {y o c z t3 t4 t5 x : Bytes} (hy : ch '"' ∉ y) (ho : IsWord (ch '[' :: o))
    (ht3 : IsToken t3) (ht4 : IsToken t4) (ht5 : IsToken t5) (hzone : ZoneTok t5)
    (h : y ++ ch ' ' :: (ch '[' :: o ++ ch ' ' :: (c ++ ch ' ' :: z))
      = t3 ++ ch ' ' :: (t4 ++ ch ' ' :: (t5 ++ ch ' ' :: (ch '"' :: x)))) : y = t3 := by
  rcases cut_at (IsWord.no_space ht3.2) h.symm with ⟨hy3, -⟩ | ⟨y₁, hy₁, h₁⟩
  · exact hy3
  exfalso
  rcases cut_at (IsWord.no_space ht4.2) h₁ with ⟨-, hrest⟩ | ⟨y₂, hy₂, h₂⟩
  · -- the zone would be the opening of the time
    obtain ⟨d, -, rfl⟩ := hzone
    obtain ⟨heq, -⟩ := peel_space ho ht5.2 hrest
    exact absurd (List.head_eq_of_cons_eq heq) (by decide)
  rcases cut_at (IsWord.no_space ht5.2) h₂ with ⟨-, hrest⟩ | ⟨y₃, hy₃, h₃⟩
  · exact absurd (List.head_eq_of_cons_eq hrest) (by decide)
  · -- the opening quote of the request would be in the user name
    cases y₃ with
    | nil => exact absurd (List.head_eq_of_cons_eq h₃) (by decide)
    | cons b y₃ =>
        have hb : ch '"' = b := List.head_eq_of_cons_eq h₃
        apply hy
        rw [hy₁, hy₂, hy₃, ← hb]
        simp

theorem append_token_ne {u T v : Bytes} (hT : IsToken T) : u ++ T ≠ v ++ [ch ' '] := by
  intro h
  rcases List.eq_nil_or_concat T with rfl | ⟨T', b, rfl⟩
  · exact hT.1 rfl
  · rw [List.concat_eq_append, ← List.append_assoc] at h
    have hb := List.singleton_inj.mp (List.append_inj_right' h rfl)
    exact absurd (hT.2 b (by simp)) (by rw [hb]; decide)

theorem ThreeWords.runCount_le {u : Bytes} (h : ThreeWords u) : runCount isWord u ≤ 3 := by
  obtain ⟨x, w, y, w', z, hx, hw, hy, hw', hz, rfl⟩ := h
  have h₁ := runCount_run_gap_le (v := y ++ (w' ++ z)) hx.2 hw.1 hw.not_word
  have h₂ := runCount_run_gap_le (v := z) hy.2 hw'.1 hw'.not_word
  have h₃ := runCount_le_one hz.2
  omega

/-- The text from the request to the fourth quote behind it has four words
at least. -/
theorem four_le_runCount (q st sn rf X z : Bytes) :
    4 ≤ runCount isWord (q ++ ch '"' :: (ch ' ' :: (st ++ ch ' ' :: (sn ++ [ch ' '])) ++ ch '"' ::
      (rf ++ ch '"' :: (ch ' ' :: (bytes "rt=" ++ X ++ ch ' ' :: bytes "uct=") ++ z)))) := by
  have hsplit : q ++ ch '"' :: (ch ' ' :: (st ++ ch ' ' :: (sn ++ [ch ' '])) ++ ch '"' ::
      (rf ++ ch '"' :: (ch ' ' :: (bytes "rt=" ++ X ++ ch ' ' :: bytes "uct=") ++ z)))
      = (q ++ [ch '"']) ++ ch ' ' :: (st ++ ch ' ' :: (sn ++ ch ' ' :: (inQuotes rf ++ ch ' ' ::
        (bytes "rt=" ++ X ++ ch ' ' :: (bytes "uct=" ++ z))))) := by
    simp [inQuotes]
  have hspace : isWord (ch ' ') = false := by decide
  have hquote : isWord (ch '"') = true := by decide
  have c₁ : 0 < runCount isWord (q ++ [ch '"']) := runCount_pos hquote (by simp)
  have c₂ : 0 < runCount isWord (inQuotes rf) := runCount_pos hquote (by simp [inQuotes])
  have c₃ : 0 < runCount isWord (bytes "rt=" ++ X) :=
    runCount_pos (a := ch 'r') (by decide) (List.mem_append_left _ (by decide))
  have c₄ : 0 < runCount isWord (bytes "uct=" ++ z) :=
    runCount_pos (a := ch 'u') (by decide) (List.mem_append_left _ (by decide))
  rw [hsplit, runCount_append_cons hspace, runCount_append_cons hspace,
    runCount_append_cons hspace, runCount_append_cons hspace, runCount_append_cons hspace]
  omega

/-- The quote that closes the request is the first one after it: before
the next quote there is a space, before the one after it an item that is
no number, and any later one leaves more than three words in front. -/
theorem request_aligned {q st sn rf X U Z t9 v : Bytes} (hq : ch '"' ∉ q) (hst : Plain st)
    (hsn : Plain sn) (hrf : ch '"' ∉ rf) (hX : Plain X) (hZ : ThreeWords Z)
    (hlast : ∀ u, Z ≠ u ++ [ch ' ']) (ht9 : NumberTok t9)
    (h : q ++ ch '"' :: (ch ' ' :: (st ++ ch ' ' :: (sn ++ ch ' ' :: (inQuotes rf ++ ch ' ' ::
        (bytes "rt=" ++ X ++ ch ' ' :: (bytes "uct=" ++ ch '"' :: U))))))
      = Z ++ ch '"' :: (ch ' ' :: (t9 ++ ch ' ' :: v))) : Z = q := by
  rcases cut_at hq h with ⟨heq, -⟩ | ⟨z, rfl, h₁⟩
  · exact heq
  exfalso
  have h₁' : (ch ' ' :: (st ++ ch ' ' :: (sn ++ [ch ' ']))) ++ ch '"' :: (rf ++ ch '"' ::
      (ch ' ' :: (bytes "rt=" ++ X ++ ch ' ' :: (bytes "uct=" ++ ch '"' :: U))))
      = z ++ ch '"' :: (ch ' ' :: (t9 ++ ch ' ' :: v)) := by
    rw [← h₁]; simp [inQuotes]
  have hM : ch '"' ∉ ch ' ' :: (st ++ ch ' ' :: (sn ++ [ch ' '])) := by
    simp [hst.no_quote, hsn.no_quote, show ch '"' ≠ ch ' ' by decide]
  rcases cut_at hM h₁' with ⟨rfl, -⟩ | ⟨z₁, rfl, h₂⟩
  · exact hlast (q ++ ch '"' :: (ch ' ' :: (st ++ ch ' ' :: sn))) (by simp)
  rcases cut_at hrf h₂ with ⟨-, hrest⟩ | ⟨z₂, rfl, h₃⟩
  · have hne : t9 ≠ [] := by rintro rfl; exact absurd ht9.1 (by decide)
    obtain ⟨d, t, rfl⟩ := List.exists_cons_of_ne_nil hne
    have hd : d = ch 'r' := List.head_eq_of_cons_eq (List.tail_eq_of_cons_eq hrest)
    exact absurd (ht9.2 d (by simp)) (by rw [hd]; decide)
  -- from here on the text before the quote has four words at least
  have h₃' : (ch ' ' :: (bytes "rt=" ++ X ++ ch ' ' :: bytes "uct=")) ++ ch '"' :: U
      = z₂ ++ ch '"' :: (ch ' ' :: (t9 ++ ch ' ' :: v)) := by
    rw [← h₃]; simp
  have hM₃ : ch '"' ∉ ch ' ' :: (bytes "rt=" ++ X ++ ch ' ' :: bytes "uct=") := by
    have hrt : ch '"' ∉ bytes "rt=" := by decide
    have huct : ch '"' ∉ bytes "uct=" := by decide
    simp [hX.no_quote, hrt, huct, show ch '"' ≠ ch ' ' by decide]
  obtain ⟨z₃, rfl⟩ : ∃ z₃, z₂ = (ch ' ' :: (bytes "rt=" ++ X ++ ch ' ' :: bytes "uct=")) ++ z₃ := by
    rcases cut_at hM₃ h₃' with ⟨rfl, -⟩ | ⟨z₃, rfl, -⟩
    · exact ⟨[], by simp⟩
    · exact ⟨_, rfl⟩
  have hcount := hZ.runCount_le
  have hfour := four_le_runCount q st sn rf X z₃
  omega

theorem referer_aligned {rf t v v' : Bytes} (hrf : ch '"' ∉ rf) (ht : IsWord t)
    (h : rf ++ ch '"' :: (ch ' ' :: v) = t ++ ch '"' :: (ch ' ' :: v')) : t = rf ∧ v' = v := by
  rcases cut_at hrf h with ⟨heq, hrest⟩ | ⟨z, rfl, hz⟩
  · exact ⟨heq, List.tail_eq_of_cons_eq hrest⟩
  · cases z with
    | nil => exact absurd (List.head_eq_of_cons_eq hz) (by decide)
    | cons b z =>
        have hb : ch ' ' = b := List.head_eq_of_cons_eq hz
        exact absurd (ht b (by simp)) (by rw [← hb]; decide)

namespace NginxRecord

variable {r : NginxRecord} {newline : Bool} {a b c d rest : Bytes}

theorem exists_tokens_of_framed (h : r.Framed newline)
    (ht : FourWords (r.times (lineEnd newline)) a b c d rest) :
    ∃ t : AccessTokens, t.Valid ∧ r.line newline = t.line
      ∧ t.fields = { r.fields with uct := a, uht := b, urt := c, gz := d } := by
  obtain ⟨x, w, y, w', z, hx, hw, hy, hw', hz, hreq⟩ := h.request
  have hopen : IsToken (ch '"' :: x) := isToken_cons (by decide) hx.2
  have hclose : IsToken (z ++ [ch '"']) := isToken_concat hz.2 (by decide)
  have hnum : ∀ {T}, NumberTok T → T ≠ [] := by
    rintro _ ⟨hlen, -⟩ rfl
    exact absurd hlen (by decide)
  refine ⟨⟨⟨r.addr, r.ident, r.user, r.timeOpen, r.timeClose, ch '"' :: x, w, y, w',
    z ++ [ch '"'], r.status, r.sent, inQuotes r.referer, r.rtItem, a, b, c⟩, d, rest⟩,
    ⟨⟨⟨?_, hw, hw'⟩, ?_, ?_, ?_, ?_, h.status, h.sent, ?_⟩, ht.hd, ht.hrest⟩, ?_, ?_⟩
  · simp only [AccessHead.tokens, List.forall_mem_cons]
    exact ⟨⟨h.addr, r.addr_plain.isWord⟩, ⟨h.ident, r.ident_plain.isWord⟩, ⟨r.user_text.1, h.user⟩,
      isToken_timeOpen r.day_digits ⟨r.clock_plain.1, r.clock_plain.2.isWord⟩,
      isToken_timeClose r.zone_digits, hopen, hy, hclose, ⟨hnum h.status, r.status_plain.isWord⟩,
      ⟨hnum h.sent, r.sent_plain.isWord⟩, isToken_inQuotes h.referer,
      isToken_rtItem r.rt_plain.isWord, ht.ha, ht.hb, ht.hc, by simp⟩
  · exact ⟨r.day, r.clock, r.day_digits, r.clock_plain.1, rfl⟩
  · exact ⟨r.zone, r.zone_digits, rfl⟩
  · exact ⟨x, hx.1, rfl⟩
  · exact ⟨z, hz.1, rfl⟩
  · exact ⟨r.referer, r.referer_text.1, rfl⟩
  · have heq := ht.heq
    simp only [LogParts.times, unwords] at heq
    simp [line, LogParts.line, unwords, heq, AccessTokens.line, AccessHead.text, hreq, inQuotes]
  · simp [AccessTokens.fields, LogParts.fields, unwords, hreq, inQuotes]

theorem framed_of_tokens {t : AccessTokens} (ht : t.Valid) (h : r.line newline = t.line) :
    r.Framed newline := by
  obtain ⟨⟨t1, t2, t3, t4, t5, t6, w, t7, w', t8, t9, t10, t11, t12, t13, t14, t15⟩, t16, rest⟩ := t
  obtain ⟨⟨⟨htok, hw, hw'⟩, -, hzone, hopen, hclose, hstatus, hsent, hreferer⟩, hlast, hrest⟩ := ht
  simp only [AccessHead.tokens, List.forall_mem_cons] at htok
  obtain ⟨k1, k2, k3, k4, k5, k6, k7, k8, k9, k10, k11, k12, k13, k14, k15, -⟩ := htok
  obtain ⟨x, hx, rfl⟩ := hopen
  obtain ⟨z, hz, rfl⟩ := hclose
  obtain ⟨rf, hrf, rfl⟩ := hreferer
  have hx' : IsToken x := ⟨hx, fun a ha => k6.2 a (by simp [ha])⟩
  have hz' : IsToken z := ⟨hz, fun a ha => k8.2 a (by simp [ha])⟩
  have hrf' : IsWord rf := fun a ha => k11.2 a (by simp [ha])
  have hO := isToken_timeOpen r.day_digits ⟨r.clock_plain.1, r.clock_plain.2.isWord⟩
  have hC := isToken_timeClose r.zone_digits
  simp only [line, LogParts.line, unwords, AccessTokens.line, AccessHead.text] at h
  obtain ⟨e1, h⟩ := peel_space r.addr_plain.isWord k1.2 h
  obtain ⟨e2, h⟩ := peel_space r.ident_plain.isWord k2.2 h
  have e3 : r.user = t3 := user_aligned r.user_text.no_quote hO.2 k3 k4 k5 hzone (by
    simpa [LogParts.timeOpen] using h)
  rw [e3] at h
  obtain ⟨-, h⟩ := peel_space k3.2 k3.2 h
  obtain ⟨-, h⟩ := peel_space hO.2 k4.2 h
  obtain ⟨-, h⟩ := peel_space hC.2 k5.2 h
  have h3 : ThreeWords (x ++ (w ++ (t7 ++ (w' ++ z)))) :=
    ⟨x, w, t7, w', z, hx', hw, k7, hw', hz', rfl⟩
  have h' : r.request ++ ch '"' :: (ch ' ' :: (r.status ++ ch ' ' :: (r.sent ++ ch ' ' ::
      (inQuotes r.referer ++ ch ' ' :: (r.rtItem ++ ch ' ' :: r.times (lineEnd newline))))))
      = (x ++ (w ++ (t7 ++ (w' ++ z)))) ++ ch '"' :: (ch ' ' :: (t9 ++ ch ' ' :: (t10 ++ ch ' ' ::
        (inQuotes rf ++ ch ' ' :: (t12 ++ ch ' ' :: (t13 ++ ch ' ' :: (t14 ++ ch ' ' ::
          (t15 ++ ch ' ' :: (t16 ++ rest))))))))) := by
    simpa [inQuotes, LogParts.times, unwords] using h
  obtain ⟨U, hU⟩ := r.times_eq (lineEnd newline)
  have ereq := request_aligned (U := U) r.request_text.no_quote r.status_plain r.sent_plain
    r.referer_text.no_quote r.rt_plain h3
    (fun u => by simpa using append_token_ne (u := x ++ (w ++ (t7 ++ w'))) (v := u) hz') hstatus (by
      rw [← h', hU]
      rfl)
  rw [ereq] at h' h3
  have h' := List.tail_eq_of_cons_eq (List.tail_eq_of_cons_eq (List.append_cancel_left h'))
  obtain ⟨e9, h'⟩ := peel_space r.status_plain.isWord k9.2 h'
  obtain ⟨e10, h'⟩ := peel_space r.sent_plain.isWord k10.2 h'
  obtain ⟨e11, h'⟩ := referer_aligned r.referer_text.no_quote hrf' (by
    simpa [inQuotes] using List.tail_eq_of_cons_eq h')
  obtain ⟨-, h'⟩ := peel_space k12.2 (isToken_rtItem r.rt_plain.isWord).2 h'
  exact ⟨e1 ▸ k1.1, e2 ▸ k2.1, e3 ▸ k3.2, h3, e9 ▸ hstatus, e10 ▸ hsent, e11 ▸ hrf',
    t13, t14, t15, t16, rest, k13, k14, k15, hlast, hrest, by simpa [unwords] using h'.symm⟩

theorem matched_iff_framed :
    pregMatchAll accessLog (r.line newline) ≠ [] ↔ r.Framed newline := by
  rw [pregMatchAll, matchAll_ne_nil_iff]
  constructor
  · rintro ⟨t, ht, h⟩
    exact framed_of_tokens ht h
  · intro h
    obtain ⟨a, b, c, d, rest, ht⟩ := h.times
    obtain ⟨t, hv, hline, -⟩ := exists_tokens_of_framed h ht
    exact ⟨t, hv, hline⟩

/-- None of the four times has white space in it. -/
def TimesWord (r : NginxRecord) : Prop :=
  IsWord r.uct ∧ IsWord r.uht ∧ IsWord r.urt ∧ IsWord r.gz

theorem times_in_place_iff (ht : FourWords (r.times (lineEnd newline)) a b c d rest) :
    (a = item "uct" r.uct ∧ b = item "uht" r.uht ∧ c = item "urt" r.urt ∧ d = item "gz" r.gz)
      ↔ r.TimesWord := by
  have hi : ∀ {name : String} {u : Bytes}, IsWord (bytes name) → (IsToken (item name u) ↔ IsWord u) :=
    isToken_item_iff
  constructor
  · rintro ⟨rfl, rfl, rfl, rfl⟩
    exact ⟨(hi (by decide)).mp ht.ha, (hi (by decide)).mp ht.hb, (hi (by decide)).mp ht.hc,
      (hi (by decide)).mp ht.hd⟩
  · rintro ⟨h1, h2, h3, h4⟩
    have heq := ht.heq
    simp only [LogParts.times, unwords] at heq
    obtain ⟨e1, heq⟩ := peel_space ((hi (by decide)).mpr h1).2 ht.ha.2 heq
    obtain ⟨e2, heq⟩ := peel_space ((hi (by decide)).mpr h2).2 ht.hb.2 heq
    obtain ⟨e3, heq⟩ := peel_space ((hi (by decide)).mpr h3).2 ht.hc.2 heq
    obtain ⟨e4, -⟩ := run_unique ((hi (by decide)).mpr h4).2 ht.hd.2 (stops_lineEnd _) ht.hrest heq
    exact ⟨e1.symm, e2.symm, e3.symm, e4.symm⟩

/-- **When no value is filed under a wrong field.** Spaces in the user
name, the request or the referer do no harm: the line is not matched, or
the parts stay in place. A space in one of the four times shifts the
groups behind it, and the pattern, open at the end, still matches. -/
theorem no_wrong_field_iff (r : NginxRecord) (newline : Bool) :
    (pregMatchAll accessLog (r.line newline) = [] ∨ parseLine (r.line newline) = r.fields)
      ↔ (¬ r.Framed newline ∨ r.TimesWord) := by
  by_cases hf : r.Framed newline
  · have hmatch := matched_iff_framed.mpr hf
    obtain ⟨a, b, c, d, rest, ht⟩ := hf.times
    obtain ⟨t, hv, hline, hfields⟩ := exists_tokens_of_framed hf ht
    have hplace : parseLine (r.line newline) = r.fields ↔ r.TimesWord := by
      rw [hline, parseLine_line hv, hfields, ← times_in_place_iff ht]
      simp [LogParts.fields]
    simp only [hmatch, hf, not_true, false_or]
    exact hplace
  · have hmatch : pregMatchAll accessLog (r.line newline) = [] := by
      by_contra hne
      exact hf (matched_iff_framed.mp hne)
    simp [hmatch, hf]

/-- A request that two upstream servers were tried for. -/
def twoUpstreams : NginxRecord where
  addr := bytes "182.0.142.13"
  ident := bytes "-"
  user := bytes "-"
  day := bytes "04"
  clock := bytes "Aug/2021:13:33:41"
  zone := bytes "0700"
  request := bytes "GET /app/dcaf/ HTTP/1.1"
  status := bytes "200"
  sent := bytes "6559"
  referer := bytes "-"
  rt := bytes "0.772"
  uct := bytes "0.000, 0.001"
  uht := bytes "0.000, 0.766"
  urt := bytes "0.000, 0.772"
  gz := bytes "6.89"
  addr_plain := by decide
  ident_plain := by decide
  user_text := by decide
  day_digits := by decide
  clock_plain := by decide
  zone_digits := by decide
  request_text := by decide
  status_plain := by decide
  sent_plain := by decide
  referer_text := by decide
  rt_plain := by decide
  uct_text := by decide
  uht_text := by decide
  urt_text := by decide
  gz_text := by decide

theorem twoUpstreams_misfiled : ¬ (pregMatchAll accessLog (twoUpstreams.line true) = []
    ∨ parseLine (twoUpstreams.line true) = twoUpstreams.fields) := by
  decide +kernel

end NginxRecord

end Wahana
