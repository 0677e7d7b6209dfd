import Wahana.Bytes

/-!
# Reading comma-separated values

A reader for the format of RFC 4180, as a machine that takes a byte at a
time. A field is plain text, or text between double quotes in which two
quotes stand for one and every other byte for itself; fields are
separated by commas and rows end in a line feed or in a carriage return
and a line feed, which may be missing at the end of the text. Text that
is not of this format has no reading.

`CsvMode.on` is the machine, `readFrom` its run. The run returns what is
still to come of the current field, of the current row and of the text,
so what a piece of text contributes stands in front of the reading of
the rest: `readFrom_quote` is that for a quoted field, `readFrom_plain`
for plain text, and `readFrom_comma` and `readFrom_newline` for the two
separators.
-/

namespace Wahana

/-! ## The machine -/

/-- Where the reader is: at the start of a field, inside a plain or a
quoted one, behind a quote inside a quoted one, or behind a carriage
return. -/
inductive CsvMode where
  | start
  | plain
  | quoted
  | closing
  | cr
  deriving DecidableEq, Repr

/-- What a byte does: it is dropped, it belongs to the field, or it ends
the field or the row. -/
inductive CsvAction where
  | skip (m : CsvMode)
  | push (m : CsvMode)
  | comma
  | newline
  deriving DecidableEq, Repr

/-- A byte that ends a field. -/
def separator? (b : UInt8) : Option CsvAction :=
  if b = ch ',' then some .comma
  else if b = ch '\n' then some .newline
  else if b = ch '\r' then some (.skip .cr)
  else none

def CsvMode.on : CsvMode → UInt8 → Option CsvAction
  | start, b =>
      if b = ch '"' then some (.skip quoted) else (separator? b).or (some (.push plain))
  | plain, b => if b = ch '"' then none else (separator? b).or (some (.push plain))
  | quoted, b => if b = ch '"' then some (.skip closing) else some (.push quoted)
  | closing, b => if b = ch '"' then some (.push quoted) else separator? b
  | cr, b => if b = ch '\n' then some .newline else none

/-- The text may end here. -/
def CsvMode.ends : CsvMode → Bool
  | start | plain | closing => true
  | quoted | cr => false

/-- What is still to come: of the field, of the row and of the text. -/
structure Reading where
  field : Bytes
  fields : List Bytes
  rows : List (List Bytes)
  deriving DecidableEq, Repr

namespace Reading

def all (x : Reading) : List (List Bytes) := (x.field :: x.fields) :: x.rows

/-- The bytes come in front of the field. -/
def append (u : Bytes) (x : Reading) : Reading := { x with field := u ++ x.field }

/-- The field is over. -/
def next (x : Reading) : Reading := ⟨[], x.field :: x.fields, x.rows⟩

end Reading

def readFrom : CsvMode → Bytes → Option Reading
  | m, [] => if m.ends then some ⟨[], [], []⟩ else none
  | m, b :: s =>
      match m.on b with
      | none => none
      | some (.skip m') => readFrom m' s
      | some (.push m') => (readFrom m' s).map (Reading.append [b])
      | some .comma => (readFrom .start s).map Reading.next
      | some .newline =>
          if s = [] then some ⟨[], [], []⟩
          else (readFrom .start s).map fun x => ⟨[], [], x.all⟩

/-- The rows of a text. -/
def readCsv (s : Bytes) : Option (List (List Bytes)) :=
  if s = [] then some [] else (readFrom .start s).map Reading.all

theorem readCsv_eq_some_cons_iff {s field : Bytes} (hs : s ≠ []) {fields : List Bytes}
    {rows : List (List Bytes)} :
    readCsv s = some ((field :: fields) :: rows)
      ↔ readFrom .start s = some ⟨field, fields, rows⟩ := by
  rw [readCsv, if_neg hs, Option.map_eq_some_iff]
  constructor
  · intro h
    obtain ⟨⟨field', fields', rows'⟩, hread, hall⟩ := h
    simp only [Reading.all, List.cons.injEq] at hall
    obtain ⟨⟨rfl, rfl⟩, rfl⟩ := hall
    exact hread
  · intro hread
    exact ⟨_, hread, rfl⟩

/-! ## Separators -/

theorem on_separator {m : CsvMode} (hm : m.ends = true) {b : UInt8} {a : CsvAction}
    (h : separator? b = some a) : m.on b = some a := by
  have hb : b ≠ ch '"' := by
    intro hb
    rw [hb, show separator? (ch '"') = none from rfl] at h
    cases h
  cases m with
  | start | plain | closing => simp [CsvMode.on, hb, h]
  | quoted | cr => cases hm

theorem readFrom_comma {m : CsvMode} (hm : m.ends = true) (s : Bytes) :
    readFrom m (ch ',' :: s) = (readFrom .start s).map Reading.next := by
  rw [readFrom, on_separator hm (show separator? (ch ',') = some .comma from rfl)]

theorem readFrom_newline {m : CsvMode} (hm : m.ends = true) (s : Bytes) :
    readFrom m (ch '\n' :: s) = (readCsv s).map fun rows => ⟨[], [], rows⟩ := by
  rw [readFrom, on_separator hm (show separator? (ch '\n') = some .newline from rfl), readCsv]
  by_cases hs : s = []
  · simp [hs]
  · simp [hs, Function.comp_def]

theorem map_next_eq_some_iff {o : Option Reading} {field : Bytes} {fields : List Bytes}
    {rows : List (List Bytes)} :
    o.map Reading.next = some ⟨[], field :: fields, rows⟩ ↔ o = some ⟨field, fields, rows⟩ := by
  cases o with
  | none => simp
  | some x =>
      obtain ⟨field', fields', rows'⟩ := x
      simp [Reading.next, and_assoc]

/-- The mode does not matter where a field ends. -/
theorem readFrom_ends {m : CsvMode} (hm : m.ends = true) {c : UInt8} (hc : c = ch ',' ∨ c = ch '\n')
    (s : Bytes) : readFrom m (c :: s) = readFrom .closing (c :: s) := by
  rcases hc with rfl | rfl
  · rw [readFrom_comma hm, readFrom_comma rfl]
  · rw [readFrom_newline hm, readFrom_newline rfl]

/-! ## Fields -/

theorem map_append_append (u v : Bytes) (x : Option Reading) :
    (x.map (Reading.append v)).map (Reading.append u) = x.map (Reading.append (u ++ v)) := by
  cases x with
  | none => rfl
  | some x => simp [Reading.append]

theorem map_append_nil (x : Option Reading) : x.map (Reading.append []) = x := by
  cases x <;> rfl

theorem map_append_eq_some_iff {u : Bytes} {o : Option Reading} {fields : List Bytes}
    {rows : List (List Bytes)} :
    o.map (Reading.append u) = some ⟨u, fields, rows⟩ ↔ o = some ⟨[], fields, rows⟩ := by
  cases o with
  | none => simp
  | some x =>
      obtain ⟨field, fields', rows'⟩ := x
      simp [Reading.append]

theorem readFrom_push {m m' : CsvMode} {b : UInt8} (h : m.on b = some (.push m')) (s : Bytes) :
    readFrom m (b :: s) = (readFrom m' s).map (Reading.append [b]) := by
  rw [readFrom, h]

theorem readFrom_skip {m m' : CsvMode} {b : UInt8} (h : m.on b = some (.skip m')) (s : Bytes) :
    readFrom m (b :: s) = readFrom m' s := by
  rw [readFrom, h]

theorem readFrom_quoted_quote (s : Bytes) :
    readFrom .quoted (ch '"' :: s) = readFrom .closing s :=
  readFrom_skip rfl s

theorem readFrom_closing_quote (s : Bytes) :
    readFrom .closing (ch '"' :: s) = (readFrom .quoted s).map (Reading.append [ch '"']) :=
  readFrom_push rfl s

theorem on_quoted {b : UInt8} (h : b ≠ ch '"') : CsvMode.quoted.on b = some (.push .quoted) :=
  if_neg h

/-- The text that stands for `s` between quotes. -/
def doubleQuotes (s : Bytes) : Bytes := s.flatMap fun b => if b = ch '"' then [b, b] else [b]

theorem readFrom_doubleQuotes : ∀ (u v : Bytes),
    readFrom .quoted (doubleQuotes u ++ v) = (readFrom .quoted v).map (Reading.append u)
  | [], v => (map_append_nil _).symm
  | b :: u, v => by
      have ih := readFrom_doubleQuotes u v
      have hpush : (readFrom .quoted (doubleQuotes u ++ v)).map (Reading.append [b])
          = (readFrom .quoted v).map (Reading.append (b :: u)) := by
        rw [ih, map_append_append]
        rfl
      by_cases hb : b = ch '"'
      · have htext : doubleQuotes (b :: u) ++ v
            = ch '"' :: ch '"' :: (doubleQuotes u ++ v) := by
          simp [doubleQuotes, hb]
        rw [htext, readFrom_quoted_quote, readFrom_closing_quote, ← hpush, hb]
      · have htext : doubleQuotes (b :: u) ++ v = b :: (doubleQuotes u ++ v) := by
          simp [doubleQuotes, hb]
        rw [htext, readFrom_push (on_quoted hb), hpush]

/-- A quoted field, up to its closing quote. -/
theorem readFrom_quote (u v : Bytes) :
    readFrom .start (ch '"' :: (doubleQuotes u ++ ch '"' :: v))
      = (readFrom .closing v).map (Reading.append u) := by
  rw [readFrom_skip (show CsvMode.start.on (ch '"') = some (.skip .quoted) from rfl),
    readFrom_doubleQuotes, readFrom_quoted_quote]

theorem field_newline {s : Bytes} {x : Reading} (h : readFrom .cr s = some x) : x.field = [] := by
  cases s with
  | nil => cases h
  | cons b s =>
      by_cases hb : b = ch '\n'
      · subst hb
        have hread : readFrom .cr (ch '\n' :: s) = readFrom .closing (ch '\n' :: s) := rfl
        rw [hread, readFrom_newline rfl] at h
        obtain ⟨rows, -, rfl⟩ := Option.map_eq_some_iff.mp h
        rfl
      · have hon : CsvMode.cr.on b = none := if_neg hb
        rw [readFrom, hon] at h
        cases h

/-- Behind the closing quote nothing more comes of the field. -/
theorem field_closing {b : UInt8} (hb : b ≠ ch '"') {s : Bytes} {x : Reading}
    (h : readFrom .closing (b :: s) = some x) : x.field = [] := by
  have hon : CsvMode.closing.on b = separator? b := if_neg hb
  by_cases hcomma : b = ch ','
  · rw [hcomma, readFrom_comma rfl] at h
    obtain ⟨y, -, rfl⟩ := Option.map_eq_some_iff.mp h
    rfl
  · by_cases hlf : b = ch '\n'
    · rw [hlf, readFrom_newline rfl] at h
      obtain ⟨rows, -, rfl⟩ := Option.map_eq_some_iff.mp h
      rfl
    · by_cases hcr : b = ch '\r'
      · rw [hcr, readFrom_skip (show CsvMode.closing.on (ch '\r') = some (.skip .cr) from rfl)] at h
        exact field_newline h
      · have hnone : separator? b = none := by simp [separator?, hcomma, hlf, hcr]
        rw [readFrom, hon, hnone] at h
        cases h

/-- Neither a quote nor part of a separator. -/
def isPlain (b : UInt8) : Bool := b != ch '"' && b != ch ',' && b != ch '\n' && b != ch '\r'

theorem on_plain {b : UInt8} (h : isPlain b = true) :
    CsvMode.start.on b = some (.push .plain) ∧ CsvMode.plain.on b = some (.push .plain) := by
  simp only [isPlain, Bool.and_eq_true, bne_iff_ne] at h
  obtain ⟨⟨⟨hquote, hcomma⟩, hlf⟩, hcr⟩ := h
  simp [CsvMode.on, separator?, hquote, hcomma, hlf, hcr]

/-- A plain field, up to its separator. -/
theorem readFrom_plain {u : Bytes} (hu : ∀ b ∈ u, isPlain b = true) {c : UInt8}
    (hc : c = ch ',' ∨ c = ch '\n') (s : Bytes) :
    readFrom .start (u ++ c :: s) = (readFrom .closing (c :: s)).map (Reading.append u)
    ∧ readFrom .plain (u ++ c :: s) = (readFrom .closing (c :: s)).map (Reading.append u) := by
  induction u with
  | nil =>
      rw [map_append_nil]
      exact ⟨readFrom_ends rfl hc s, readFrom_ends rfl hc s⟩
  | cons b u ih =>
      obtain ⟨hb, hu⟩ := List.forall_mem_cons.mp hu
      obtain ⟨hstart, hplain⟩ := on_plain hb
      obtain ⟨-, ih⟩ := ih hu
      have hpush : (readFrom .plain (u ++ c :: s)).map (Reading.append [b])
          = (readFrom .closing (c :: s)).map (Reading.append (b :: u)) := by
        rw [ih, map_append_append]
        rfl
      exact ⟨(readFrom_push hstart _).trans hpush, (readFrom_push hplain _).trans hpush⟩

end Wahana
