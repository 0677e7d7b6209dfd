import Wahana.Csv
import Wahana.ExportCsv
import Wahana.Php

/-!
# Reading the exports back

What a reader of RFC 4180 makes of the exported files. `fputcsv` encloses
every field that needs it and doubles the quotes in it, with one
exception that the format does not have: a quote right behind a backslash
is written as it is.

- Without such a quote the text between the quotes is the one the format
  asks for (`escapeField_eq_doubleQuotes`), and the field is read back.
- With one, the first of them ends the field too early or keeps it open
  beyond its end (`field_ne_of_single_quote`), so the field is not read
  back, whatever follows.

Both meet in `readFrom_csvField_iff`, for one field. From there the rows
(`readCsv_exportRows_iff`) and the files (`exports_readBack_iff`) follow by
induction.
-/

namespace Wahana

/-! ## Escaped quotes -/

/-- A backslash and a double quote. -/
def escapedQuote : Bytes := [ch '\\', ch '"']

/-- No quote of the text is written with the flag set. -/
def Clear (escaped : Bool) (s : Bytes) : Prop :=
  (escaped = true → s.head? ≠ some (ch '"')) ∧ ¬ escapedQuote <:+: s

theorem escapedQuote_cons_iff {a : UInt8} {s : Bytes} :
    escapedQuote <:+: a :: s
      ↔ (a = ch '\\' ∧ s.head? = some (ch '"')) ∨ escapedQuote <:+: s := by
  rw [List.infix_cons_iff, escapedQuote, List.cons_prefix_cons]
  cases s with
  | nil => simp
  | cons b s => simp [List.cons_prefix_cons, eq_comm]

theorem clear_false_iff {s : Bytes} : Clear false s ↔ ¬ escapedQuote <:+: s := by
  simp [Clear]

/-- Behind a backslash the flag is set. -/
theorem clear_backslash_iff {e : Bool} {s : Bytes} :
    Clear e (ch '\\' :: s) ↔ Clear true s := by
  have hne : ch '\\' ≠ ch '"' := by decide
  simp [Clear, escapedQuote_cons_iff, hne]

theorem clear_cons_iff {e : Bool} {b : UInt8} {s : Bytes} (hb : b ≠ ch '\\')
    (hq : e = true → b ≠ ch '"') : Clear e (b :: s) ↔ Clear false s := by
  simp [Clear, escapedQuote_cons_iff, hb]
  exact fun _ => hq

/-! ## One field -/

theorem escapeField_backslash (e : Bool) (s : Bytes) :
    escapeField e (ch '\\' :: s) = ch '\\' :: escapeField true s := rfl

theorem escapeField_quote (s : Bytes) :
    escapeField false (ch '"' :: s) = ch '"' :: ch '"' :: escapeField false s := rfl

theorem escapeField_escaped (s : Bytes) :
    escapeField true (ch '"' :: s) = ch '"' :: escapeField false s := rfl

theorem escapeField_other {b : UInt8} (hb : b ≠ ch '\\') (hq : b ≠ ch '"') (e : Bool) (s : Bytes) :
    escapeField e (b :: s) = b :: escapeField false s := by
  simp [escapeField, hb, hq]

/-- Induction along the loop of `escapeField`. -/
theorem escape_induction {P : Bool → Bytes → Prop} (nil : ∀ e, P e [])
    (backslash : ∀ e s, P true s → P e (ch '\\' :: s))
    (quote : ∀ s, P false s → P false (ch '"' :: s))
    (escaped : ∀ s, P false s → P true (ch '"' :: s))
    (other : ∀ e b s, b ≠ ch '\\' → b ≠ ch '"' → P false s → P e (b :: s)) :
    ∀ e s, P e s
  | e, [] => nil e
  | e, b :: s => by
      have ih := fun e => escape_induction nil backslash quote escaped other e s
      by_cases hb : b = ch '\\'
      · subst hb
        exact backslash e s (ih true)
      · by_cases hq : b = ch '"'
        · subst hq
          cases e with
          | false => exact quote s (ih false)
          | true => exact escaped s (ih false)
        · exact other e b s hb hq (ih false)

theorem escapeField_eq_doubleQuotes (e : Bool) (s : Bytes) :
    Clear e s → escapeField e s = doubleQuotes s := by
  induction e, s using escape_induction with
  | nil e => exact fun _ => rfl
  | backslash e s ih =>
      intro h
      rw [escapeField_backslash, ih (clear_backslash_iff.mp h)]
      rfl
  | quote s ih =>
      intro h
      rw [escapeField_quote, ih ((clear_cons_iff (by decide) (by simp)).mp h)]
      rfl
  | escaped s ih => exact fun h => absurd rfl (h.1 rfl)
  | other e b s hb hq ih =>
      intro h
      rw [escapeField_other hb hq, ih ((clear_cons_iff hb fun _ => hq).mp h)]
      simp [doubleQuotes, hq]

theorem exists_escapeField_cons {b : UInt8} (hq : b ≠ ch '"') (e : Bool) (s : Bytes) :
    ∃ w, escapeField e (b :: s) = b :: w := by
  by_cases hb : b = ch '\\'
  · subst hb
    exact ⟨_, escapeField_backslash e s⟩
  · exact ⟨_, escapeField_other hb hq e s⟩

/-- A quote that is not doubled, and the text behind it. If the next byte
is no quote the field ends here. Otherwise the two are taken for one, and
the same question comes up behind them; at the end of the field it is the
closing quote that is taken, and the separator becomes part of the field. -/
theorem field_ne_of_single_quote {c : UInt8} (hc : c ≠ ch '"') (v : Bytes) :
    ∀ (s : Bytes) {x : Reading},
      readFrom .closing (escapeField false s ++ ch '"' :: c :: v) = some x →
        x.field ≠ ch '"' :: s
  | [], x, h => by
      rw [escapeField, List.nil_append, readFrom_closing_quote, readFrom_push (on_quoted hc),
        map_append_append] at h
      obtain ⟨y, -, rfl⟩ := Option.map_eq_some_iff.mp h
      simp [Reading.append]
  | b :: s, x, h => by
      by_cases hq : b = ch '"'
      · subst hq
        rw [escapeField_quote, List.cons_append, List.cons_append, readFrom_closing_quote,
          readFrom_quoted_quote] at h
        obtain ⟨y, hy, rfl⟩ := Option.map_eq_some_iff.mp h
        have ih := field_ne_of_single_quote hc v s hy
        intro heq
        exact ih (List.tail_eq_of_cons_eq heq)
      · obtain ⟨w, hw⟩ := exists_escapeField_cons hq false s
        rw [hw, List.cons_append] at h
        rw [field_closing hq h]
        simp

theorem clear_of_readFrom {c : UInt8} (hc : c ≠ ch '"') (v : Bytes) (e : Bool) (s : Bytes) :
    ∀ {x : Reading}, readFrom .quoted (escapeField e s ++ ch '"' :: c :: v) = some x →
      x.field = s → Clear e s := by
  induction e, s using escape_induction with
  | nil e =>
      intro x _ _
      exact ⟨by simp, by decide⟩
  | backslash e s ih =>
      intro x h hfield
      rw [escapeField_backslash, List.cons_append, readFrom_push (on_quoted (by decide))] at h
      obtain ⟨y, hy, rfl⟩ := Option.map_eq_some_iff.mp h
      exact clear_backslash_iff.mpr (ih hy (List.tail_eq_of_cons_eq hfield))
  | quote s ih =>
      intro x h hfield
      rw [escapeField_quote, List.cons_append, List.cons_append, readFrom_quoted_quote,
        readFrom_closing_quote] at h
      obtain ⟨y, hy, rfl⟩ := Option.map_eq_some_iff.mp h
      have hs := ih hy (List.tail_eq_of_cons_eq hfield)
      exact (clear_cons_iff (by decide) (by simp)).mpr hs
  | escaped s ih =>
      intro x h hfield
      rw [escapeField_escaped, List.cons_append, readFrom_quoted_quote] at h
      exact absurd hfield (field_ne_of_single_quote hc v s h)
  | other e b s hb hq ih =>
      intro x h hfield
      rw [escapeField_other hb hq, List.cons_append, readFrom_push (on_quoted hq)] at h
      obtain ⟨y, hy, rfl⟩ := Option.map_eq_some_iff.mp h
      have hs := ih hy (List.tail_eq_of_cons_eq hfield)
      exact (clear_cons_iff hb fun _ => hq).mpr hs

theorem needsEnclosure_eq_false_iff {s : Bytes} :
    needsEnclosure s = false ↔ ∀ b ∈ s, b ∉ enclosedBytes := by
  simp [needsEnclosure]

/-- A field that is not enclosed is plain, and has no quote in it. -/
theorem plain_of_not_enclosed {s : Bytes} (h : needsEnclosure s = false) :
    (∀ b ∈ s, isPlain b = true) ∧ ¬ escapedQuote <:+: s := by
  rw [needsEnclosure_eq_false_iff] at h
  refine ⟨?_, ?_⟩
  · intro b hb
    have hnot := h b hb
    simp only [enclosedBytes, List.mem_cons, not_or] at hnot
    simp [isPlain, hnot]
  · intro hinfix
    have hmem : ch '"' ∈ s := hinfix.subset (by simp [escapedQuote])
    exact h _ hmem (by decide)

section

variable {c : UInt8} {s field : Bytes} {fields : List Bytes} {rows : List (List Bytes)}

/-- **One field.** It is read back exactly if it has no quote behind a
backslash. -/
theorem readFrom_csvField_iff (hc : c = ch ',' ∨ c = ch '\n') :
    readFrom .start (csvField field ++ c :: s) = some ⟨field, fields, rows⟩
      ↔ ¬ escapedQuote <:+: field ∧ readFrom .closing (c :: s) = some ⟨[], fields, rows⟩ := by
  have hquote : c ≠ ch '"' := by
    rcases hc with rfl | rfl
    · decide
    · decide
  cases henc : needsEnclosure field with
  | false =>
      obtain ⟨hplain, hclear⟩ := plain_of_not_enclosed henc
      rw [csvField, if_neg (by simp [henc]), (readFrom_plain hplain hc s).1,
        map_append_eq_some_iff]
      exact ⟨fun h => ⟨hclear, h⟩, fun h => h.2⟩
  | true =>
      have htext : csvField field ++ c :: s
          = ch '"' :: (escapeField false field ++ ch '"' :: c :: s) := by
        simp [csvField, henc]
      rw [htext, ← clear_false_iff]
      constructor
      · intro h
        have hclear : Clear false field := by
          rw [readFrom_skip (show CsvMode.start.on (ch '"') = some (.skip .quoted) from rfl)] at h
          exact clear_of_readFrom hquote s false field h rfl
        rw [escapeField_eq_doubleQuotes false field hclear, readFrom_quote,
          map_append_eq_some_iff] at h
        exact ⟨hclear, h⟩
      · intro h
        obtain ⟨hclear, h⟩ := h
        rw [escapeField_eq_doubleQuotes false field hclear, readFrom_quote, h]
        simp [Reading.append]

/-! ## Rows and files -/

theorem readFrom_csvFields_iff : ∀ {field : Bytes} {fields : List Bytes},
    readFrom .start (csvFields (field :: fields) ++ ch '\n' :: s) = some ⟨field, fields, rows⟩
      ↔ (∀ v ∈ field :: fields, ¬ escapedQuote <:+: v) ∧ readCsv s = some rows
  | field, [] => by
      rw [csvFields, readFrom_csvField_iff (.inr rfl), readFrom_newline rfl,
        List.forall_mem_singleton]
      simp
  | field, next :: fields => by
      rw [csvFields, List.append_assoc, List.cons_append, readFrom_csvField_iff (.inl rfl),
        readFrom_comma rfl, map_next_eq_some_iff, readFrom_csvFields_iff,
        List.forall_mem_cons (l := next :: fields), and_assoc]

theorem fputcsv_some (row : List Bytes) : fputcsv (row.map some) = csvFields row ++ [ch '\n'] := by
  simp [fputcsv, Function.comp_def]

theorem readCsv_exportRows_iff : ∀ {rows : List (List Bytes)}, (∀ row ∈ rows, row ≠ []) →
    (readCsv (exportRows (rows.map fun row => row.map some)) = some rows
      ↔ ∀ row ∈ rows, ∀ v ∈ row, ¬ escapedQuote <:+: v)
  | [], _ => by simp [exportRows, readCsv]
  | row :: rows, hne => by
      obtain ⟨hrow, hrows⟩ := List.forall_mem_cons.mp hne
      obtain ⟨field, fields, rfl⟩ := List.exists_cons_of_ne_nil hrow
      have htext : exportRows (((field :: fields) :: rows).map fun row => row.map some)
          = csvFields (field :: fields)
            ++ ch '\n' :: exportRows (rows.map fun row => row.map some) := by
        rw [List.map_cons, exportRows, if_neg (by simp), fputcsv_some]
        simp
      rw [htext, readCsv_eq_some_cons_iff (by simp), readFrom_csvFields_iff,
        readCsv_exportRows_iff hrows, List.forall_mem_cons (l := rows)]

end

/-- The emitted bytes after the header line. -/
def dataLines (r : Response) : Bytes := (takeLine r.output).2.2

/-- The rows are read back, all of them and nothing else. -/
def ReadsBack (r : Response) (rows : List (List Bytes)) : Prop := readCsv (dataLines r) = some rows

instance (r : Response) (rows : List (List Bytes)) : Decidable (ReadsBack r rows) :=
  inferInstanceAs (Decidable (_ = _))

theorem readsBack_exportCsv_iff {filename : String} {titles : List String}
    (htitles : ch '\n' ∉ csvFields (titles.map bytes)) (button : Bytes) (result : ResultSet Bytes) :
    ReadsBack (exportCsv filename titles (some button) (result.map some)) result.rows
      ↔ ∀ row ∈ result.rows, ∀ v ∈ row, ¬ escapedQuote <:+: v := by
  have hne : ∀ row ∈ result.rows, row ≠ [] := by
    intro row hrow hnil
    have hwidth := result.width row hrow
    have hpos := result.columns_pos
    rw [hnil, List.length_nil] at hwidth
    omega
  have hdata : dataLines (exportCsv filename titles (some button) (result.map some))
      = exportRows (result.rows.map fun row => row.map some) := by
    have hline := takeLine_line htitles (exportRows (result.rows.map fun row => row.map some))
    have htext := fputcsv_some (titles.map bytes)
    rw [List.map_map] at htext
    show (takeLine (fputcsv (titles.map (some ∘ bytes)) ++ _)).2.2 = _
    rw [htext, List.append_assoc]
    exact congrArg (fun x => x.2.2) hline
  rw [ReadsBack, hdata, readCsv_exportRows_iff hne]

/-- **When an export is read back.** `fputcsv` leaves a quote behind a
backslash undoubled. The rows of both exports are read back if and only if
no value has such a quote. -/
theorem exports_readBack_iff (button : Bytes) (result : ResultSet Bytes) :
    (ReadsBack (exportCsvNginx (some button) (result.map some)) result.rows
      ↔ ∀ row ∈ result.rows, ∀ v ∈ row, ¬ escapedQuote <:+: v)
    ∧ (ReadsBack (exportCsvUwsgi (some button) (result.map some)) result.rows
      ↔ ∀ row ∈ result.rows, ∀ v ∈ row, ¬ escapedQuote <:+: v) :=
  ⟨readsBack_exportCsv_iff (by decide) button result,
    readsBack_exportCsv_iff (by decide) button result⟩

/-- Two rows, one with a request that ends in a backslash. -/
def backslashRows : ResultSet Bytes where
  columns := 3
  columns_pos := by decide
  rows := [[bytes "1", bytes "0", bytes "\"GET /a\\\""], [bytes "2", bytes "1", bytes "-"]]
  width := by decide
  limit := by decide

/-- The quoted field takes up the next row and is open at the end. -/
theorem backslashRows_not_readBack :
    ¬ ReadsBack (exportCsvNginx (some (bytes "CSV Export")) (backslashRows.map some))
      backslashRows.rows := by
  decide +kernel

end Wahana
