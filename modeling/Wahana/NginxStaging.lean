import Wahana.NginxPattern
import Wahana.NginxRun

/-!
# Staging a record through JSON

The values of a line are encoded, `SET`, read back and decoded before the
document is built. The encoder refuses a value that is not valid UTF-8,
and its failure is passed on unchecked, so the document either carries
all values as they were parsed (`bodyOf_staged`) or eleven `null`s
(`bodyOf_staged_of_invalid`). The pattern cuts the line at ASCII bytes
only, so on a line of valid UTF-8 every value is valid
(`validUtf8_parseLine`). `staging_lossless` collects this for the
requests of the loop.
-/

namespace Wahana

/-- The document that carries the parsed values. -/
def NginxFields.toBody (f : NginxFields) : NginxBody where
  ip_address := some f.ip_address
  date := some f.date
  method := some f.method
  status := some f.status
  ping := some f.ping
  site_url := some f.site
  rt := some f.rt
  uct := some f.uct
  uht := some f.uht
  urt := some f.urt
  gz := some f.gz

theorem bodyOf_staged {f : NginxFields} (h : ∀ x ∈ f.toArray, ValidUtf8 x) :
    bodyOf (some (staged f)) = f.toBody := by
  obtain ⟨t, ht⟩ := exists_jsonEncode h
  have hdecode := jsonDecode_jsonEncode ht
  have hstaged : staged f = t := by rw [staged, ht]; rfl
  rw [hstaged, bodyOf, Option.bind_some, hdecode]
  rfl

/-- The fields of the document, in the order of the values. -/
def NginxBody.values (b : NginxBody) : List (Option Bytes) :=
  [b.ip_address, b.date, b.method, b.status, b.ping, b.site_url, b.rt, b.uct, b.uht, b.urt, b.gz]

theorem values_toBody (f : NginxFields) : f.toBody.values = f.toArray.map some := rfl

/-- A failed `json_encode` is `SET` as the empty string, which is no JSON
text, so every field is read from `null`. -/
theorem bodyOf_staged_of_invalid {f : NginxFields} (h : ∃ x ∈ f.toArray, ¬ ValidUtf8 x) :
    (bodyOf (some (staged f))).values = List.replicate 11 none := by
  obtain ⟨x, hx, hinvalid⟩ := h
  have hstaged : staged f = [] := by
    unfold staged
    cases ht : jsonEncode f.toArray with
    | none => rfl
    | some t => exact absurd (validUtf8_of_jsonEncode ht x hx) hinvalid
  rw [hstaged]
  rfl

theorem validUtf8_nil : ValidUtf8 [] := ⟨[], rfl⟩

theorem ValidUtf8.cut_space {u v : Bytes} (h : ValidUtf8 (u ++ ch ' ' :: v)) :
    ValidUtf8 u ∧ ValidUtf8 v :=
  h.cut (by decide)

/-- A run ends in front of an ASCII byte. -/
theorem ValidUtf8.cut_rest {u v : Bytes} (h : ValidUtf8 (u ++ v)) (hv : Stops isWord v) :
    ValidUtf8 u := by
  cases v with
  | nil => rwa [List.append_nil] at h
  | cons a v =>
      have ha : isSpace a = true := by
        have hstop : isWord a = false := hv a rfl
        simpa [isWord] using hstop
      refine (h.cut ?_).1
      rcases isSpace_iff.mp ha with rfl | rfl | rfl | rfl | rfl | rfl <;> decide

theorem validUtf8_fields {t : AccessTokens} (ht : t.Valid) (h : ValidUtf8 t.line) :
    ∀ x ∈ t.fields.toArray, ValidUtf8 x := by
  obtain ⟨⟨t1, t2, t3, t4, t5, t6, w, t7, w', t8, t9, t10, t11, t12, t13, t14, t15⟩, t16, rest⟩ := t
  have hline : ValidUtf8 (t1 ++ ch ' ' :: (t2 ++ ch ' ' :: (t3 ++ ch ' ' ::
      ((t4 ++ ch ' ' :: t5) ++ ch ' ' :: ((t6 ++ (w ++ (t7 ++ (w' ++ t8)))) ++ ch ' ' ::
        (t9 ++ ch ' ' :: (t10 ++ ch ' ' :: (t11 ++ ch ' ' :: (t12 ++ ch ' ' :: (t13 ++ ch ' ' ::
          (t14 ++ ch ' ' :: (t15 ++ ch ' ' :: (t16 ++ rest))))))))))))) := by
    simpa [AccessTokens.line, AccessHead.text] using h
  obtain ⟨v1, h⟩ := hline.cut_space
  obtain ⟨-, h⟩ := h.cut_space
  obtain ⟨-, h⟩ := h.cut_space
  obtain ⟨v4, h⟩ := h.cut_space
  obtain ⟨v5, h⟩ := h.cut_space
  obtain ⟨v6, h⟩ := h.cut_space
  obtain ⟨v7, h⟩ := h.cut_space
  obtain ⟨v8, h⟩ := h.cut_space
  obtain ⟨v9, h⟩ := h.cut_space
  obtain ⟨v10, h⟩ := h.cut_space
  obtain ⟨v11, h⟩ := h.cut_space
  obtain ⟨v12, h⟩ := h.cut_space
  have v13 := h.cut_rest ht.rest
  simp only [AccessTokens.fields, NginxFields.toArray, List.forall_mem_cons]
  exact ⟨v1, v4, v5, v6, v7, v8, v9, v10, v11, v12, v13, by simp⟩

theorem validUtf8_parseLine {line : Bytes} (h : ValidUtf8 line) :
    ∀ x ∈ (parseLine line).toArray, ValidUtf8 x := by
  by_cases hmatch : accessLog.matchAll line = []
  · have hnone : (parseLine line).toArray = List.replicate 11 [] := by
      rw [parseLine, pregMatchAll, hmatch]
      rfl
    intro x hx
    rw [hnone] at hx
    rw [List.eq_of_mem_replicate hx]
    exact validUtf8_nil
  · obtain ⟨t, ht, rfl⟩ := matchAll_ne_nil_iff.mp hmatch
    rw [parseLine_line ht]
    exact validUtf8_fields ht h

/-- The document built for a line of valid UTF-8, from its own staged
text. -/
theorem bodyOf_staged_parseLine {line : Bytes} (h : ValidUtf8 line) :
    bodyOf (some (staged (parseLine line))) = (parseLine line).toBody :=
  bodyOf_staged (validUtf8_parseLine h)

/-! ## The document of a line -/

/-- The values kept of a line: captures 1 and 4 to 13 if the pattern
matches, eleven empty strings otherwise. -/
def kept (line : Bytes) : List Bytes :=
  match pregMatchAll accessLog line with
  | [] => List.replicate 11 []
  | m :: _ => [1, 4, 5, 6, 7, 8, 9, 10, 11, 12, 13].map m.group

theorem toArray_parseLine (line : Bytes) : (parseLine line).toArray = kept line := by
  unfold parseLine kept
  cases pregMatchAll accessLog line with
  | nil => rfl
  | cons m ms => rfl

/-- The line with another ident and user, and another text after the last
item. -/
def AccessTokens.withUnkept (t : AccessTokens) (ident user rest : Bytes) : AccessTokens :=
  { t with t2 := ident, t3 := user, rest := rest }

theorem AccessTokens.Valid.withUnkept {t : AccessTokens} (ht : t.Valid) {ident user rest : Bytes}
    (hident : IsToken ident) (huser : IsToken user) (hrest : Stops isWord rest) :
    (t.withUnkept ident user rest).Valid := by
  obtain ⟨⟨⟨htok, hw, hw'⟩, h4, h5, h6, h8, h9, h10, h11⟩, hlast, -⟩ := ht
  refine ⟨⟨⟨?_, hw, hw'⟩, h4, h5, h6, h8, h9, h10, h11⟩, hlast, hrest⟩
  simp only [AccessHead.tokens, List.forall_mem_cons] at htok
  obtain ⟨k1, -, -, hmore⟩ := htok
  simp only [AccessHead.tokens, AccessTokens.withUnkept, List.forall_mem_cons]
  exact ⟨k1, hident, huser, hmore⟩

/-- **Staging is lossless exactly on valid UTF-8.** An iteration that reads
`line` sends the request of that line. If all values kept of it are valid
UTF-8, its fields are these values; if one is not, all its fields are
`null`. What the line has in its ident and user items and after the last
capture does not matter, and a valid line has valid values. -/
theorem staging_lossless (line : Bytes) :
    (∀ s : NginxState, (fgets s.fn).1.getD [] = line →
      (nginxBody s).sent = s.sent ++ [requestOf line])
    ∧ ((∀ c ∈ kept line, ValidUtf8 c) → (requestOf line).body.values = (kept line).map some)
    ∧ ((∃ c ∈ kept line, ¬ ValidUtf8 c) →
      (requestOf line).body.values = List.replicate 11 none)
    ∧ (∀ t : AccessTokens, t.Valid → line = t.line → ∀ ident user rest : Bytes,
      IsToken ident → IsToken user → Stops isWord rest →
        (requestOf (t.withUnkept ident user rest).line).body = (requestOf line).body)
    ∧ (ValidUtf8 line → ∀ c ∈ kept line, ValidUtf8 c) := by
  have hkept := toArray_parseLine line
  refine ⟨?_, ?_, ?_, ?_, ?_⟩
  · intro s hs
    rw [nginxBody_sent, hs]
  · intro hvalid
    rw [← hkept] at hvalid ⊢
    show (bodyOf (some (staged (parseLine line)))).values = _
    rw [bodyOf_staged hvalid, values_toBody]
  · intro hinvalid
    rw [← hkept] at hinvalid
    exact bodyOf_staged_of_invalid hinvalid
  · intro t ht hline ident user rest hident huser hrest
    have ht' := ht.withUnkept hident huser hrest
    have hfields : parseLine (t.withUnkept ident user rest).line = parseLine line := by
      rw [hline, parseLine_line ht, parseLine_line ht']
      rfl
    rw [requestOf, requestOf, hfields]
  · intro hline
    rw [← hkept]
    exact validUtf8_parseLine hline

/-- A backslash, a slash, a control character, a letter beyond ASCII and a
character beyond the basic plane. -/
def unicodeLine : Bytes :=
  bytes "1.1.1.1 - - [1/Aug +7] \"GET /\\é H\" 200 10 \"😀/\x01\" rt=1 u=1 h=1 r=1 g=1\n"

/-- The letter in Latin-1. -/
def latin1Line : Bytes :=
  bytes "1.1.1.1 - - [1/Aug +7] \"GET /" ++ 0xE9 ::
    bytes " H\" 200 10 \"-\" rt=1 u=1 h=1 r=1 g=1\n"

theorem unicodeLine_kept_latin1Line_null :
    (requestOf unicodeLine).body.values = (kept unicodeLine).map some
    ∧ (requestOf latin1Line).body.values = List.replicate 11 none := by
  have hvalid : ∀ c ∈ kept unicodeLine, ValidUtf8 c := by
    simp only [validUtf8_iff]
    decide +kernel
  have hinvalid : ∃ c ∈ kept latin1Line, ¬ ValidUtf8 c := by
    simp only [validUtf8_iff]
    decide +kernel
  exact ⟨(staging_lossless unicodeLine).2.1 hvalid, (staging_lossless latin1Line).2.2.1 hinvalid⟩

end Wahana
