import Wahana.View

/-!
# The structure of the result pages

What a browser makes of the two result pages. A page is a template with
values in it, and the templates print the values as they are: there is no
escaping anywhere.

`page_reads` follows the tokenizer through a page, cell by cell. If no
value has markup in it, the tags are those of the template with one row of
tags for each row of the result, and a cell whose value reads back as HTML
text reads back that value (`pages_of_values`). Two characters of markup in
a value change the tags, and a reference, a line break, a null character or
a broken character is read as something else (`values_change_page`).
-/

namespace Wahana

def isTd (raw : Bytes) : Bool := tagName raw == bytes "td"

/-- The tags of a piece of template. -/
def tagsOf (u : Bytes) : List Bytes := tags (HtmlState.data.run u).2

theorem no_cr_append {u v : Bytes} (hu : ch '\r' ∉ u) (hv : ch '\r' ∉ v) : ch '\r' ∉ u ++ v := by
  rw [List.mem_append, not_or]
  exact ⟨hu, hv⟩

/-! ## The fixed parts -/

/-- A piece of template that is read to its end and has no cell in it. -/
structure Fixed (u : Bytes) : Prop where
  ends : (HtmlState.data.run u).1 = .data
  no_td : ∀ raw ∈ tagsOf u, isTd raw = false
  no_cr : ch '\r' ∉ u

instance (u : Bytes) : Decidable (Fixed u) :=
  decidable_of_iff ((HtmlState.data.run u).1 = .data ∧ (∀ raw ∈ tagsOf u, isTd raw = false)
    ∧ ch '\r' ∉ u) ⟨fun h => ⟨h.1, h.2.1, h.2.2⟩, fun h => ⟨h.1, h.2, h.3⟩⟩

theorem Fixed.reads {u : Bytes} (h : Fixed u) : Reads u (HtmlState.data.run u).2 :=
  Prod.ext h.ends rfl

theorem tagsOf_append {u v : Bytes} (hu : Fixed u) : tagsOf (u ++ v) = tagsOf u ++ tagsOf v := by
  rw [tagsOf, HtmlState.run_append, hu.ends, tags_append]
  rfl

theorem Fixed.append {u v : Bytes} (hu : Fixed u) (hv : Fixed v) : Fixed (u ++ v) where
  ends := by rw [HtmlState.run_append, hu.ends]; exact hv.ends
  no_td := by
    rw [tagsOf_append hu]
    exact List.forall_mem_append.mpr ⟨hu.no_td, hv.no_td⟩
  no_cr := no_cr_append hu.no_cr hv.no_cr

theorem pageTop_fixed : Fixed pageTop := by decide +kernel

theorem navLink_nginx_fixed (path : Bytes) : Fixed (navLink path "view_nginx.php" "NGINX") := by
  unfold navLink
  split
  · decide +kernel
  · decide +kernel

theorem navLink_uwsgi_fixed (path : Bytes) : Fixed (navLink path "view_uwsgi.php" "UWSGI") := by
  unfold navLink
  split
  · decide +kernel
  · decide +kernel

theorem nginxTop_fixed (path : Bytes) : Fixed (nginxTop path) := by
  have hnav : Fixed nginxNav := by decide +kernel
  have htable : Fixed nginxTable := by decide +kernel
  exact pageTop_fixed.append (hnav.append ((navLink_nginx_fixed path).append htable))

theorem pageBottom_fixed {id : String} (hid : Fixed (bytes id)) : Fixed (pageBottom id) := by
  unfold pageBottom
  refine (((Fixed.append ?_ ?_).append hid).append ?_).append ?_
  all_goals decide +kernel

theorem nginxBottom_fixed : Fixed nginxBottom := by
  unfold nginxBottom
  refine (((((Fixed.append (pageBottom_fixed ?_) ?_).append ?_).append ?_).append ?_).append
    ?_).append ?_
  all_goals decide +kernel

theorem uwsgiTop_fixed (path : Bytes) : Fixed (uwsgiTop path) := by
  have hnav : Fixed uwsgiNav := by decide +kernel
  have htable : Fixed uwsgiTable := by decide +kernel
  exact pageTop_fixed.append (hnav.append ((navLink_uwsgi_fixed path).append htable))

theorem uwsgiBottom_fixed : Fixed uwsgiBottom := pageBottom_fixed (by decide +kernel)

/-! ## Pieces of a page -/

/-- The piece is read to its end, with these tags. -/
def TagsAs (u : Bytes) (ts : List Bytes) : Prop :=
  Seam u ∧ ∃ items, Reads (normalizeNewlines false u) items ∧ tags items = ts

theorem TagsAs.append {u v : Bytes} {ts ts' : List Bytes} (hu : TagsAs u ts) (hv : TagsAs v ts') :
    TagsAs (u ++ v) (ts ++ ts') := by
  obtain ⟨hseam, x, hx, htags⟩ := hu
  obtain ⟨hseam', y, hy, htags'⟩ := hv
  refine ⟨hseam.append hseam', x ++ y, ?_, ?_⟩
  · rw [hseam]
    exact hx.append hy
  · rw [tags_append, htags, htags']

theorem TagsAs.tokenize {u : Bytes} {ts : List Bytes} (h : TagsAs u ts) :
    tags (tokenize u) = ts := by
  obtain ⟨-, items, hitems, htags⟩ := h
  rw [hitems.tokenize, htags]

/-- The piece is read to its end, with these tags and these texts in its
cells. -/
def ReadsAs (u : Bytes) (ts cells : List Bytes) : Prop :=
  Seam u ∧ ∃ items, Reads (normalizeNewlines false u) items ∧ tags items = ts
    ∧ ∀ rest, textsAfter isTd (items ++ rest) = cells ++ textsAfter isTd rest

theorem ReadsAs.tagsAs {u : Bytes} {ts cells : List Bytes} (h : ReadsAs u ts cells) :
    TagsAs u ts := by
  obtain ⟨hseam, items, hitems, htags, -⟩ := h
  exact ⟨hseam, items, hitems, htags⟩

theorem readsAs_nil : ReadsAs [] [] [] := ⟨fun _ => rfl, [], rfl, rfl, fun _ => rfl⟩

theorem ReadsAs.append {u v : Bytes} {ts ts' cells cells' : List Bytes}
    (hu : ReadsAs u ts cells) (hv : ReadsAs v ts' cells') :
    ReadsAs (u ++ v) (ts ++ ts') (cells ++ cells') := by
  obtain ⟨hseam, x, hx, htags, htexts⟩ := hu
  obtain ⟨hseam', y, hy, htags', htexts'⟩ := hv
  refine ⟨hseam.append hseam', x ++ y, ?_, ?_, ?_⟩
  · rw [hseam]
    exact hx.append hy
  · rw [tags_append, htags, htags']
  · intro rest
    rw [List.append_assoc, htexts, htexts', List.append_assoc]

theorem ReadsAs.cells {u : Bytes} {ts cells : List Bytes} (h : ReadsAs u ts cells) :
    textsAfter isTd (tokenize u) = cells := by
  obtain ⟨-, items, hitems, -, htexts⟩ := h
  have hend := htexts []
  rw [List.append_nil] at hend
  rw [hitems.tokenize, hend]
  simp [textsAfter]

theorem Fixed.readsAs {u : Bytes} (h : Fixed u) : ReadsAs u (tagsOf u) [] := by
  refine ⟨seam_of_notMem h.no_cr, (HtmlState.data.run u).2, ?_, rfl,
    fun rest => textsAfter_append rest h.no_td⟩
  rw [normalizeNewlines_of_notMem h.no_cr]
  exact h.reads

/-- A value in front of an end tag on the same line. -/
theorem reads_value {v : Bytes} (raw closing : Bytes) (hv : NoMarkup v) (hcr : ch '\r' ∉ closing)
    (hclosing : HtmlState.tagOpen.run closing = (.data, [.tag raw, .chr (ch '\n')])) :
    Seam (v ++ ch '<' :: closing)
    ∧ Reads (normalizeNewlines false (v ++ ch '<' :: closing))
      ((normalizeNewlines false v).map .chr ++ [.tag raw, .chr (ch '\n')]) := by
  refine ⟨seam_text (by decide) (by decide) v hcr, ?_⟩
  rw [normalizeNewlines_cut (by decide) (by decide), normalizeNewlines_of_notMem hcr, Reads,
    run_text (hv.normalize false), hclosing]

theorem readsAs_number (no : Nat) :
    ReadsAs (decimal no ++ bytes "</th>\n") [bytes "/th"] [] := by
  have hv : NoMarkup (decimal no) := noMarkup_of_digits fun _ => isDigit_of_mem_decimal
  have hclosing : bytes "</th>\n" = ch '<' :: bytes "/th>\n" := by decide
  obtain ⟨hseam, hreads⟩ := reads_value (bytes "/th") (bytes "/th>\n") hv (by decide)
    (by decide)
  rw [← hclosing] at hseam hreads
  refine ⟨hseam, _, hreads, ?_, ?_⟩
  · rw [tags_append, tags_chr]
    rfl
  · intro rest
    refine textsAfter_append rest ?_
    rw [tags_append, tags_chr]
    decide

theorem readsAs_cell {opening : String} {raw v : Bytes} (hv : NoMarkup v) (hraw : isTd raw = true)
    (hcr : ch '\r' ∉ bytes opening) (hopening : Reads (bytes opening) [.tag raw]) :
    ReadsAs (cell opening v) [raw, bytes "/td"] [normalizeNewlines false v] := by
  have hblanks : Fixed (blanks 36) := by decide
  have hclosing : bytes "</td>\n" = ch '<' :: bytes "/td>\n" := by decide
  obtain ⟨hseam, hreads⟩ := reads_value (bytes "/td") (bytes "/td>\n") hv (by decide)
    (by decide)
  rw [← hclosing] at hseam hreads
  have hopen : Seam (bytes opening) := seam_of_notMem hcr
  have hall : Reads (normalizeNewlines false (bytes opening ++ (v ++ bytes "</td>\n")))
      ([.tag raw] ++ ((normalizeNewlines false v).map .chr
        ++ [.tag (bytes "/td"), .chr (ch '\n')])) := by
    rw [hopen, normalizeNewlines_of_notMem hcr]
    exact hopening.append hreads
  refine hblanks.readsAs.append ⟨hopen.append hseam, _, hall, ?_, ?_⟩
  · rw [tags_append, tags_append, tags_chr]
    rfl
  · intro rest
    have hitems : [.tag raw] ++ ((normalizeNewlines false v).map .chr
          ++ [.tag (bytes "/td"), .chr (ch '\n')]) ++ rest
        = .tag raw :: ((normalizeNewlines false v).map .chr
          ++ .tag (bytes "/td") :: .chr (ch '\n') :: rest) := by
      simp
    rw [hitems, textsAfter_tag hraw, textsAfter, if_neg (by decide)]
    rfl

/-- Cells without a class. -/
theorem readsAs_td {v : Bytes} (hv : NoMarkup v) :
    ReadsAs (cell "<td>" v) [bytes "td", bytes "/td"] [normalizeNewlines false v] :=
  readsAs_cell hv (by decide) (by decide) (by unfold Reads; decide)

theorem readsAs_cells : ∀ {vs : List Bytes}, (∀ v ∈ vs, NoMarkup v) →
    ReadsAs (vs.flatMap (cell "<td>"))
      (List.replicate vs.length [bytes "td", bytes "/td"]).flatten
      (vs.map (normalizeNewlines false))
  | [], _ => readsAs_nil
  | v :: vs, h =>
      (readsAs_td (h v (by simp))).append
        (readsAs_cells fun w hw => h w (List.mem_cons_of_mem _ hw))

/-! ## The table -/

/-- The front of a row, up to its second cell. -/
def rowFront (no : Nat) (value : Bytes) : Bytes :=
  (blanks 32 ++ (bytes "<tr>\n" ++ (blanks 36 ++ bytes "<th class=\"text-center\">")))
    ++ ((decimal no ++ bytes "</th>\n") ++ cell "<td class=\"text-center\">" value)

def rowEnd : Bytes := blanks 32 ++ (bytes "</tr>\n" ++ blanks 28)

theorem tableRow_cons (no : Nat) (value : Bytes) (values : List Bytes) :
    tableRow no (value :: values)
      = rowFront no value ++ (values.flatMap (cell "<td>") ++ rowEnd) := by
  simp [tableRow, rowFront, rowEnd]

def rowFrontTags : List Bytes :=
  [bytes "tr", bytes "th class=\"text-center\"", bytes "/th",
   bytes "td class=\"text-center\"", bytes "/td"]

/-- The tags of a row: one `th` and `columns` cells. -/
def rowTags (columns : Nat) : List Bytes :=
  rowFrontTags ++ ((List.replicate (columns - 1) [bytes "td", bytes "/td"]).flatten
    ++ [bytes "/tr"])

theorem readsAs_rowFront (no : Nat) {v : Bytes} (hv : NoMarkup v) :
    ReadsAs (rowFront no v) rowFrontTags [normalizeNewlines false v] := by
  have hopen : Fixed (blanks 32 ++ (bytes "<tr>\n" ++ (blanks 36
      ++ bytes "<th class=\"text-center\">"))) := by
    decide +kernel
  have htags : tagsOf (blanks 32 ++ (bytes "<tr>\n" ++ (blanks 36
      ++ bytes "<th class=\"text-center\">")))
      = [bytes "tr", bytes "th class=\"text-center\""] := by
    decide +kernel
  have hcell : ReadsAs (cell "<td class=\"text-center\">" v)
      [bytes "td class=\"text-center\"", bytes "/td"] [normalizeNewlines false v] :=
    readsAs_cell hv (by decide) (by decide) (by unfold Reads; decide)
  have hfront := hopen.readsAs.append ((readsAs_number no).append hcell)
  rw [htags] at hfront
  exact hfront

theorem readsAs_rowEnd : ReadsAs rowEnd [bytes "/tr"] [] := by
  have hend : Fixed rowEnd := by decide +kernel
  have htags : tagsOf rowEnd = [bytes "/tr"] := by decide +kernel
  have h := hend.readsAs
  rw [htags] at h
  exact h

theorem readsAs_tableRow (no : Nat) {row : List Bytes} (hne : row ≠ [])
    (h : ∀ v ∈ row, NoMarkup v) :
    ReadsAs (tableRow no row) (rowTags row.length) (row.map (normalizeNewlines false)) := by
  obtain ⟨v, vs, rfl⟩ := List.exists_cons_of_ne_nil hne
  have hrow := (readsAs_rowFront no (h v (by simp))).append
    ((readsAs_cells fun w hw => h w (List.mem_cons_of_mem _ hw)).append readsAs_rowEnd)
  rw [List.append_nil] at hrow
  rw [tableRow_cons]
  exact hrow

theorem readsAs_tableRows {columns : Nat} (hcolumns : 0 < columns) :
    ∀ {rows : List (List Bytes)} (no : Nat), (∀ row ∈ rows, row.length = columns) →
      (∀ row ∈ rows, ∀ v ∈ row, NoMarkup v) →
      ReadsAs (tableRows no rows) (List.replicate rows.length (rowTags columns)).flatten
        (rows.flatten.map (normalizeNewlines false))
  | [], no, _, _ => readsAs_nil
  | row :: rows, no, hlen, h => by
      have hrow : row.length = columns := hlen row (by simp)
      have hne : row ≠ [] := by
        rintro rfl
        simp only [List.length_nil] at hrow
        omega
      have hfirst := readsAs_tableRow no hne (h row (by simp))
      rw [hrow] at hfirst
      have hrows := hfirst.append (readsAs_tableRows hcolumns (no + 1)
        (fun r hr => hlen r (List.mem_cons_of_mem _ hr)) fun r hr => h r (List.mem_cons_of_mem _ hr))
      rw [← List.map_append] at hrows
      exact hrows

theorem readsAs_tableBody {columns : Nat} (hcolumns : 0 < columns) {rows : List (List Bytes)}
    (hlen : ∀ row ∈ rows, row.length = columns) (h : ∀ row ∈ rows, ∀ v ∈ row, NoMarkup v) :
    ReadsAs (tableBody rows) (List.replicate rows.length (rowTags columns)).flatten
      (rows.flatten.map (normalizeNewlines false)) := by
  unfold tableBody
  split
  · have hblanks : Fixed (blanks 24) := by decide
    have hnone : tagsOf (blanks 24) = [] := by decide
    have hrows := (readsAs_tableRows hcolumns 1 hlen h).append hblanks.readsAs
    rw [hnone, List.append_nil, List.append_nil] at hrows
    exact hrows
  · have hnil : rows = [] := List.eq_nil_of_length_eq_zero (by omega)
    subst hnil
    exact readsAs_nil

/-! ## The pages -/

/-- The tags of a page with `n` rows in its table. -/
def skeleton (top bottom : Bytes) (columns n : Nat) : List Bytes :=
  tagsOf top ++ ((List.replicate n (rowTags columns)).flatten ++ tagsOf bottom)

theorem page_reads {top bottom : Bytes} (htop : Fixed top) (hbottom : Fixed bottom)
    {columns : Nat} (hcolumns : 0 < columns) {rows : List (List Bytes)}
    (hlen : ∀ row ∈ rows, row.length = columns) (h : ∀ row ∈ rows, ∀ v ∈ row, NoMarkup v) :
    tags (tokenize (top ++ (tableBody rows ++ bottom))) = skeleton top bottom columns rows.length
    ∧ textsAfter isTd (tokenize (top ++ (tableBody rows ++ bottom)))
      = rows.flatten.map (normalizeNewlines false) := by
  have hpage := htop.readsAs.append ((readsAs_tableBody hcolumns hlen h).append hbottom.readsAs)
  refine ⟨hpage.tagsAs.tokenize, ?_⟩
  rw [hpage.cells, List.nil_append, List.append_nil]

theorem viewNginx_reads (path : Bytes) {rows : List NginxRow}
    (h : ∀ r ∈ rows, ∀ v ∈ r.columns, NoMarkup v) :
    tags (tokenize (viewNginx path rows)) = skeleton (nginxTop path) nginxBottom 11 rows.length
    ∧ textsAfter isTd (tokenize (viewNginx path rows))
      = (rows.flatMap NginxRow.columns).map (normalizeNewlines false) := by
  have hpage := page_reads (nginxTop_fixed path) nginxBottom_fixed (show 0 < 11 by decide)
    (List.forall_mem_map.mpr fun _ _ => rfl) (List.forall_mem_map.mpr h)
  rw [List.length_map] at hpage
  exact hpage

theorem viewUwsgi_reads (path : Bytes) {rows : List UwsgiRow}
    (h : ∀ r ∈ rows, ∀ v ∈ r.columns, NoMarkup v) :
    tags (tokenize (viewUwsgi path rows)) = skeleton (uwsgiTop path) uwsgiBottom 3 rows.length
    ∧ textsAfter isTd (tokenize (viewUwsgi path rows))
      = (rows.flatMap UwsgiRow.columns).map (normalizeNewlines false) := by
  have hpage := page_reads (uwsgiTop_fixed path) uwsgiBottom_fixed (show 0 < 3 by decide)
    (List.forall_mem_map.mpr fun _ _ => rfl) (List.forall_mem_map.mpr h)
  rw [List.length_map] at hpage
  exact hpage

/-- A cell is read back on its own, whatever the others hold. -/
theorem cell_reads_back {R : CharRefs} {values texts : List Bytes}
    (h : texts = values.map (normalizeNewlines false)) {k : Nat} {v : Bytes}
    (hk : values[k]? = some v) (hv : ReadsAsWritten R v) :
    ∃ s, texts[k]? = some s ∧ utf8Encode (readText R s) = v := by
  refine ⟨normalizeNewlines false v, ?_, hv.readText⟩
  rw [h, List.getElem?_map, hk]
  rfl

/-- **The pages of values without markup.** As long as no `<` in a value
opens markup, the tags of a page depend on the request and the number of
rows alone; and every cell whose value reads back as HTML text reads back
its value. -/
theorem pages_of_values (R : CharRefs) (path : Bytes) :
    (∀ rows : List NginxRow, (∀ r ∈ rows, ∀ v ∈ r.columns, NoMarkup v) →
      tags (tokenize (viewNginx path rows)) = skeleton (nginxTop path) nginxBottom 11 rows.length
        ∧ ∀ (k : Nat) (v : Bytes), (rows.flatMap NginxRow.columns)[k]? = some v → ReadsAsWritten R v →
          ∃ s, (textsAfter isTd (tokenize (viewNginx path rows)))[k]? = some s
            ∧ utf8Encode (readText R s) = v)
    ∧ ∀ rows : List UwsgiRow, (∀ r ∈ rows, ∀ v ∈ r.columns, NoMarkup v) →
      tags (tokenize (viewUwsgi path rows)) = skeleton (uwsgiTop path) uwsgiBottom 3 rows.length
        ∧ ∀ (k : Nat) (v : Bytes), (rows.flatMap UwsgiRow.columns)[k]? = some v → ReadsAsWritten R v →
          ∃ s, (textsAfter isTd (tokenize (viewUwsgi path rows)))[k]? = some s
            ∧ utf8Encode (readText R s) = v := by
  refine ⟨fun rows h => ?_, fun rows h => ?_⟩
  · obtain ⟨htags, htexts⟩ := viewNginx_reads path h
    exact ⟨htags, fun k v hk hv => cell_reads_back htexts hk hv⟩
  · obtain ⟨htags, htexts⟩ := viewUwsgi_reads path h
    exact ⟨htags, fun k v hk hv => cell_reads_back htexts hk hv⟩

def markupNames : List (List Char × List Char) :=
  [("lt;".toList, ['<']), ("gt;".toList, ['>']), ("amp;".toList, ['&']), ("quot;".toList, ['"'])]

/-- The references that stand for the characters of markup. -/
def markupRefs : CharRefs := fun s =>
  (markupNames.find? fun n => n.1.isPrefixOf s).map fun n => (n.2, n.1.length)

/-- Signs of markup, and no markup. -/
def comparisonRow : NginxRow where
  ip_address := bytes "127.0.0.1"
  date_file := bytes "12/Jul/2021:10:00:00 +0700"
  method := bytes "GET"
  status_ms := bytes "200"
  ping := bytes "612"
  site_url := bytes "/?q=1 < 2&r=\"é\" > 'b'"
  rt := bytes "0.010"
  uct := bytes "0.001"
  uht := bytes "0.009"
  urt := bytes "0.009"
  gz := bytes "-"

theorem comparisonRow_noMarkup : ∀ r ∈ [comparisonRow], ∀ v ∈ r.columns, NoMarkup v := by
  decide +kernel

/-- The second row has a reference in it: the tags stay, and the first row
is read back. -/
theorem comparisonRow_page :
    (∃ s, (textsAfter isTd (tokenize (viewNginx (bytes "/wahana/view/view_nginx.php")
        [comparisonRow, { comparisonRow with site_url := bytes "/?q=&lt;\r" }])))[5]? = some s
      ∧ utf8Encode (readText markupRefs s) = comparisonRow.site_url)
    ∧ tags (tokenize (viewUwsgi (bytes "/wahana/view/view_uwsgi.php")
          [⟨bytes "12 < 13", bytes "7 &lt; 8", bytes "9\r"⟩]))
        = skeleton (uwsgiTop (bytes "/wahana/view/view_uwsgi.php")) uwsgiBottom 3 1 := by
  have hrows : ∀ r ∈ [comparisonRow, { comparisonRow with site_url := bytes "/?q=&lt;\r" }],
      ∀ v ∈ r.columns, NoMarkup v := by
    decide +kernel
  have hrow : ∀ r ∈ [(⟨bytes "12 < 13", bytes "7 &lt; 8", bytes "9\r"⟩ : UwsgiRow)],
      ∀ v ∈ r.columns, NoMarkup v := by
    decide +kernel
  have hback : ReadsAsWritten markupRefs comparisonRow.site_url :=
    ⟨"/?q=1 < 2&r=\"é\" > 'b'".toList, by decide +kernel, by decide, by decide, by decide +kernel⟩
  exact ⟨((pages_of_values markupRefs _).1 _ hrows).2 5 _ rfl hback,
    ((pages_of_values markupRefs _).2 _ hrow).1⟩

/-! ## Values that change a page -/

/-- After a value of two bytes that open markup, the end tag of the cell is
not read as one. -/
theorem tagsAs_opener {b : UInt8} (hb : opensMarkup b = true) :
    ∃ ts, TagsAs ([ch '<', b] ++ bytes "</td>\n") ts ∧ ts ≠ [bytes "/td"] := by
  have hcr : ch '\r' ∉ [ch '<', b] ++ bytes "</td>\n" := by
    have hne : ch '\r' ≠ b := by
      rintro rfl
      exact absurd hb (by decide)
    simpa [hne] using (by decide : ch '\r' ≠ ch '<' ∧ ch '\r' ∉ bytes "</td>\n")
  have hread : ∃ items, Reads ([ch '<', b] ++ bytes "</td>\n") items
      ∧ tags items ≠ [bytes "/td"] := by
    by_cases hα : isAlpha b = true
    · -- the tag of the value takes the end tag into its attributes
      refine ⟨[.tag (b :: bytes "</td"), .chr (ch '\n')], ?_, ?_⟩
      · have hopen : HtmlState.data.run ([ch '<', b] ++ bytes "</td>\n")
            = (HtmlState.tag .name [b]).run (bytes "</td>\n") := by
          simp [HtmlState.run, HtmlState.next, hα]
        rw [Reads, hopen]
        rfl
      · intro h
        have hlen := congrArg (List.map List.length) h
        exact absurd hlen (by simp [tags]; decide)
    · -- a comment or an empty end tag swallows it
      refine ⟨[.chr (ch '\n')], ?_, by decide⟩
      simp only [opensMarkup, Bool.or_eq_true, beq_iff_eq] at hb
      rcases hb with ((h | rfl) | rfl) | rfl
      · exact absurd h hα
      · unfold Reads; decide
      · unfold Reads; decide
      · unfold Reads; decide
  obtain ⟨items, hitems, hne⟩ := hread
  refine ⟨tags items, ⟨seam_of_notMem hcr, items, ?_, rfl⟩, hne⟩
  rw [normalizeNewlines_of_notMem hcr]
  exact hitems

theorem tagsAs_row (no : Nat) {v bad : Bytes} (xs ys : List Bytes) {ts : List Bytes} (hv : NoMarkup v)
    (hxs : ∀ w ∈ xs, NoMarkup w) (hys : ∀ w ∈ ys, NoMarkup w)
    (hbad : TagsAs (bad ++ bytes "</td>\n") ts) :
    TagsAs (tableRow no (v :: (xs ++ bad :: ys)))
      ((rowFrontTags ++ (List.replicate xs.length [bytes "td", bytes "/td"]).flatten ++ [bytes "td"])
        ++ ts ++ ((List.replicate ys.length [bytes "td", bytes "/td"]).flatten ++ [bytes "/tr"])) := by
  have hopen : TagsAs (blanks 36 ++ bytes "<td>") [bytes "td"] :=
    ⟨seam_of_notMem (by decide), _, rfl, by decide⟩
  have hrow := (((readsAs_rowFront no hv).tagsAs.append (readsAs_cells hxs).tagsAs).append
    hopen).append hbad |>.append ((readsAs_cells hys).tagsAs.append readsAs_rowEnd.tagsAs)
  have htext : tableRow no (v :: (xs ++ bad :: ys))
      = rowFront no v ++ xs.flatMap (cell "<td>") ++ (blanks 36 ++ bytes "<td>")
        ++ (bad ++ bytes "</td>\n") ++ (ys.flatMap (cell "<td>") ++ rowEnd) := by
    rw [tableRow_cons]
    simp [cell]
  rw [htext]
  exact hrow

/-- Whatever two bytes open markup, as a value they change the tags. -/
theorem tags_of_opener (path : Bytes) {r : NginxRow} (hr : ∀ v ∈ r.columns, NoMarkup v)
    {b : UInt8} (hb : opensMarkup b = true) :
    tags (tokenize (viewNginx path [{ r with site_url := [ch '<', b] }]))
      ≠ skeleton (nginxTop path) nginxBottom 11 1 := by
  intro h
  obtain ⟨ts, hts, hne⟩ := tagsAs_opener hb
  obtain ⟨ip, date, method, status, ping, site, rt, uct, uht, urt, gz⟩ := r
  simp only [NginxRow.columns, List.forall_mem_cons] at hr
  obtain ⟨h1, h2, h3, h4, h5, -, h7, h8, h9, h10, h11, -⟩ := hr
  have hrow := tagsAs_row 1 [date, method, status, ping] [rt, uct, uht, urt, gz]
    h1 (by simp [h2, h3, h4, h5]) (by simp [h7, h8, h9, h10, h11]) hts
  have hblanks : Fixed (blanks 24) := by decide
  have hpage := (nginxTop_fixed path).readsAs.tagsAs.append
    ((hrow.append hblanks.readsAs.tagsAs).append nginxBottom_fixed.readsAs.tagsAs)
  have htext : viewNginx path
      [{ ip_address := ip, date_file := date, method := method, status_ms := status, ping := ping,
         site_url := [ch '<', b], rt := rt, uct := uct, uht := uht, urt := urt, gz := gz }]
      = nginxTop path ++ (tableRow 1 (ip :: ([date, method, status, ping] ++ [ch '<', b]
          :: [rt, uct, uht, urt, gz])) ++ blanks 24 ++ nginxBottom) := by
    simp [viewNginx, tableBody, tableRows, NginxRow.columns]
  have htags := hpage.tokenize
  rw [← htext, h] at htags
  have hnone : tagsOf (blanks 24) = [] := by decide
  have hskeleton : skeleton (nginxTop path) nginxBottom 11 1 = tagsOf (nginxTop path)
      ++ ((rowFrontTags ++ (List.replicate 4 [bytes "td", bytes "/td"]).flatten ++ [bytes "td"])
        ++ [bytes "/td"] ++ ((List.replicate 5 [bytes "td", bytes "/td"]).flatten ++ [bytes "/tr"])
        ++ tagsOf nginxBottom) := rfl
  rw [hskeleton, hnone, List.append_nil] at htags
  have hcells := List.append_cancel_right (List.append_cancel_left htags)
  exact hne (List.append_cancel_left (List.append_cancel_right hcells)).symm

/-- Requests with a reference, a carriage return, a null character and a
letter of Latin-1 in them. -/
def misread : List Bytes :=
  [bytes "\"GET /&lt; H\"", bytes "\"GET /\rH\"", bytes "\"GET /\x00 H\"",
   bytes "\"GET /" ++ 0xE9 :: bytes " H\""]

/-- A `<` in front of a letter, `/`, `!` or `?` makes another page of a
result of the same size, and the cell of each of the requests above reads
as another text. -/
theorem values_change_page :
    (∀ (path : Bytes) (b : UInt8), opensMarkup b = true →
      tags (tokenize (viewNginx path [{ comparisonRow with site_url := [ch '<', b] }]))
        ≠ tags (tokenize (viewNginx path [comparisonRow])))
    ∧ ∀ (path v : Bytes), v ∈ misread →
      ∃ s, (textsAfter isTd (tokenize (viewNginx path [{ comparisonRow with method := v }])))[2]?
          = some s ∧ utf8Encode (readText markupRefs s) ≠ v := by
  refine ⟨fun path b hb => ?_, fun path v hv => ?_⟩
  · rw [(viewNginx_reads path comparisonRow_noMarkup).1]
    exact tags_of_opener path (comparisonRow_noMarkup _ (by simp)) hb
  · have hrow : ∀ r ∈ [{ comparisonRow with method := v }], ∀ w ∈ r.columns, NoMarkup w := by
      have hall : ∀ v ∈ misread, ∀ r ∈ [{ comparisonRow with method := v }],
          ∀ w ∈ r.columns, NoMarkup w := by
        decide +kernel
      exact hall v hv
    have hread : ∀ v ∈ misread,
        utf8Encode (readText markupRefs (normalizeNewlines false v)) ≠ v := by
      decide +kernel
    refine ⟨normalizeNewlines false v, ?_, hread v hv⟩
    rw [(viewNginx_reads path hrow).2]
    rfl

end Wahana
