import Mathlib.Data.List.Chain
import Mathlib.Data.List.Infix
import Mathlib.Data.List.Pairwise
import Wahana.Bytes
import Wahana.Utf8

/-!
# Reading HTML

A tokenizer for HTML pages, byte by byte, with the states of the standard
for tags, attributes, comments and other markup. It turns a page into the
bytes of its text and its tags, in order; comments and declarations leave
nothing behind. Raw-text elements have no states of their own here: what
stands in a `script` or `title` element is tokenized like other text.

A machine with output, so that a page can be tokenized piece by piece
(`run_append`). Markup and the signs of text are ASCII, which UTF-8 leaves
alone, so the tokenizer works on bytes and `readText` decodes what it
leaves of a cell.

Two lemmas about pages made from a template. Text in which no `<` opens
markup (`NoMarkup`) is read as text, whatever follows (`run_text`). Text of
UTF-8 characters with no reference, carriage return or null among them
(`ReadsAsWritten`) is read as what was written (`ReadsAsWritten.readText`).
-/

namespace Wahana

/-! ## Bytes of a page -/

def isAlpha (b : UInt8) : Bool := (ch 'a' ≤ b && b ≤ ch 'z') || (ch 'A' ≤ b && b ≤ ch 'Z')

def isHtmlSpace (b : UInt8) : Bool := b == ch ' ' || b == ch '\n' || b == ch '\t' || b == 12

/-- After `<`, this byte opens a tag, a comment or a declaration. -/
def opensMarkup (b : UInt8) : Bool :=
  isAlpha b || b == ch '/' || b == ch '!' || b == ch '?'

/-- Line breaks are line feeds before a page is tokenized. -/
def normalizeNewlines : (afterCr : Bool) → Bytes → Bytes
  | _, [] => []
  | afterCr, b :: s =>
      if b = ch '\r' then ch '\n' :: normalizeNewlines true s
      else if b = ch '\n' ∧ afterCr = true then normalizeNewlines false s
      else b :: normalizeNewlines false s

/-! ## The tokenizer -/

inductive TagState where
  | name
  | beforeAttr
  | attrName
  | afterAttrName
  | beforeValue
  | quotedValue (quote : UInt8)
  | unquotedValue
  | afterValue
  | selfClosing
  deriving DecidableEq, Repr

namespace TagState

/-- A byte inside a tag that does not end it. -/
def next : TagState → UInt8 → TagState
  | name, b =>
      if isHtmlSpace b then beforeAttr else if b = ch '/' then selfClosing else name
  | quotedValue quote, b => if b = quote then afterValue else quotedValue quote
  | unquotedValue, b => if isHtmlSpace b then beforeAttr else unquotedValue
  | beforeValue, b =>
      if isHtmlSpace b then beforeValue
      else if b = ch '"' ∨ b = ch '\'' then quotedValue b
      else unquotedValue
  | attrName, b | afterAttrName, b =>
      if isHtmlSpace b then afterAttrName
      else if b = ch '/' then selfClosing
      else if b = ch '=' then beforeValue
      else attrName
  | beforeAttr, b | afterValue, b | selfClosing, b =>
      if isHtmlSpace b then beforeAttr else if b = ch '/' then selfClosing else attrName

/-- A `>` ends the tag, except inside a quoted value. -/
def closes : TagState → Bool
  | quotedValue _ => false
  | _ => true

end TagState

inductive CommentState where
  | start
  | startDash
  | body
  | endDash
  | ending
  | endBang
  deriving DecidableEq, Repr

/-- A byte inside a comment; `none` if it ends the comment. -/
def CommentState.next : CommentState → UInt8 → Option CommentState
  | start, b =>
      if b = ch '-' then some startDash else if b = ch '>' then none else some body
  | startDash, b =>
      if b = ch '-' then some ending else if b = ch '>' then none else some body
  | body, b => if b = ch '-' then some endDash else some body
  | endDash, b => if b = ch '-' then some ending else some body
  | ending, b =>
      if b = ch '>' then none
      else if b = ch '!' then some endBang
      else if b = ch '-' then some ending
      else some body
  | endBang, b =>
      if b = ch '-' then some endDash else if b = ch '>' then none else some body

/-- What a page is made of: a byte of text, or a tag with what stands
between `<` and `>`. -/
inductive Item where
  | chr (b : UInt8)
  | tag (raw : Bytes)
  deriving DecidableEq, Repr

inductive HtmlState where
  | data
  | tagOpen
  | endTagOpen
  | tag (s : TagState) (raw : Bytes)
  | bogus
  | markup
  | markupDash
  | comment (s : CommentState)
  deriving DecidableEq, Repr

namespace HtmlState

def next : HtmlState → UInt8 → HtmlState × List Item
  | data, b => if b = ch '<' then (tagOpen, []) else (data, [.chr b])
  | tagOpen, b =>
      if isAlpha b then (tag .name [b], [])
      else if b = ch '/' then (endTagOpen, [])
      else if b = ch '!' then (markup, [])
      else if b = ch '?' then (bogus, [])
      -- no markup after all: the `<` was text
      else if b = ch '<' then (tagOpen, [.chr (ch '<')])
      else (data, [.chr (ch '<'), .chr b])
  | endTagOpen, b =>
      if isAlpha b then (tag .name [ch '/', b], [])
      else if b = ch '>' then (data, [])
      else (bogus, [])
  | tag s raw, b =>
      if b = ch '>' ∧ s.closes then (data, [.tag raw]) else (tag (s.next b) (raw ++ [b]), [])
  | bogus, b => if b = ch '>' then (data, []) else (bogus, [])
  | markup, b =>
      if b = ch '-' then (markupDash, []) else if b = ch '>' then (data, []) else (bogus, [])
  | markupDash, b =>
      if b = ch '-' then (comment .start, [])
      else if b = ch '>' then (data, [])
      else (bogus, [])
  | comment s, b =>
      match s.next b with
      | some s' => (comment s', [])
      | none => (data, [])

/-- The items read from a text, and the state in which it ends. -/
def run : HtmlState → Bytes → HtmlState × List Item
  | s, [] => (s, [])
  | s, b :: t =>
      let x := s.next b
      let y := run x.1 t
      (y.1, x.2 ++ y.2)

/-- At the end of the page, a `<` that opened nothing is text. -/
def finish : HtmlState → List Item
  | tagOpen => [.chr (ch '<')]
  | endTagOpen => [.chr (ch '<'), .chr (ch '/')]
  | _ => []

end HtmlState

def tokenize (page : Bytes) : List Item :=
  let x := HtmlState.run .data (normalizeNewlines false page)
  x.2 ++ x.1.finish

/-! ## What a reader sees -/

def tags (items : List Item) : List Bytes :=
  items.filterMap fun
    | .tag raw => some raw
    | .chr _ => none

/-- The name of a start tag, in lower case; empty for an end tag. -/
def tagName (raw : Bytes) : Bytes :=
  (raw.takeWhile fun b => !isHtmlSpace b && b != ch '/').map fun b =>
    if ch 'A' ≤ b && b ≤ ch 'Z' then b + 32 else b

/-- The text up to the next tag. -/
def leadingText : List Item → Bytes
  | .chr b :: rest => b :: leadingText rest
  | _ => []

/-- The text right after each tag in the class `p`. -/
def textsAfter (p : Bytes → Bool) : List Item → List Bytes
  | [] => []
  | .chr _ :: rest => textsAfter p rest
  | .tag raw :: rest =>
      if p raw then leadingText rest :: textsAfter p rest else textsAfter p rest

/-- The character references of HTML: for the text after `&`, the text
that is meant and how many characters are taken. -/
abbrev CharRefs := List Char → Option (List Char × Nat)

def decodeRefs (R : CharRefs) : (skip : Nat) → List Char → List Char
  | _, [] => []
  | skip + 1, _ :: s => decodeRefs R skip s
  | 0, c :: s =>
      if c = '&' then
        match R s with
        | some (x, n) => x ++ decodeRefs R n s
        | none => c :: decodeRefs R 0 s
      else c :: decodeRefs R 0 s

/-- Text as it is read: characters decoded, references resolved, null
characters dropped. -/
def readText (R : CharRefs) (s : Bytes) : List Char :=
  (decodeRefs R 0 (decodeLossy s)).filter fun c => c != '\x00'

/-! ## Pieces of a page -/

theorem normalizeNewlines_of_notMem {s : Bytes} (h : ch '\r' ∉ s) :
    normalizeNewlines false s = s := by
  induction s with
  | nil => rfl
  | cons b s ih =>
      rw [List.mem_cons, not_or] at h
      rw [normalizeNewlines, if_neg (Ne.symm h.1), if_neg (by simp), ih h.2]

/-- A byte that is no line break is a place to cut. -/
theorem normalizeNewlines_cut {a : UInt8} (hcr : a ≠ ch '\r') (hlf : a ≠ ch '\n') (v : Bytes) :
    ∀ (afterCr : Bool) (u : Bytes), normalizeNewlines afterCr (u ++ a :: v)
      = normalizeNewlines afterCr u ++ a :: normalizeNewlines false v
  | afterCr, [] => by
      show normalizeNewlines afterCr (a :: v) = a :: normalizeNewlines false v
      rw [normalizeNewlines, if_neg hcr, if_neg (by simp [hlf])]
  | afterCr, b :: u => by
      rw [List.cons_append, normalizeNewlines, normalizeNewlines]
      split
      · rw [normalizeNewlines_cut hcr hlf v true u]
        rfl
      split
      · exact normalizeNewlines_cut hcr hlf v false u
      · rw [normalizeNewlines_cut hcr hlf v false u]
        rfl

/-- What stands behind the text is normalized on its own. -/
def Seam (u : Bytes) : Prop :=
  ∀ v, normalizeNewlines false (u ++ v) = normalizeNewlines false u ++ normalizeNewlines false v

theorem seam_of_notMem {u : Bytes} (h : ch '\r' ∉ u) : Seam u := by
  intro v
  induction u with
  | nil => rfl
  | cons b u ih =>
      rw [List.mem_cons, not_or] at h
      have hb : ∀ w, normalizeNewlines false (b :: w) = b :: normalizeNewlines false w := by
        intro w
        rw [normalizeNewlines, if_neg (Ne.symm h.1), if_neg (by simp)]
      rw [List.cons_append, hb, hb, ih h.2]
      rfl

theorem Seam.append {u v : Bytes} (hu : Seam u) (hv : Seam v) : Seam (u ++ v) := by
  intro w
  rw [List.append_assoc, hu, hv, hu, List.append_assoc]

/-- Text in front of a tag. -/
theorem seam_text {a : UInt8} (hcr : a ≠ ch '\r') (hlf : a ≠ ch '\n') (v : Bytes) {w : Bytes}
    (hw : ch '\r' ∉ w) : Seam (v ++ a :: w) := by
  intro t
  rw [List.append_assoc, List.cons_append, normalizeNewlines_cut hcr hlf,
    normalizeNewlines_cut hcr hlf, seam_of_notMem hw t]
  simp

theorem HtmlState.run_append (s : HtmlState) (u v : Bytes) :
    s.run (u ++ v) = (((s.run u).1.run v).1, (s.run u).2 ++ ((s.run u).1.run v).2) := by
  induction u generalizing s with
  | nil => simp [run]
  | cons b u ih => simp [run, ih, List.append_assoc]

theorem tags_append (x y : List Item) : tags (x ++ y) = tags x ++ tags y :=
  List.filterMap_append

theorem tags_chr (s : Bytes) : tags (s.map .chr) = [] := by
  simp [tags]

theorem leadingText_chr (s : Bytes) (raw : Bytes) (rest : List Item) :
    leadingText (s.map .chr ++ .tag raw :: rest) = s := by
  induction s with
  | nil => rfl
  | cons b s ih => simp [leadingText, ih]

section

variable {p : Bytes → Bool}

/-- Items without a tag of the class are passed over. -/
theorem textsAfter_append {x : List Item} (y : List Item)
    (h : ∀ raw ∈ tags x, p raw = false) : textsAfter p (x ++ y) = textsAfter p y := by
  induction x with
  | nil => rfl
  | cons i x ih =>
      cases i with
      | chr b => exact ih h
      | tag raw =>
          have hraw : p raw = false := h raw (by simp [tags])
          rw [List.cons_append, textsAfter, hraw]
          exact ih fun r hr => h r (by simp [tags] at hr ⊢; exact Or.inr hr)

theorem textsAfter_tag {raw : Bytes} (h : p raw = true) (s raw' : Bytes) (rest : List Item) :
    textsAfter p (.tag raw :: (s.map .chr ++ .tag raw' :: rest))
      = s :: textsAfter p (.tag raw' :: rest) := by
  rw [textsAfter, if_pos h, leadingText_chr, textsAfter_append _ (by simp [tags_chr])]

end

/-- The text is read to its end, with these items. -/
def Reads (u : Bytes) (items : List Item) : Prop := HtmlState.data.run u = (.data, items)

theorem Reads.append {u v : Bytes} {x y : List Item} (hu : Reads u x) (hv : Reads v y) :
    Reads (u ++ v) (x ++ y) := by
  rw [Reads] at hu hv ⊢
  rw [HtmlState.run_append, hu]
  simp only [hv]

theorem Reads.tokenize {u : Bytes} {items : List Item}
    (h : Reads (normalizeNewlines false u) items) : tokenize u = items := by
  rw [Reads] at h
  rw [Wahana.tokenize, h]
  simp [HtmlState.finish]

/-! ## Text without markup -/

/-- No `<` in the text opens markup. -/
def NoMarkup (s : Bytes) : Prop := s.IsChain fun a b => a = ch '<' → opensMarkup b = false

instance (s : Bytes) : Decidable (NoMarkup s) := inferInstanceAs (Decidable (List.IsChain _ _))

theorem next_tagOpen {b : UInt8} (h : opensMarkup b = false) :
    HtmlState.tagOpen.next b
      = ((HtmlState.data.next b).1, .chr (ch '<') :: (HtmlState.data.next b).2) := by
  simp only [opensMarkup, Bool.or_eq_false_iff, beq_eq_false_iff_ne] at h
  obtain ⟨⟨⟨hα, hslash⟩, hbang⟩, hquestion⟩ := h
  simp only [HtmlState.next, hα, hslash, hbang, hquestion, if_false]
  by_cases hb : b = ch '<'
  · simp [hb]
  · simp [hb]

/-- Text without markup is read as text up to the next tag; a `<` right
before that tag is text as well. The two states are the ones a piece of
such text can be in. -/
theorem run_chain : ∀ {s : Bytes}, NoMarkup s →
    HtmlState.data.run (s ++ [ch '<']) = (.tagOpen, s.map .chr)
    ∧ ((∀ b ∈ s.head?, opensMarkup b = false) →
      HtmlState.tagOpen.run (s ++ [ch '<']) = (.tagOpen, .chr (ch '<') :: s.map .chr))
  | [], _ => ⟨rfl, fun _ => rfl⟩
  | b :: s, h => by
      obtain ⟨hhead, hs⟩ := List.isChain_cons.mp h
      obtain ⟨ihdata, ihopen⟩ := run_chain hs
      have hdata : HtmlState.data.run (b :: s ++ [ch '<']) = (.tagOpen, (b :: s).map .chr) := by
        rw [List.cons_append, HtmlState.run]
        by_cases hb : b = ch '<'
        · simp [HtmlState.next, hb, ihopen fun c hc => hhead c hc hb]
        · simp [HtmlState.next, hb, ihdata]
      refine ⟨hdata, fun hb => ?_⟩
      rw [List.cons_append, HtmlState.run] at hdata ⊢
      rw [next_tagOpen (hb b rfl)]
      simp only [Prod.mk.injEq] at hdata ⊢
      exact ⟨hdata.1, by rw [List.cons_append, hdata.2]⟩

theorem run_text {s : Bytes} (h : NoMarkup s) (v : Bytes) :
    HtmlState.data.run (s ++ ch '<' :: v)
      = ((HtmlState.tagOpen.run v).1, s.map .chr ++ (HtmlState.tagOpen.run v).2) := by
  have hcut : s ++ ch '<' :: v = (s ++ [ch '<']) ++ v := by simp
  rw [hcut, HtmlState.run_append, (run_chain h).1]

/-- A line break never completes markup. -/
theorem NoMarkup.normalize : ∀ {s : Bytes} (afterCr : Bool), NoMarkup s →
    NoMarkup (normalizeNewlines afterCr s)
  | [], _, _ => List.isChain_nil
  | a :: s, afterCr, h => by
      obtain ⟨hhead, hs⟩ := List.isChain_cons.mp h
      rw [normalizeNewlines]
      split
      · refine List.isChain_cons.mpr ⟨fun _ _ hlf => absurd hlf (by decide), ?_⟩
        exact NoMarkup.normalize true hs
      split
      · exact NoMarkup.normalize false hs
      · refine List.isChain_cons.mpr ⟨fun c hc ha => ?_, NoMarkup.normalize false hs⟩
        cases s with
        | nil => cases hc
        | cons b s =>
            rw [normalizeNewlines] at hc
            split at hc
            · obtain rfl : ch '\n' = c := by simpa using hc
              decide
            rw [if_neg (by simp)] at hc
            obtain rfl : b = c := by simpa using hc
            exact hhead b rfl ha

/-- Digits are no markup. -/
theorem noMarkup_of_digits {s : Bytes} (h : ∀ a ∈ s, isDigit a = true) : NoMarkup s := by
  refine List.Pairwise.isChain (List.pairwise_of_forall_mem_list fun a ha _ _ hlt => ?_)
  have hdigit := h a ha
  rw [hlt] at hdigit
  exact absurd hdigit (by decide)

/-! ## Text that is read as it was written -/

/-- The text of characters among which is no carriage return, no null
character and no `&` that begins a reference. -/
def ReadsAsWritten (R : CharRefs) (v : Bytes) : Prop :=
  ∃ cs, v = utf8Encode cs ∧ '\r' ∉ cs ∧ '\x00' ∉ cs
    ∧ ∀ w ∈ cs.tails, w.head? = some '&' → R w.tail = none

theorem decodeRefs_of_none (R : CharRefs) : ∀ {cs : List Char},
    (∀ w ∈ cs.tails, w.head? = some '&' → R w.tail = none) → decodeRefs R 0 cs = cs
  | [], _ => rfl
  | c :: cs, h => by
      have ih := decodeRefs_of_none R fun w hw =>
        h w (by rw [List.tails_cons]; exact List.mem_cons_of_mem _ hw)
      rw [decodeRefs, ih]
      by_cases hc : c = '&'
      · have hnone : R cs = none := h (c :: cs) (by simp) (by simp [hc])
        rw [if_pos hc, hnone]
      · rw [if_neg hc]

theorem cr_notMem_utf8Encode {cs : List Char} (h : '\r' ∉ cs) : ch '\r' ∉ utf8Encode cs := by
  intro hmem
  obtain ⟨c, hc, hbyte⟩ := List.mem_flatMap.mp hmem
  have hone := utf8EncodeChar_eq_of_mem hbyte (by decide)
  have hcr : nextChar? (String.utf8EncodeChar c) = nextChar? (String.utf8EncodeChar '\r') := by
    rw [hone]
    rfl
  have hdecode : ∀ d, nextChar? (String.utf8EncodeChar d) = some d := fun d => by
    simpa using nextChar?_encode d []
  rw [hdecode, hdecode] at hcr
  exact h (Option.some.inj hcr ▸ hc)

theorem ReadsAsWritten.readText {R : CharRefs} {v : Bytes} (h : ReadsAsWritten R v) :
    utf8Encode (readText R (normalizeNewlines false v)) = v := by
  obtain ⟨cs, rfl, hcr, hnull, hrefs⟩ := h
  have hkeep : (cs.filter fun c => c != '\x00') = cs := by
    rw [List.filter_eq_self]
    intro c hc
    rw [bne_iff_ne]
    rintro rfl
    exact hnull hc
  rw [normalizeNewlines_of_notMem (cr_notMem_utf8Encode hcr), Wahana.readText,
    decodeLossy_encode, decodeRefs_of_none R hrefs, hkeep]

end Wahana
