import Wahana.ConvertNginx
import Wahana.Runs

/-!
# The access-log pattern as a tokenizer

The backtracking search for the access-log pattern explores many splits,
but they all fail but one: every item is delimited by white space on both
sides, so a successful split is the split of the line into its maximal
white-space-free runs.

`AccessHead` is that split up to the last item, `AccessTokens` adds the
last item and the rest of the line. The chain is

- `eats_accessItems`: what the items of the pattern match, as tokens;
- `AccessHead.text_unique`: a line is split into tokens in one way, so
  the search has one successful thread for these items;
- `matchAll_line`: hence the engine's answer on a tokenized line, the
  last group being greedy.
-/

namespace Wahana

/-! ## Tokens -/

/-- A non-empty run free of white space. -/
def IsToken (T : Bytes) : Prop := T ≠ [] ∧ ∀ a ∈ T, isWord a = true

/-- A non-empty run of white space. -/
def IsGap (w : Bytes) : Prop := w ≠ [] ∧ ∀ a ∈ w, isSpace a = true

def IsDigits (d : Bytes) : Prop := d ≠ [] ∧ ∀ a ∈ d, isDigit a = true

/-- `[`, digits, `/` and at least one more character. -/
def TimeTok (T : Bytes) : Prop :=
  ∃ d r, IsDigits d ∧ r ≠ [] ∧ T = ch '[' :: (d ++ ch '/' :: r)

/-- `+`, digits and `]`. -/
def ZoneTok (T : Bytes) : Prop :=
  ∃ d, IsDigits d ∧ T = ch '+' :: (d ++ [ch ']'])

def OpenTok (T : Bytes) : Prop := ∃ r, r ≠ [] ∧ T = ch '"' :: r

def CloseTok (T : Bytes) : Prop := ∃ r, r ≠ [] ∧ T = r ++ [ch '"']

/-- At least two digits. -/
def NumberTok (T : Bytes) : Prop := 2 ≤ T.length ∧ ∀ a ∈ T, isDigit a = true

def RefererTok (T : Bytes) : Prop := ∃ r, r ≠ [] ∧ T = ch '"' :: (r ++ [ch '"'])

/-- The tokens of a line before the last item; `w` and `w'` are the gaps
inside the quoted request. -/
structure AccessHead where
  (t1 t2 t3 t4 t5 t6 w t7 w' t8 t9 t10 t11 t12 t13 t14 t15 : Bytes)
  deriving DecidableEq, Repr

namespace AccessHead

def tokens (h : AccessHead) : List Bytes :=
  [h.t1, h.t2, h.t3, h.t4, h.t5, h.t6, h.t7, h.t8, h.t9, h.t10, h.t11, h.t12, h.t13,
   h.t14, h.t15]

/-- The tokens with their separators, followed by `v`. -/
def text (h : AccessHead) (v : Bytes) : Bytes :=
  h.t1 ++ ch ' ' :: (h.t2 ++ ch ' ' :: (h.t3 ++ ch ' ' :: (h.t4 ++ ch ' ' ::
    (h.t5 ++ ch ' ' :: (h.t6 ++ (h.w ++ (h.t7 ++ (h.w' ++ (h.t8 ++ ch ' ' ::
      (h.t9 ++ ch ' ' :: (h.t10 ++ ch ' ' :: (h.t11 ++ ch ' ' :: (h.t12 ++ ch ' ' ::
        (h.t13 ++ ch ' ' :: (h.t14 ++ ch ' ' :: (h.t15 ++ ch ' ' :: v))))))))))))))))

def caps (h : AccessHead) : Caps UInt8 :=
  [(1, h.t1), (2, h.t2), (3, h.t3), (4, h.t4 ++ ch ' ' :: h.t5),
   (5, h.t6 ++ (h.w ++ (h.t7 ++ (h.w' ++ h.t8)))), (6, h.t9), (7, h.t10), (8, h.t11),
   (9, h.t12), (10, h.t13), (11, h.t14), (12, h.t15)]

/-- The parts are tokens and gaps, so that each token, standing between
white space, is a maximal run. -/
structure Spaced (h : AccessHead) : Prop where
  token : ∀ T ∈ h.tokens, IsToken T
  gap : IsGap h.w
  gap' : IsGap h.w'

/-- The tokens also have the shapes the pattern asks for. -/
structure Valid (h : AccessHead) : Prop extends Spaced h where
  time : TimeTok h.t4
  zone : ZoneTok h.t5
  opening : OpenTok h.t6
  closing : CloseTok h.t8
  status : NumberTok h.t9
  ping : NumberTok h.t10
  referer : RefererTok h.t11

theorem text_append (h : AccessHead) (v : Bytes) : h.text v = h.text [] ++ v := by
  simp [text]

end AccessHead

/-! ## What the items match -/

section

open Re

theorem eats_words {u : Bytes} {c : Caps UInt8} :
    Eats words u c ↔ IsToken u ∧ c = [] := by
  rw [words, eats_plus, IsToken, and_assoc]

theorem eats_spaces {u : Bytes} {c : Caps UInt8} :
    Eats spaces u c ↔ IsGap u ∧ c = [] := by
  rw [spaces, eats_plus, IsGap, and_assoc]

theorem eats_digits {u : Bytes} {c : Caps UInt8} :
    Eats digits u c ↔ IsDigits u ∧ c = [] := by
  rw [digits, eats_plus, IsDigits, and_assoc]

/-- An item without groups at the front of a sequence. -/
theorem eats_plain_cons {r : Re UInt8} {Q : Bytes → Prop}
    (hr : ∀ {u c}, Eats r u c ↔ Q u ∧ c = []) {rs : List (Re UInt8)} {u : Bytes}
    {c : Caps UInt8} :
    Eats (cat (r :: rs)) u c ↔ ∃ t v, Q t ∧ Eats (cat rs) v c ∧ u = t ++ v := by
  rw [eats_cat_cons]
  constructor
  · rintro ⟨t, b, v, d, ht, hv, rfl, rfl⟩
    obtain ⟨hq, rfl⟩ := hr.mp ht
    exact ⟨t, v, hq, hv, rfl⟩
  · rintro ⟨t, v, hq, hv, rfl⟩
    exact ⟨t, [], v, c, hr.mpr ⟨hq, rfl⟩, hv, rfl, rfl⟩

theorem eats_chr_cons {a : Char} {rs : List (Re UInt8)} {u : Bytes} {c : Caps UInt8} :
    Eats (cat (chr a :: rs)) u c ↔ ∃ v, Eats (cat rs) v c ∧ u = ch a :: v := by
  rw [eats_plain_cons eats_chr]
  simp

/-- A numbered item followed by a space. -/
theorem eats_field {n : Nat} {r : Re UInt8} {Q : Bytes → Prop}
    (hr : ∀ {u c}, Eats r u c ↔ Q u ∧ c = []) {rs : List (Re UInt8)} {u : Bytes}
    {c : Caps UInt8} :
    Eats (cat (group n r :: chr ' ' :: rs)) u c ↔ ∃ t v d,
      Q t ∧ Eats (cat rs) v d ∧ u = t ++ ch ' ' :: v ∧ c = (n, t) :: d := by
  rw [eats_cat_cons]
  constructor
  · rintro ⟨t, _, x, d, ⟨b, hb, rfl⟩, hx, rfl, rfl⟩
    obtain ⟨hq, rfl⟩ := hr.mp hb
    obtain ⟨v, hv, rfl⟩ := eats_chr_cons.mp hx
    exact ⟨t, v, d, hq, hv, rfl, rfl⟩
  · rintro ⟨t, v, d, hq, hv, rfl, rfl⟩
    exact ⟨t, [(n, t)], ch ' ' :: v, d, ⟨[], hr.mpr ⟨hq, rfl⟩, rfl⟩,
      eats_chr_cons.mpr ⟨v, hv, rfl⟩, rfl, rfl⟩

theorem IsDigits.isToken {d : Bytes} (h : IsDigits d) : IsToken d :=
  ⟨h.1, fun a ha => isWord_of_isDigit (h.2 a ha)⟩

theorem isToken_cons {a : UInt8} {T : Bytes} (ha : isWord a = true)
    (hT : ∀ b ∈ T, isWord b = true) : IsToken (a :: T) :=
  ⟨by simp, List.forall_mem_cons.mpr ⟨ha, hT⟩⟩

theorem isToken_concat {a : UInt8} {T : Bytes} (hT : ∀ b ∈ T, isWord b = true)
    (ha : isWord a = true) : IsToken (T ++ [a]) :=
  ⟨by simp, List.forall_mem_append.mpr ⟨hT, List.forall_mem_singleton.mpr ha⟩⟩

theorem isToken_time {d r : Bytes} (hd : IsDigits d) (hr : IsToken r) :
    IsToken (ch '[' :: (d ++ ch '/' :: r)) := by
  refine isToken_cons (by decide) (List.forall_mem_append.mpr ⟨hd.isToken.2, ?_⟩)
  exact (isToken_cons (by decide) hr.2).2

theorem isToken_zone {d : Bytes} (hd : IsDigits d) : IsToken (ch '+' :: (d ++ [ch ']'])) :=
  isToken_cons (by decide) (isToken_concat hd.isToken.2 (by decide)).2

theorem isToken_quoted {r : Bytes} (hr : ∀ a ∈ r, isWord a = true) :
    IsToken (ch '"' :: (r ++ [ch '"'])) :=
  isToken_cons (by decide) (isToken_concat hr (by decide)).2

theorem eats_timeRe {u : Bytes} {c : Caps UInt8} :
    Eats timeRe u c ↔ (∃ T T', (IsToken T ∧ TimeTok T) ∧ (IsToken T' ∧ ZoneTok T')
      ∧ u = T ++ ch ' ' :: T') ∧ c = [] := by
  simp only [timeRe, eats_chr_cons, eats_plain_cons eats_digits, eats_plain_cons eats_words,
    eats_cat_nil]
  constructor
  · rintro ⟨_, ⟨d, _, hd, ⟨_, ⟨r, _, hr, ⟨_, ⟨_, ⟨z, _, hz, ⟨_, ⟨rfl, rfl⟩, rfl⟩, rfl⟩, rfl⟩, rfl⟩,
      rfl⟩, rfl⟩, rfl⟩, rfl⟩
    exact ⟨⟨ch '[' :: (d ++ ch '/' :: r), ch '+' :: (z ++ [ch ']']), ⟨isToken_time hd hr,
      d, r, hd, hr.1, rfl⟩, ⟨isToken_zone hz, z, hz, rfl⟩, by simp⟩, rfl⟩
  · rintro ⟨⟨_, _, ⟨hT, d, r, hd, hr, rfl⟩, ⟨-, z, hz, rfl⟩, rfl⟩, rfl⟩
    have hr' : IsToken r := ⟨hr, fun a ha => hT.2 a (by simp [ha])⟩
    exact ⟨_, ⟨d, _, hd, ⟨_, ⟨r, _, hr', ⟨_, ⟨_, ⟨z, _, hz, ⟨_, ⟨rfl, rfl⟩, rfl⟩, rfl⟩, rfl⟩, rfl⟩,
      rfl⟩, rfl⟩, rfl⟩, by simp⟩

theorem eats_requestRe {u : Bytes} {c : Caps UInt8} :
    Eats requestRe u c ↔ (∃ T w T' w' T'', (IsToken T ∧ OpenTok T) ∧ IsGap w ∧ IsToken T'
      ∧ IsGap w' ∧ (IsToken T'' ∧ CloseTok T'') ∧ u = T ++ (w ++ (T' ++ (w' ++ T''))))
      ∧ c = [] := by
  simp only [requestRe, eats_chr_cons, eats_plain_cons eats_words, eats_plain_cons eats_spaces,
    eats_cat_nil]
  constructor
  · rintro ⟨_, ⟨x, _, hx, ⟨w, _, hw, ⟨y, _, hy, ⟨w', _, hw', ⟨z, _, hz, ⟨_, ⟨rfl, rfl⟩, rfl⟩, rfl⟩,
      rfl⟩, rfl⟩, rfl⟩, rfl⟩, rfl⟩
    have hopen : IsToken (ch '"' :: x) := isToken_cons (by decide) hx.2
    have hclose : IsToken (z ++ [ch '"']) := isToken_concat hz.2 (by decide)
    exact ⟨⟨ch '"' :: x, w, y, w', z ++ [ch '"'], ⟨hopen, x, hx.1, rfl⟩, hw, hy, hw',
      ⟨hclose, z, hz.1, rfl⟩, by simp⟩, rfl⟩
  · rintro ⟨⟨_, w, y, w', _, ⟨hT, x, hx, rfl⟩, hw, hy, hw', ⟨hT'', z, hz, rfl⟩, rfl⟩, rfl⟩
    have hx' : IsToken x := ⟨hx, fun a ha => hT.2 a (by simp [ha])⟩
    have hz' : IsToken z := ⟨hz, fun a ha => hT''.2 a (by simp [ha])⟩
    exact ⟨_, ⟨x, _, hx', ⟨w, _, hw, ⟨y, _, hy, ⟨w', _, hw', ⟨z, _, hz', ⟨_, ⟨rfl, rfl⟩, rfl⟩, rfl⟩,
      rfl⟩, rfl⟩, rfl⟩, rfl⟩, by simp⟩

theorem eats_numberRe {u : Bytes} {c : Caps UInt8} :
    Eats numberRe u c ↔ (IsToken u ∧ NumberTok u) ∧ c = [] := by
  simp only [numberRe, eats_plain_cons eats_digits, eats_cat_nil]
  constructor
  · rintro ⟨x, _, hx, ⟨y, _, hy, ⟨rfl, rfl⟩, rfl⟩, rfl⟩
    have hlx := List.length_pos_iff.mpr hx.1
    have hly := List.length_pos_iff.mpr hy.1
    have hall : ∀ a ∈ x ++ (y ++ []), isDigit a = true := by
      rw [List.append_nil]
      exact List.forall_mem_append.mpr ⟨hx.2, hy.2⟩
    refine ⟨⟨IsDigits.isToken ⟨by simp [hx.1], hall⟩, ?_, hall⟩, rfl⟩
    simp only [List.append_nil, List.length_append]
    omega
  · rintro ⟨⟨-, hlen, hall⟩, rfl⟩
    cases u with
    | nil => simp at hlen
    | cons a v =>
        have hv : v ≠ [] := by rintro rfl; simp at hlen
        exact ⟨[a], v, ⟨by simp, fun b hb => hall b (by simp_all)⟩, ⟨v, [],
          ⟨hv, fun b hb => hall b (by simp [hb])⟩, ⟨rfl, rfl⟩, by simp⟩, rfl⟩

theorem eats_refererRe {u : Bytes} {c : Caps UInt8} :
    Eats refererRe u c ↔ (IsToken u ∧ RefererTok u) ∧ c = [] := by
  simp only [refererRe, eats_chr_cons, eats_plain_cons eats_words, eats_cat_nil]
  constructor
  · rintro ⟨_, ⟨r, _, hr, ⟨_, ⟨rfl, rfl⟩, rfl⟩, rfl⟩, rfl⟩
    exact ⟨⟨isToken_quoted hr.2, r, hr.1, rfl⟩, rfl⟩
  · rintro ⟨⟨hT, r, hr, rfl⟩, rfl⟩
    have hr' : IsToken r := ⟨hr, fun a ha => hT.2 a (by simp [ha])⟩
    exact ⟨_, ⟨r, _, hr', ⟨_, ⟨rfl, rfl⟩, rfl⟩, rfl⟩, rfl⟩

theorem eats_accessItems {u : Bytes} {c : Caps UInt8} :
    Eats (cat accessItems) u c ↔ ∃ h : AccessHead, h.Valid ∧ u = h.text [] ∧ c = h.caps := by
  constructor
  · intro h
    obtain ⟨t1, u1, c1, h1, e1, hu1, hc1⟩ := (eats_field eats_words).mp h
    obtain ⟨t2, u2, c2, h2, e2, hu2, hc2⟩ := (eats_field eats_words).mp e1
    obtain ⟨t3, u3, c3, h3, e3, hu3, hc3⟩ := (eats_field eats_words).mp e2
    obtain ⟨_, u4, c4, ⟨t4, t5, ⟨h4, h4'⟩, ⟨h5, h5'⟩, rfl⟩, e4, hu4, hc4⟩ :=
      (eats_field eats_timeRe).mp e3
    obtain ⟨_, u5, c5, ⟨t6, w, t7, w', t8, ⟨h6, h6'⟩, hw, h7, hw', ⟨h8, h8'⟩, rfl⟩, e5, hu5, hc5⟩ :=
      (eats_field eats_requestRe).mp e4
    obtain ⟨t9, u6, c6, ⟨h9, h9'⟩, e6, hu6, hc6⟩ := (eats_field eats_numberRe).mp e5
    obtain ⟨t10, u7, c7, ⟨h10, h10'⟩, e7, hu7, hc7⟩ := (eats_field eats_numberRe).mp e6
    obtain ⟨t11, u8, c8, ⟨h11, h11'⟩, e8, hu8, hc8⟩ := (eats_field eats_refererRe).mp e7
    obtain ⟨t12, u9, c9, h12, e9, hu9, hc9⟩ := (eats_field eats_words).mp e8
    obtain ⟨t13, u10, c10, h13, e10, hu10, hc10⟩ := (eats_field eats_words).mp e9
    obtain ⟨t14, u11, c11, h14, e11, hu11, hc11⟩ := (eats_field eats_words).mp e10
    obtain ⟨t15, u12, c12, h15, e12, hu12, hc12⟩ := (eats_field eats_words).mp e11
    obtain ⟨hu13, hc13⟩ := eats_cat_nil.mp e12
    refine ⟨⟨t1, t2, t3, t4, t5, t6, w, t7, w', t8, t9, t10, t11, t12, t13, t14, t15⟩,
      ⟨⟨?_, hw, hw'⟩, h4', h5', h6', h8', h9', h10', h11'⟩, ?_, ?_⟩
    · simp only [AccessHead.tokens, List.forall_mem_cons]
      exact ⟨h1, h2, h3, h4, h5, h6, h7, h8, h9, h10, h11, h12, h13, h14, h15, by simp⟩
    · rw [hu1, hu2, hu3, hu4, hu5, hu6, hu7, hu8, hu9, hu10, hu11, hu12, hu13, AccessHead.text]
      simp only [List.append_assoc, List.cons_append]
    · rw [hc1, hc2, hc3, hc4, hc5, hc6, hc7, hc8, hc9, hc10, hc11, hc12, hc13]
      rfl
  · rintro ⟨⟨t1, t2, t3, t4, t5, t6, w, t7, w', t8, t9, t10, t11, t12, t13, t14, t15⟩,
      ⟨⟨ht, hw, hw'⟩, h4, h5, h6, h8, h9, h10, h11⟩, rfl, rfl⟩
    simp only [AccessHead.tokens, List.forall_mem_cons] at ht
    obtain ⟨k1, k2, k3, k4, k5, k6, k7, k8, k9, k10, k11, k12, k13, k14, k15, -⟩ := ht
    simp only [accessItems, eats_field eats_words, eats_field eats_timeRe,
      eats_field eats_requestRe, eats_field eats_numberRe, eats_field eats_refererRe, eats_cat_nil]
    exact ⟨t1, _, _, k1, ⟨t2, _, _, k2, ⟨t3, _, _, k3, ⟨_, _, _, ⟨t4, t5, ⟨k4, h4⟩, ⟨k5, h5⟩, rfl⟩,
      ⟨_, _, _, ⟨t6, w, t7, w', t8, ⟨k6, h6⟩, hw, k7, hw', ⟨k8, h8⟩, rfl⟩, ⟨t9, _, _, ⟨k9, h9⟩,
      ⟨t10, _, _, ⟨k10, h10⟩, ⟨t11, _, _, ⟨k11, h11⟩, ⟨t12, _, _, k12, ⟨t13, _, _, k13, ⟨t14, _, _,
      k14, ⟨t15, _, _, k15, ⟨rfl, rfl⟩, rfl, rfl⟩, rfl, rfl⟩, rfl, rfl⟩, rfl, rfl⟩, rfl, rfl⟩, rfl,
      rfl⟩, rfl, rfl⟩, rfl, rfl⟩, rfl, rfl⟩, rfl, rfl⟩, rfl, rfl⟩, by simp [AccessHead.text], rfl⟩

end

/-! ## A line is tokenized in one way -/

theorem IsGap.not_word {w : Bytes} (h : IsGap w) : ∀ a ∈ w, isWord a = false := by
  intro a ha
  rw [isWord, h.2 a ha]
  rfl

theorem IsToken.not_space {T : Bytes} (h : IsToken T) : ∀ a ∈ T, isSpace a = false :=
  fun a ha => isWord_iff.mp (h.2 a ha)

/-- The first word of a text, empty or not, is known from the text. -/
theorem peel_space {T T' v v' : Bytes} (hT : ∀ a ∈ T, isWord a = true)
    (hT' : ∀ a ∈ T', isWord a = true) (h : T ++ ch ' ' :: v = T' ++ ch ' ' :: v') :
    T = T' ∧ v = v' := by
  obtain ⟨rfl, hv⟩ := run_unique hT hT' (stops_cons (by decide)) (stops_cons (by decide)) h
  exact ⟨rfl, List.tail_eq_of_cons_eq hv⟩

theorem peel_gap {T T' w w' v v' : Bytes} (hT : IsToken T) (hT' : IsToken T')
    (hw : IsGap w) (hw' : IsGap w') (h : T ++ (w ++ v) = T' ++ (w' ++ v')) :
    T = T' ∧ w ++ v = w' ++ v' :=
  run_unique hT.2 hT'.2 (stops_append hw.1 hw.not_word) (stops_append hw'.1 hw'.not_word) h

theorem peel_token {w w' T T' v v' : Bytes} (hw : IsGap w) (hw' : IsGap w')
    (hT : IsToken T) (hT' : IsToken T') (h : w ++ (T ++ v) = w' ++ (T' ++ v')) :
    w = w' ∧ T ++ v = T' ++ v' :=
  run_unique hw.2 hw'.2 (stops_append hT.1 hT.not_space) (stops_append hT'.1 hT'.not_space) h

theorem AccessHead.text_unique {h h' : AccessHead} {v v' : Bytes} (hv : h.Spaced)
    (hv' : h'.Spaced) (heq : h.text v = h'.text v') : h = h' ∧ v = v' := by
  obtain ⟨t1, t2, t3, t4, t5, t6, w, t7, w', t8, t9, t10, t11, t12, t13, t14, t15⟩ := h
  obtain ⟨s1, s2, s3, s4, s5, s6, x, s7, x', s8, s9, s10, s11, s12, s13, s14, s15⟩ := h'
  have ht := hv.token
  have hs := hv'.token
  simp only [tokens, List.forall_mem_cons] at ht hs
  obtain ⟨k1, k2, k3, k4, k5, k6, k7, k8, k9, k10, k11, k12, k13, k14, k15, -⟩ := ht
  obtain ⟨l1, l2, l3, l4, l5, l6, l7, l8, l9, l10, l11, l12, l13, l14, l15, -⟩ := hs
  have hw : IsGap w := hv.gap
  have hw' : IsGap w' := hv.gap'
  have hx : IsGap x := hv'.gap
  have hx' : IsGap x' := hv'.gap'
  simp only [text] at heq
  obtain ⟨e1, heq⟩ := peel_space k1.2 l1.2 heq
  obtain ⟨e2, heq⟩ := peel_space k2.2 l2.2 heq
  obtain ⟨e3, heq⟩ := peel_space k3.2 l3.2 heq
  obtain ⟨e4, heq⟩ := peel_space k4.2 l4.2 heq
  obtain ⟨e5, heq⟩ := peel_space k5.2 l5.2 heq
  obtain ⟨e6, heq⟩ := peel_gap k6 l6 hw hx heq
  obtain ⟨ew, heq⟩ := peel_token hw hx k7 l7 heq
  obtain ⟨e7, heq⟩ := peel_gap k7 l7 hw' hx' heq
  obtain ⟨ew', heq⟩ := peel_token hw' hx' k8 l8 heq
  obtain ⟨e8, heq⟩ := peel_space k8.2 l8.2 heq
  obtain ⟨e9, heq⟩ := peel_space k9.2 l9.2 heq
  obtain ⟨e10, heq⟩ := peel_space k10.2 l10.2 heq
  obtain ⟨e11, heq⟩ := peel_space k11.2 l11.2 heq
  obtain ⟨e12, heq⟩ := peel_space k12.2 l12.2 heq
  obtain ⟨e13, heq⟩ := peel_space k13.2 l13.2 heq
  obtain ⟨e14, heq⟩ := peel_space k14.2 l14.2 heq
  obtain ⟨e15, ev⟩ := peel_space k15.2 l15.2 heq
  subst e1 e2 e3 e4 e5 e6 ew e7 ew' e8 e9 e10 e11 e12 e13 e14 e15
  exact ⟨rfl, ev⟩

/-! ## The engine's answer -/

/-- The tokens of a line: the last item, and the rest of the line. -/
structure AccessTokens extends AccessHead where
  t16 : Bytes
  rest : Bytes
  deriving DecidableEq, Repr

namespace AccessTokens

def line (t : AccessTokens) : Bytes := t.text (t.t16 ++ t.rest)

def caps13 (t : AccessTokens) : Caps UInt8 := t.caps ++ [(13, t.t16)]

structure Valid (t : AccessTokens) : Prop where
  head : t.toAccessHead.Valid
  last : IsToken t.t16
  rest : Stops isWord t.rest

theorem line_unique {t t' : AccessTokens} (ht : t.Valid) (ht' : t'.Valid)
    (h : t.line = t'.line) : t = t' := by
  obtain ⟨hhead, hrest⟩ := AccessHead.text_unique ht.head.toSpaced ht'.head.toSpaced h
  obtain ⟨hlast, hrest⟩ := run_unique ht.last.2 ht'.last.2 ht.rest ht'.rest hrest
  cases t
  cases t'
  simp_all

end AccessTokens

theorem head?_run_lastGroup (s : Bytes) :
    (Re.run (Re.cat [Re.group 13 words]) s).head?
      = if s.takeWhile isWord = [] then none
        else some ⟨s.takeWhile isWord, [(13, s.takeWhile isWord)], s.dropWhile isWord⟩ := by
  cases s with
  | nil => rfl
  | cons a s =>
      cases ha : isWord a with
      | false => simp [Re.cat, Re.run, words, Re.plus, ha]
      | true =>
          have hg := Re.head?_runs_greedy isWord s
          simpa [Re.cat, Re.run, words, Re.plus, ha, Thread.append] using hg

/-- The items of the pattern have one successful thread on a tokenized
line. -/
theorem run_accessItems_unique {h : AccessHead} (hv : h.Valid) (v : Bytes) :
    ∀ y ∈ Re.run (Re.cat accessItems) (h.text v), y = ⟨h.text [], h.caps, v⟩ := by
  intro y hy
  obtain ⟨hsplit, heats⟩ := Re.mem_run.mp hy
  obtain ⟨h', hv', heaten, hcaps⟩ := eats_accessItems.mp heats
  rw [heaten, ← AccessHead.text_append] at hsplit
  obtain ⟨rfl, hrest⟩ := AccessHead.text_unique hv.toSpaced hv'.toSpaced hsplit
  obtain ⟨e, c, r⟩ := y
  simp_all

theorem mem_run_accessItems {h : AccessHead} (hv : h.Valid) (v : Bytes) :
    (⟨h.text [], h.caps, v⟩ : Thread UInt8) ∈ Re.run (Re.cat accessItems) (h.text v) :=
  Re.mem_run.mpr ⟨h.text_append v, eats_accessItems.mpr ⟨h, hv, rfl, rfl⟩⟩

theorem matchAt_line {t : AccessTokens} (ht : t.Valid) :
    accessLog.matchAt 0 t.line = some ⟨t.text [] ++ t.t16, t.caps13, t.rest⟩ := by
  have hlast := head?_run_lastGroup (t.t16 ++ t.rest)
  rw [takeWhile_of_stops ht.last.2 ht.rest, dropWhile_of_stops ht.last.2 ht.rest,
    if_neg ht.last.1] at hlast
  have hseq := Re.head?_run_seq_of_forall_eq (t := Re.cat [Re.group 13 words])
    (run_accessItems_unique ht.head (t.t16 ++ t.rest)) (mem_run_accessItems ht.head _)
  show (Re.run (Re.cat (accessItems ++ [Re.group 13 words])) t.line).head? = _
  rw [Re.run_cat_append, AccessTokens.line, hseq, hlast]
  rfl

theorem matchAll_line {t : AccessTokens} (ht : t.Valid) :
    accessLog.matchAll t.line = [⟨0, t.text [] ++ t.t16, t.caps13⟩] := by
  have hpos := Pattern.matchAt_eaten_pos (matchAt_line ht)
  rw [Pattern.matchAll, Pattern.scan_some (matchAt_line ht),
    Pattern.scan_anchored rfl (by omega)]

theorem matchAll_accessLog_of_none {L : Bytes} (h : accessLog.matchAt 0 L = none) :
    accessLog.matchAll L = [] := by
  cases L with
  | nil => rfl
  | cons a L =>
      rw [Pattern.matchAll, Pattern.scan, h]
      exact Pattern.scan_anchored rfl (by omega) L

theorem exists_tokens_of_matchAt {L : Bytes} {x : Thread UInt8}
    (h : accessLog.matchAt 0 L = some x) : ∃ t : AccessTokens, t.Valid ∧ L = t.line := by
  have hmem := Pattern.matchAt_mem h
  rw [show accessLog.re = Re.cat (accessItems ++ [Re.group 13 words]) from rfl,
    Re.run_cat_append] at hmem
  obtain ⟨hL, u, c, v, d, hu, hv, heaten, -⟩ := Re.mem_run.mp hmem
  obtain ⟨hd, hvalid, rfl, -⟩ := eats_accessItems.mp hu
  obtain ⟨w, _, z, _, ⟨_, hw, -⟩, hz, rfl, -⟩ := Re.eats_cat_cons.mp hv
  obtain ⟨hw, -⟩ := eats_words.mp hw
  obtain ⟨rfl, -⟩ := Re.eats_cat_nil.mp hz
  rw [heaten, List.append_nil, List.append_assoc] at hL
  -- the last group of a thread may stop early; the token goes on to the end of the run
  refine ⟨⟨hd, w ++ x.rest.takeWhile isWord, x.rest.dropWhile isWord⟩,
    ⟨hvalid, ⟨by simp [hw.1], ?_⟩, stops_dropWhile isWord _⟩, ?_⟩
  · intro a ha
    rcases List.mem_append.mp ha with ha | ha
    · exact hw.2 a ha
    · exact List.mem_takeWhile_imp ha
  · rw [hL, AccessTokens.line, List.append_assoc w, List.takeWhile_append_dropWhile,
      AccessHead.text_append hd (w ++ x.rest)]

theorem matchAll_ne_nil_iff {L : Bytes} :
    accessLog.matchAll L ≠ [] ↔ ∃ t : AccessTokens, t.Valid ∧ L = t.line := by
  constructor
  · intro h
    cases hx : accessLog.matchAt 0 L with
    | none => exact absurd (matchAll_accessLog_of_none hx) h
    | some x => exact exists_tokens_of_matchAt hx
  · rintro ⟨t, ht, rfl⟩
    rw [matchAll_line ht]
    simp

/-- The eleven values kept of a tokenized line. -/
def AccessTokens.fields (t : AccessTokens) : NginxFields where
  ip_address := t.t1
  date := t.t4 ++ ch ' ' :: t.t5
  method := t.t6 ++ (t.w ++ (t.t7 ++ (t.w' ++ t.t8)))
  status := t.t9
  ping := t.t10
  site := t.t11
  rt := t.t12
  uct := t.t13
  uht := t.t14
  urt := t.t15
  gz := t.t16

theorem parseLine_line {t : AccessTokens} (ht : t.Valid) : parseLine t.line = t.fields := by
  rw [parseLine, pregMatchAll, matchAll_line ht]
  rfl

/-- **The pattern is a left-to-right tokenizer.** On every line it matches
at most once; it matches exactly the lines that are split by white space
into sixteen tokens of the right shapes, with single spaces everywhere but
inside the request; that split is unique, and the thirteen groups are read
off it. -/
theorem accessLog_tokenizes (L : Bytes) :
    (pregMatchAll accessLog L).length ≤ 1
    ∧ (pregMatchAll accessLog L ≠ [] ↔ ∃ t : AccessTokens, t.Valid ∧ L = t.line)
    ∧ ∀ t : AccessTokens, t.Valid → L = t.line →
      (∀ t' : AccessTokens, t'.Valid → L = t'.line → t' = t)
      ∧ ∃ m, pregMatchAll accessLog L = [m]
        ∧ m.group 1 = t.t1 ∧ m.group 2 = t.t2 ∧ m.group 3 = t.t3
        ∧ m.group 4 = t.t4 ++ ch ' ' :: t.t5
        ∧ m.group 5 = t.t6 ++ (t.w ++ (t.t7 ++ (t.w' ++ t.t8)))
        ∧ m.group 6 = t.t9 ∧ m.group 7 = t.t10 ∧ m.group 8 = t.t11
        ∧ m.group 9 = t.t12 ∧ m.group 10 = t.t13 ∧ m.group 11 = t.t14
        ∧ m.group 12 = t.t15 ∧ m.group 13 = t.t16 := by
  refine ⟨?_, matchAll_ne_nil_iff, ?_⟩
  · by_cases h : accessLog.matchAll L = []
    · simp [pregMatchAll, h]
    · obtain ⟨t, ht, rfl⟩ := matchAll_ne_nil_iff.mp h
      simp [pregMatchAll, matchAll_line ht]
  · rintro t ht rfl
    refine ⟨fun t' ht' h => (AccessTokens.line_unique ht ht' h).symm, _, matchAll_line ht, ?_⟩
    exact ⟨rfl, rfl, rfl, rfl, rfl, rfl, rfl, rfl, rfl, rfl, rfl, rfl, rfl⟩

end Wahana
