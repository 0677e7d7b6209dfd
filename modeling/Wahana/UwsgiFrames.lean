import Wahana.Runs
import Wahana.UwsgiRun

/-!
# Framing of uWSGI records

The record pattern is matched against the whole log at once. A match
starts at an opening brace, and its first group goes on to the first
`} {` behind it: the group is lazy at its end, but its start is wherever
the leftmost search put it.

`scan_group` is the scan over one complete group and `scan_quiet` the scan
over text that cannot hold a match. The rest is induction over the log:

- in a log of noise lines and records, every record gives one match, with
  the record's own second and third group (`records_framed`);
- the first group is the record's own exactly when the text before the
  record leaves no brace open, `Settled` (`figuresOwn_iff`).

A match is cut at ASCII bytes only, so the groups of a log of valid UTF-8
are valid and none of them ends the script (`groupsValid_of_validUtf8`).
-/

namespace Wahana

/-! ## Lines and records -/

/-- A line in which no match can start. -/
abbrev QuietLine := {t : Bytes // ch '\n' ∉ t ∧ ¬ groupSep <:+: t}

/-- A figure: not empty, free of braces and line feeds. -/
def Figure (u : Bytes) : Prop := u ≠ [] ∧ ∀ a ∈ u, a ≠ ch '{' ∧ a ≠ ch '}' ∧ a ≠ ch '\n'

instance (u : Bytes) : Decidable (Figure u) := inferInstanceAs (Decidable (_ ∧ _))

/-- `{x} {y} [z]` -/
def groupText (x y z : Bytes) : Bytes :=
  ch '{' :: (x ++ (groupSep ++ (y ++ (pidSep ++ (z ++ [ch ']'])))))

/-- A line with the record `{A} {R} [Q]` between `p` and `s`. -/
structure UwsgiRecord where
  (p A R Q s : Bytes)
  p_line : ch '\n' ∉ p
  A_figure : Figure A
  R_figure : Figure R
  Q_free : ∀ a ∈ Q, a ≠ ch ']' ∧ a ≠ ch '\n'
  s_line : ch '\n' ∉ s
  s_quiet : ¬ groupSep <:+: s

namespace UwsgiRecord

def frame (r : UwsgiRecord) : Bytes := groupText r.A r.R r.Q

def line (r : UwsgiRecord) : Bytes := r.p ++ (r.frame ++ r.s)

end UwsgiRecord

/-! ## Where matches start -/

theorem isDot_iff {b : UInt8} : isDot b = true ↔ b ≠ ch '\n' := by
  simp [isDot]

theorem eats_uwsgiRegex {u : Bytes} {c : Caps UInt8} (h : uwsgiRegex.re.Eats u c) :
    ∃ x y z, (∀ a ∈ x, isDot a = true) ∧ u = groupText x y z ∧ c = [(1, x), (2, y), (3, z)] := by
  obtain ⟨_, _, _, _, h₁, h₂, rfl, rfl⟩ := Re.eats_cat_cons.mp h
  obtain ⟨rfl, rfl⟩ := Re.eats_chr.mp h₁
  obtain ⟨x, _, _, _, ⟨_, hx, rfl⟩, h₃, rfl, rfl⟩ := Re.eats_cat_cons.mp h₂
  obtain ⟨_, h₄, rfl⟩ := Re.eats_lit_append h₃
  obtain ⟨y, _, _, _, ⟨_, hy, rfl⟩, h₅, rfl, rfl⟩ := Re.eats_cat_cons.mp h₄
  obtain ⟨_, h₆, rfl⟩ := Re.eats_lit_append h₅
  obtain ⟨z, _, _, _, ⟨_, hz, rfl⟩, h₇, rfl, rfl⟩ := Re.eats_cat_cons.mp h₆
  obtain ⟨_, _, _, _, h₈, h₉, rfl, rfl⟩ := Re.eats_cat_cons.mp h₇
  obtain ⟨rfl, rfl⟩ := Re.eats_chr.mp h₈
  obtain ⟨rfl, rfl⟩ := Re.eats_cat_nil.mp h₉
  obtain ⟨-, hdots, rfl⟩ := Re.eats_plus.mp hx
  obtain ⟨-, -, rfl⟩ := Re.eats_plus.mp hy
  obtain ⟨-, rfl⟩ := hz
  exact ⟨x, y, z, hdots, rfl, rfl⟩

theorem matchAt_of_ne_brace {i : Nat} {a : UInt8} {s : Bytes} (ha : a ≠ ch '{') :
    uwsgiRegex.matchAt i (a :: s) = none := by
  refine Pattern.matchAt_eq_none fun u v c hs heats => ?_
  obtain ⟨x, y, z, -, rfl, -⟩ := eats_uwsgiRegex heats
  exact ha (List.head_eq_of_cons_eq hs)

theorem scan_no_brace {n v : Bytes} (hn : ch '{' ∉ n) (i : Nat) :
    uwsgiRegex.scan 0 i (n ++ v) = uwsgiRegex.scan 0 (i + n.length) v := by
  refine Pattern.scan_none fun u₁ u₂ hu hne => ?_
  obtain ⟨a, u, rfl⟩ := List.exists_cons_of_ne_nil hne
  exact matchAt_of_ne_brace fun ha => hn (by rw [hu, ha]; simp)

/-- A prefix that ends in `c` does not reach into text without `c`. -/
theorem isPrefix_of_notMem {w u v : Bytes} {c : UInt8} (hc : c ∉ v) (h : w ++ [c] <+: u ++ v) :
    w ++ [c] <+: u := by
  obtain ⟨t, ht⟩ := h
  rcases List.append_eq_append_iff.mp ht with ⟨d, hd, -⟩ | ⟨d, hd, hv⟩
  · exact ⟨d, hd.symm⟩
  · rcases List.eq_nil_or_concat d with rfl | ⟨d', b, rfl⟩
    · exact ⟨[], by simpa using hd⟩
    · rw [List.concat_eq_append, ← List.append_assoc] at hd
      have hb : c = b := List.singleton_inj.mp (List.append_inj_right' hd rfl)
      exact absurd (by rw [hv, hb]; simp) hc

theorem matchAt_of_quiet {i : Nat} {u v : Bytes} (hu : ¬ groupSep <:+: u)
    (hv : Stops isDot v) : uwsgiRegex.matchAt i (u ++ v) = none := by
  refine Pattern.matchAt_eq_none fun w t c hs heats => ?_
  obtain ⟨x, y, z, hx, rfl, -⟩ := eats_uwsgiRegex heats
  have hdots : ∀ a ∈ ch '{' :: x ++ groupSep, isDot a = true :=
    List.forall_mem_append.mpr ⟨List.forall_mem_cons.mpr ⟨by decide, hx⟩, by decide⟩
  obtain ⟨t', ht'⟩ := prefix_of_stops (u := u) hdots hv
    ⟨y ++ (pidSep ++ (z ++ [ch ']'])) ++ t, by rw [hs]; simp [groupText]⟩
  exact hu ⟨ch '{' :: x, t', ht'⟩

theorem scan_quiet {u v : Bytes} (hu : ¬ groupSep <:+: u) (hv : Stops isDot v) (i : Nat) :
    uwsgiRegex.scan 0 i (u ++ v) = uwsgiRegex.scan 0 (i + u.length) v := by
  refine Pattern.scan_none fun u₁ u₂ h _ => matchAt_of_quiet (fun hsep => hu ?_) hv
  exact hsep.trans ⟨u₁, [], by rw [h]; simp⟩

theorem scan_quiet_line {u v : Bytes} (hu : ¬ groupSep <:+: u) (i : Nat) :
    uwsgiRegex.scan 0 i (u ++ ch '\n' :: v) = uwsgiRegex.scan 0 (i + u.length + 1) v := by
  rw [scan_quiet hu (stops_cons (by decide))]
  exact scan_no_brace (n := [ch '\n']) (by decide) _

/-! ## One complete group -/

theorem matchAt_group {i : Nat} {x y z v : Bytes} (hx : First isDot groupSep x)
    (hy : First isDot pidSep y) (hz : ch ']' ∉ z) :
    uwsgiRegex.matchAt i (groupText x y z ++ v)
      = some ⟨groupText x y z, [(1, x), (2, y), (3, z)], v⟩ := by
  have h₃ := Re.head?_run_greedy_until (n := 3) (v := v) hz
  have h₂ := Re.head?_run_lazy_lit (n := 2) hy h₃
  have h₁ := Re.head?_run_lazy_lit (n := 1) hx h₂
  have h₀ := Re.run_lit_append (Re.group 1 (Re.plus false isDot) :: (Re.lit groupSep
    ++ Re.group 2 (Re.plus false isDot) :: (Re.lit pidSep ++ [Re.group 3 (Re.many true (· != ch ']')),
      Re.one (· == ch ']')])))
    (x ++ (groupSep ++ (y ++ (pidSep ++ (z ++ ch ']' :: v))))) [ch '{']
  show (Re.run _ (groupText x y z ++ v)).head? = _
  have htext : groupText x y z ++ v
      = [ch '{'] ++ (x ++ (groupSep ++ (y ++ (pidSep ++ (z ++ ch ']' :: v))))) := by
    simp [groupText]
  rw [htext]
  refine (congrArg List.head? h₀).trans ?_
  rw [List.head?_map, h₁]
  simp [Thread.append, groupText]

/-- The scan up to the first brace and over the group it opens. -/
theorem scan_group {i : Nat} {n x y z v : Bytes} (hn : ch '{' ∉ n)
    (hx : First isDot groupSep x) (hy : First isDot pidSep y) (hz : ch ']' ∉ z) :
    uwsgiRegex.scan 0 i (n ++ (groupText x y z ++ v))
      = ⟨i + n.length, groupText x y z, [(1, x), (2, y), (3, z)]⟩
        :: uwsgiRegex.scan 0 (i + n.length + (groupText x y z).length) v := by
  rw [scan_no_brace hn, Pattern.scan_some (matchAt_group hx hy hz)]

theorem Figure.dots {u : Bytes} (h : Figure u) : ∀ a ∈ u, isDot a = true :=
  fun a ha => isDot_iff.mpr (h.2 a ha).2.2

theorem Figure.no_open {u : Bytes} (h : Figure u) : ch '{' ∉ u := fun ha => (h.2 _ ha).1 rfl

theorem Figure.no_close {u : Bytes} (h : Figure u) : ch '}' ∉ u := fun ha => (h.2 _ ha).2.1 rfl

/-- A figure ends at its own closing brace. -/
theorem Figure.first {u sep : Bytes} (h : Figure u) : First isDot (ch '}' :: sep) u :=
  First.of_notMem h.1 h.dots h.no_close

theorem UwsgiRecord.Q_closed (r : UwsgiRecord) : ch ']' ∉ r.Q := fun ha => (r.Q_free _ ha).1 rfl

theorem dots_of_no_newline {u : Bytes} (h : ch '\n' ∉ u) : ∀ a ∈ u, isDot a = true := by
  intro a ha
  rw [isDot_iff]
  rintro rfl
  exact h ha

/-! ## Groups of valid UTF-8 -/

theorem validUtf8_groups {u v x y z : Bytes} (h : ValidUtf8 (u ++ (groupText x y z ++ v))) :
    ValidUtf8 x ∧ ValidUtf8 y ∧ ValidUtf8 z := by
  have htext : u ++ (groupText x y z ++ v) = u ++ ch '{' :: (x ++ ch '}' :: ([] ++ ch ' ' :: ([]
      ++ ch '{' :: (y ++ ch '}' :: ([] ++ ch ' ' :: ([] ++ ch '[' :: (z ++ ch ']' :: v))))))) := by
    simp [groupText, groupSep, pidSep]
  rw [htext] at h
  obtain ⟨-, h⟩ := h.cut (by decide)
  obtain ⟨hx, h⟩ := h.cut (by decide)
  obtain ⟨-, h⟩ := h.cut (by decide)
  obtain ⟨-, h⟩ := h.cut (by decide)
  obtain ⟨hy, h⟩ := h.cut (by decide)
  obtain ⟨-, h⟩ := h.cut (by decide)
  obtain ⟨-, h⟩ := h.cut (by decide)
  exact ⟨hx, hy, (h.cut (by decide)).1⟩

theorem groupsValid_of_validUtf8 {content : Bytes} (h : ValidUtf8 content) (i : Nat) :
    GroupsValid content i := by
  intro m hm
  obtain ⟨u, v, hcontent, heats⟩ := Pattern.exists_of_mem_scan (List.mem_of_getElem? hm)
  obtain ⟨x, y, z, -, htext, hcaps⟩ := eats_uwsgiRegex heats
  rw [hcontent, htext] at h
  obtain ⟨hx, hy, hz⟩ := validUtf8_groups h
  simp only [List.forall_mem_cons, Match.group, hcaps]
  exact ⟨hx, hy, hz, by simp⟩

/-! ## Logs of noise and records -/

/-- A line of the log: noise, or a record with no `} {` before it. -/
inductive UwsgiLine where
  | noise (t : QuietLine)
  | record (r : UwsgiRecord) (quiet : ¬ groupSep <:+: r.p ++ [ch '{'])

def UwsgiLine.text : UwsgiLine → Bytes
  | noise t => t
  | record r _ => r.line

def UwsgiLine.record? : UwsgiLine → Option UwsgiRecord
  | noise _ => none
  | record r _ => some r

def logText (ls : List UwsgiLine) : Bytes := ls.flatMap fun l => l.text ++ [ch '\n']

def records (ls : List UwsgiLine) : List UwsgiRecord := ls.filterMap UwsgiLine.record?

/-- A text cut at a separator before the end of the figure would put the
separator before the figure. -/
theorem eq_of_groupSep_isPrefix {n x y A : Bytes} (hA : Figure A)
    (hq : ¬ groupSep <:+: n ++ ch '{' :: x) (hpre : y ++ groupSep <+: x ++ A ++ groupSep) :
    y = x ++ A := by
  by_contra hne
  have hlen : y.length < (x ++ A).length := by
    obtain ⟨t, ht⟩ := hpre
    have hle := congrArg List.length ht
    simp only [List.length_append] at hle ⊢
    rcases Nat.lt_or_ge y.length (x.length + A.length) with hlt | hge
    · exact hlt
    · have ht0 : t = [] := List.eq_nil_of_length_eq_zero (by omega)
      rw [ht0, List.append_nil] at ht
      exact absurd (List.append_cancel_right ht) hne
  have hall : (y ++ [ch '}', ch ' ']) ++ [ch '{'] <+: (x ++ A) ++ groupSep := by
    simpa [groupSep] using hpre
  have hcut : x ++ (A ++ [ch '}', ch ' ']) <+: (x ++ A) ++ groupSep :=
    ⟨[ch '{'], by simp [groupSep]⟩
  have hshort : (y ++ [ch '}', ch ' ']) ++ [ch '{'] <+: x ++ (A ++ [ch '}', ch ' ']) := by
    refine List.prefix_of_prefix_length_le hall hcut ?_
    simp only [List.length_append, List.length_cons, List.length_nil] at hlen ⊢
    omega
  have hno : ch '{' ∉ A ++ [ch '}', ch ' '] := by
    rw [List.mem_append, not_or]
    exact ⟨hA.no_open, by decide⟩
  obtain ⟨t, ht⟩ := isPrefix_of_notMem hno hshort
  exact hq ⟨n ++ ch '{' :: y, t, by rw [← ht]; simp [groupSep]⟩

/-- The first brace of the line and the text from there to the end of the
first figure: the separator behind that figure is the first one. -/
theorem exists_first_group {r : UwsgiRecord} (hq : ¬ groupSep <:+: r.p ++ [ch '{']) :
    ∃ n x, ch '{' ∉ n ∧ First isDot groupSep x ∧
      r.p ++ r.frame = n ++ groupText x r.R r.Q := by
  obtain ⟨n, x, hnx, hn⟩ := List.eq_append_cons_of_mem
    (show ch '{' ∈ r.p ++ [ch '{'] by simp)
  have htext : ∀ v, r.p ++ ch '{' :: v = n ++ ch '{' :: (x ++ v) := by
    intro v
    have := congrArg (· ++ v) hnx
    simpa using this
  have hxp : ∀ a ∈ x, a ∈ r.p ++ [ch '{'] := by
    intro a ha
    rw [hnx]
    simp [ha]
  refine ⟨n, x ++ r.A, hn, ⟨?_, ?_, ?_⟩, ?_⟩
  · exact List.append_ne_nil_of_right_ne_nil _ r.A_figure.1
  · refine List.forall_mem_append.mpr ⟨fun a ha => ?_, r.A_figure.dots⟩
    rcases List.mem_append.mp (hxp a ha) with hp | hb
    · exact dots_of_no_newline r.p_line a hp
    · rw [List.mem_singleton.mp hb]
      decide
  · intro y _ hpre
    exact eq_of_groupSep_isPrefix r.A_figure (by rw [← hnx]; exact hq) hpre
  · rw [UwsgiRecord.frame, groupText, htext]
    simp [groupText]

/-- One match for each record, with its second and third group. -/
theorem scan_logText : ∀ (ls : List UwsgiLine) (i : Nat),
    (uwsgiRegex.scan 0 i (logText ls)).map (fun m => (m.group 2, m.group 3))
      = (records ls).map fun r => (r.R, r.Q)
  | [], i => by rw [logText, List.flatMap_nil, Pattern.scan_nil]; rfl
  | .noise t :: ls, i => by
      have htext : logText (.noise t :: ls) = t ++ ch '\n' :: logText ls := by
        simp [logText, UwsgiLine.text]
      rw [htext, scan_quiet_line t.2.2, scan_logText ls]
      rfl
  | .record r hq :: ls, i => by
      obtain ⟨n, x, hn, hx, hline⟩ := exists_first_group hq
      have htext : logText (.record r hq :: ls)
          = n ++ (groupText x r.R r.Q ++ (r.s ++ ch '\n' :: logText ls)) := by
        have := congrArg (· ++ (r.s ++ ch '\n' :: logText ls)) hline
        simpa [logText, UwsgiLine.text, UwsgiRecord.line] using this
      rw [htext, scan_group hn hx r.R_figure.first r.Q_closed, scan_quiet_line r.s_quiet,
        List.map_cons, scan_logText ls]
      rfl

theorem truthy_logText {ls : List UwsgiLine} (h : ls ≠ []) : truthy (logText ls) = true := by
  obtain ⟨l, ls', rfl⟩ := List.exists_cons_of_ne_nil h
  have hmem : ch '\n' ∈ logText (l :: ls') := by simp [logText]
  exact truthy_of_mem hmem (by decide)

/-- **Records are framed without loss, duplication or reordering.** The
three arrays have one entry for each record line, the second and third
ones holding the record's own values; and the document that the loop sends
for the `i`-th record carries them. It is sent unless a group captured up
to it is not valid UTF-8, which in a log of valid UTF-8 none is. -/
theorem records_framed (ls : List UwsgiLine) (redis : Redis) (client : DocStore UwsgiBody) :
    (∀ g, (patternOrder (pregMatchAll uwsgiRegex (logText ls)) g).length = (records ls).length)
    ∧ patternOrder (pregMatchAll uwsgiRegex (logText ls)) 2 = (records ls).map (fun r => r.R)
    ∧ patternOrder (pregMatchAll uwsgiRegex (logText ls)) 3 = (records ls).map (fun r => r.Q)
    ∧ (∀ i r, (records ls)[i]? = some r → ∀ n,
      (∀ d, ((uwsgiLoop.steps n (uwsgiStart (logText ls) redis client)).sent)[i]? = some d →
        d.body.rss_usage = some r.R ∧ d.body.pid = some r.Q)
      ∧ ((∃ d, ((uwsgiLoop.steps n (uwsgiStart (logText ls) redis client)).sent)[i]? = some d)
        ↔ i < n ∧ ∀ j ≤ i, GroupsValid (logText ls) j))
    ∧ (ValidUtf8 (logText ls) → ∀ j, GroupsValid (logText ls) j) := by
  have hscan : (pregMatchAll uwsgiRegex (logText ls)).map (fun m => (m.group 2, m.group 3))
      = (records ls).map fun r => (r.R, r.Q) := scan_logText ls 0
  have hlen : (pregMatchAll uwsgiRegex (logText ls)).length = (records ls).length := by
    simpa using congrArg List.length hscan
  have h₂ : patternOrder (pregMatchAll uwsgiRegex (logText ls)) 2
      = (records ls).map (fun r => r.R) := by
    simpa [patternOrder, Function.comp_def] using congrArg (List.map Prod.fst) hscan
  have h₃ : patternOrder (pregMatchAll uwsgiRegex (logText ls)) 3
      = (records ls).map (fun r => r.Q) := by
    simpa [patternOrder, Function.comp_def] using congrArg (List.map Prod.snd) hscan
  refine ⟨fun g => by simp [patternOrder, hlen], h₂, h₃, ?_, groupsValid_of_validUtf8⟩
  intro i r hr n
  have hne : ls ≠ [] := by
    rintro rfl
    simp [records] at hr
  refine ⟨fun d hd => ?_, exists_sent_iff (truthy_logText hne)⟩
  obtain ⟨-, rfl⟩ := (sent_getElem?_eq_some_iff (truthy_logText hne)).mp hd
  constructor
  · show (patternOrder (pregMatchAll uwsgiRegex (logText ls)) 2)[i]? = some r.R
    rw [h₂, List.getElem?_map, hr]
    rfl
  · show (patternOrder (pregMatchAll uwsgiRegex (logText ls)) 3)[i]? = some r.Q
    rw [h₃, List.getElem?_map, hr]
    rfl

/-! ## Text in front of a record -/

/-- The text leaves no brace open: it has no brace at all apart from
complete groups `{x} {y} [z]`, each cut where the lazy repetitions cut. -/
inductive Settled : Bytes → Prop where
  | clean {n : Bytes} : ch '{' ∉ n → Settled n
  | group {n x y z t : Bytes} : ch '{' ∉ n → First isDot groupSep x → First isDot pidSep y →
      ch ']' ∉ z → Settled t → Settled (n ++ (groupText x y z ++ t))

theorem match_of_settled {r : UwsgiRecord} {p v : Bytes} (h : Settled p) : ∀ i,
    ∃ m ∈ uwsgiRegex.scan 0 i (p ++ (r.frame ++ v)),
      m.start = i + p.length ∧ m.group 1 = r.A ∧ m.group 2 = r.R := by
  induction h with
  | @clean n hn =>
      intro i
      rw [UwsgiRecord.frame, scan_group hn r.A_figure.first r.R_figure.first r.Q_closed]
      exact ⟨_, List.mem_cons_self .., rfl, rfl, rfl⟩
  | @group n x y z t hn hx hy hz _ ih =>
      intro i
      obtain ⟨m, hm, hstart, hA, hR⟩ := ih (i + n.length + (groupText x y z).length)
      rw [List.append_assoc, List.append_assoc, scan_group hn hx hy hz]
      refine ⟨m, List.mem_cons_of_mem _ hm, ?_, hA, hR⟩
      simp only [List.length_append, hstart]
      omega

/-- The group that an open brace in front of the record leads to: it is
cut at the first separators, at the latest at those of the record. -/
theorem exists_group_over (r : UwsgiRecord) {p : Bytes} (hp : ch '\n' ∉ p) :
    ∃ x y z w, First isDot groupSep x ∧ First isDot pidSep y ∧ ch ']' ∉ z
      ∧ ch '{' :: p ++ r.frame = groupText x y z ++ w := by
  have hA : ∀ a ∈ p ++ ch '{' :: r.A, isDot a = true :=
    List.forall_mem_append.mpr ⟨dots_of_no_newline hp,
      List.forall_mem_cons.mpr ⟨by decide, r.A_figure.dots⟩⟩
  obtain ⟨x, w₁, hx, hxw⟩ := First.exists groupSep (by simp) hA
  have hw₁ : ∀ a ∈ w₁, isDot a = true := by
    intro a ha
    have hmem : a ∈ (p ++ ch '{' :: r.A) ++ groupSep := by
      rw [hxw]
      simp [ha]
    rcases List.mem_append.mp hmem with h | h
    · exact hA a h
    · exact (show ∀ b ∈ groupSep, isDot b = true by decide) a h
  obtain ⟨y, w₂, hy, hyw⟩ := First.exists pidSep (x := w₁ ++ r.R)
    (List.append_ne_nil_of_right_ne_nil _ r.R_figure.1)
    (List.forall_mem_append.mpr ⟨hw₁, r.R_figure.dots⟩)
  obtain ⟨z, w, hzw, hz⟩ := List.eq_append_cons_of_mem
    (show ch ']' ∈ w₂ ++ (r.Q ++ [ch ']']) by simp)
  refine ⟨x, y, z, w, hx, hy, hz, ?_⟩
  calc ch '{' :: p ++ r.frame
      = ch '{' :: ((p ++ ch '{' :: r.A) ++ groupSep ++ (r.R ++ (pidSep ++ (r.Q ++ [ch ']'])))) := by
        simp [UwsgiRecord.frame, groupText]
    _ = ch '{' :: (x ++ (groupSep ++ (w₁ ++ r.R ++ pidSep ++ (r.Q ++ [ch ']'])))) := by
        rw [hxw]; simp
    _ = ch '{' :: (x ++ (groupSep ++ (y ++ (pidSep ++ (w₂ ++ (r.Q ++ [ch ']'])))))) := by
        rw [hyw]; simp
    _ = groupText x y z ++ w := by
        rw [hzw]; simp [groupText]

/-- If a match starts where the record does, the search has passed over
the text in front of it in complete groups. -/
theorem settled_of_match {r : UwsgiRecord} {p v : Bytes} {i : Nat} (hp : ch '\n' ∉ p)
    (hm : ∃ m ∈ uwsgiRegex.scan 0 i (p ++ (r.frame ++ v)), m.start = i + p.length) :
    Settled p := by
  induction hk : p.length using Nat.strong_induction_on generalizing p i with
  | _ k ih =>
  by_cases hb : ch '{' ∈ p
  · obtain ⟨n, p', rfl, hn⟩ := List.eq_append_cons_of_mem hb
    have hp' : ch '\n' ∉ p' := fun h => hp (by simp [h])
    obtain ⟨x, y, z, w, hx, hy, hz, hw⟩ := exists_group_over r hp'
    have htext : n ++ ch '{' :: p' ++ (r.frame ++ v) = n ++ (groupText x y z ++ (w ++ v)) := by
      have := congrArg (fun u => n ++ (u ++ v)) hw
      simpa using this
    obtain ⟨m, hmem, hstart⟩ := hm
    rw [htext, scan_group hn hx hy hz] at hmem
    rw [List.length_append, List.length_cons] at hstart hk
    rcases List.mem_cons.mp hmem with rfl | hmem
    · -- the group found here starts before the record
      simp only at hstart
      omega
    · -- a later match, so the group ends in front of the record
      have hle := Pattern.le_start_of_mem_scan hmem
      obtain ⟨t, ht⟩ : groupText x y z <+: ch '{' :: p' :=
        List.prefix_of_prefix_length_le ⟨w, hw.symm⟩ (List.prefix_append _ _) (by
          rw [List.length_cons]
          omega)
      have hwt : w = t ++ r.frame := by
        rw [← ht, List.append_assoc] at hw
        exact (List.append_cancel_left hw).symm
      have hlen := congrArg List.length ht
      rw [List.length_append, List.length_cons] at hlen
      have hpos : 0 < (groupText x y z).length := by simp [groupText]
      have htn : ch '\n' ∉ t := fun h => hp (by rw [← ht]; simp [h])
      rw [hwt, List.append_assoc] at hmem
      have hset := ih t.length (by omega) htn ⟨m, hmem, by omega⟩ rfl
      rw [← ht]
      exact Settled.group hn hx hy hz hset
  · exact Settled.clean hb

/-! ## The record's own figures -/

/-- Quiet lines, each with its line feed. -/
def linesBefore (ts : List QuietLine) : Bytes := ts.flatMap fun t => t ++ [ch '\n']

/-- Quiet lines, each after a line feed. -/
def linesAfter (ts : List QuietLine) : Bytes := ts.flatMap fun t => ch '\n' :: t

theorem scan_linesBefore (v : Bytes) : ∀ (ts : List QuietLine) (i : Nat),
    uwsgiRegex.scan 0 i (linesBefore ts ++ v) = uwsgiRegex.scan 0 (i + (linesBefore ts).length) v
  | [], i => rfl
  | t :: ts, i => by
      have htext : linesBefore (t :: ts) ++ v = t ++ ch '\n' :: (linesBefore ts ++ v) := by
        simp [linesBefore]
      have hlen : (linesBefore (t :: ts)).length = t.1.length + 1 + (linesBefore ts).length := by
        simp [linesBefore]
        omega
      rw [htext, scan_quiet_line t.2.2, scan_linesBefore v ts, hlen]
      congr 1
      omega

/-- The log with the record in it. -/
def logAround (before : List QuietLine) (r : UwsgiRecord) (after : List QuietLine) : Bytes :=
  linesBefore before ++ (r.line ++ linesAfter after)

/-- Some match starts at the record's own brace and takes the record's
figures, and the document sent for it carries them. It is sent if the
groups captured up to it are valid UTF-8. -/
def FiguresOwn (before : List QuietLine) (r : UwsgiRecord) (after : List QuietLine)
    (redis : Redis) (client : DocStore UwsgiBody) : Prop :=
  ∃ i m, (pregMatchAll uwsgiRegex (logAround before r after))[i]? = some m
    ∧ m.start = (linesBefore before).length + r.p.length ∧ m.group 1 = r.A ∧ m.group 2 = r.R
    ∧ ∀ n,
      (∀ d, ((uwsgiLoop.steps n (uwsgiStart (logAround before r after) redis client)).sent)[i]?
          = some d → d.body.address_space_usage = some r.A ∧ d.body.rss_usage = some r.R)
      ∧ ((∃ d, ((uwsgiLoop.steps n (uwsgiStart (logAround before r after) redis client)).sent)[i]?
          = some d) ↔ i < n ∧ ∀ j ≤ i, GroupsValid (logAround before r after) j)

theorem pregMatchAll_logAround (before : List QuietLine) (r : UwsgiRecord)
    (after : List QuietLine) : pregMatchAll uwsgiRegex (logAround before r after)
      = uwsgiRegex.scan 0 (linesBefore before).length
        (r.p ++ (r.frame ++ (r.s ++ linesAfter after))) := by
  have h := scan_linesBefore (r.line ++ linesAfter after) before 0
  rw [Nat.zero_add] at h
  rw [pregMatchAll, Pattern.matchAll, logAround, h, UwsgiRecord.line]
  simp

theorem truthy_logAround (before : List QuietLine) (r : UwsgiRecord) (after : List QuietLine) :
    truthy (logAround before r after) = true := by
  have hmem : ch '{' ∈ logAround before r after := by
    simp [logAround, UwsgiRecord.line, UwsgiRecord.frame, groupText]
  exact truthy_of_mem hmem (by decide)

/-- **When the figures are the record's own.** The first group is lazy at
its end only: any brace that the text in front of the record leaves open
starts the match and draws that text into the field. -/
theorem figuresOwn_iff (before : List QuietLine) (r : UwsgiRecord) (after : List QuietLine)
    (redis : Redis) (client : DocStore UwsgiBody) :
    FiguresOwn before r after redis client ↔ Settled r.p := by
  constructor
  · rintro ⟨i, m, hm, hstart, -⟩
    have hmem := List.mem_of_getElem? hm
    rw [pregMatchAll_logAround] at hmem
    exact settled_of_match r.p_line ⟨m, hmem, hstart⟩
  · intro h
    obtain ⟨m, hmem, hstart, hA, hR⟩ := match_of_settled (r := r)
      (v := r.s ++ linesAfter after) h (linesBefore before).length
    rw [← pregMatchAll_logAround] at hmem
    obtain ⟨i, hi⟩ := List.mem_iff_getElem?.mp hmem
    have htrue := truthy_logAround before r after
    refine ⟨i, m, hi, hstart, hA, hR, fun n => ⟨fun d hd => ?_, exists_sent_iff htrue⟩⟩
    obtain ⟨-, rfl⟩ := (sent_getElem?_eq_some_iff htrue).mp hd
    constructor
    · simp [requestAt, uwsgiRequest, documentAt, patternOrder, hi, hA]
    · simp [requestAt, uwsgiRequest, documentAt, patternOrder, hi, hR]

/-- A record written into a line of a Perl trace. -/
def gluedRecord : UwsgiRecord where
  p := bytes "eval \x7b...\x7d at /usr/lib64/perl5/v"
  A := bytes "address space usage: 999534592 bytes/953MB"
  R := bytes "rss usage: 447090688 bytes/426MB"
  Q := bytes "pid: 28136|app: 0|req: 611/869"
  s := bytes " 116.206.13.163 ()"
  p_line := by decide
  A_figure := by decide
  R_figure := by decide
  Q_free := by decide
  s_line := by decide
  s_quiet := by decide

theorem gluedRecord_takes_trace : ¬ FiguresOwn [] gluedRecord [] (fun _ => none) .empty := by
  rintro ⟨i, m, hm, hstart, -⟩
  have hnone : ∀ m ∈ pregMatchAll uwsgiRegex (logAround [] gluedRecord []),
      m.start ≠ (linesBefore []).length + gluedRecord.p.length := by
    decide +kernel
  exact hnone m (List.mem_of_getElem? hm) hstart

end Wahana
