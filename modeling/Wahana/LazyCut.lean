import Wahana.Regex

/-!
# Lazy repetitions before a literal

A lazy `[p]+?` followed by a literal separator takes the shortest text it
can. `First p sep x` says that `x` is such a text: the separator occurs in
`x ++ sep` at the end only. This is a property of `x` alone, so a cut made
in a piece of a subject stays the engine's cut when the piece is put into
a larger subject.

`First.exists` finds the first cut when there is any, and
`head?_run_lazy_lit` is the engine's answer for it. The greedy `[^c]*`
before its own delimiter `c` is the opposite case, `head?_run_greedy_until`.
-/

namespace Wahana

variable {α : Type}

structure First (p : α → Bool) (sep x : List α) : Prop where
  ne : x ≠ []
  all : ∀ a ∈ x, p a = true
  first : ∀ x', x' ≠ [] → x' ++ sep <+: x ++ sep → x' = x

section

variable {p : α → Bool} {sep : List α}

theorem First.of_notMem {a : α} {x : List α} (hne : x ≠ []) (hall : ∀ b ∈ x, p b = true)
    (ha : a ∉ x) : First p (a :: sep) x := by
  refine ⟨hne, hall, ?_⟩
  rintro x' - ⟨v, hv⟩
  rw [List.append_assoc, List.cons_append] at hv
  rcases List.append_eq_append_iff.mp hv with ⟨c, hx, hc⟩ | ⟨c, hx, hc⟩
  · cases c with
    | nil => rw [hx, List.append_nil]
    | cons b c =>
        obtain ⟨rfl, -⟩ := List.cons.inj hc
        exact absurd (by simp [hx]) ha
  · -- a longer text would not fit
    have hlen := congrArg List.length hc
    simp only [List.length_append, List.length_cons] at hlen
    have hnil : c = [] := List.eq_nil_of_length_eq_zero (by omega)
    rw [hx, hnil, List.append_nil]

/-- Where the separator occurs at all, there is a first occurrence. -/
theorem First.exists (sep : List α) {x : List α} (hne : x ≠ []) (hall : ∀ a ∈ x, p a = true) :
    ∃ y w, First p sep y ∧ x ++ sep = y ++ (sep ++ w) := by
  by_cases h : ∀ x', x' ≠ [] → x' ++ sep <+: x ++ sep → x' = x
  · exact ⟨x, [], ⟨hne, hall, h⟩, by simp⟩
  · push Not at h
    obtain ⟨x', hne', ⟨v, hv⟩, hx'⟩ := h
    rw [List.append_assoc] at hv
    obtain ⟨c, rfl⟩ : ∃ c, x = x' ++ c := by
      rcases List.append_eq_append_iff.mp hv with ⟨c, hx, -⟩ | ⟨c, hx, hc⟩
      · exact ⟨c, hx⟩
      · have hlen := congrArg List.length hc
        simp only [List.length_append] at hlen
        exact ⟨[], by rw [hx, List.eq_nil_of_length_eq_zero (l := c) (by omega)]; simp⟩
    have hc : c ≠ [] := by rintro rfl; simp at hx'
    have hshort : x'.length < (x' ++ c).length := by
      rw [List.length_append]
      exact Nat.lt_add_of_pos_right (List.length_pos_iff.mpr hc)
    obtain ⟨y, w, hy, hw⟩ := First.exists sep hne' fun a ha => hall a (List.mem_append_left _ ha)
    exact ⟨y, w ++ v, hy, by rw [← hv, ← List.append_assoc x', hw]; simp⟩
termination_by x.length

end

namespace Re

variable [DecidableEq α] {p : α → Bool}

/-- The patterns for the letters of a fixed text. -/
def lit (l : List α) : List (Re α) := l.map fun a => one (· == a)

theorem run_lit_append (ts : List (Re α)) (v : List α) : ∀ l : List α,
    run (cat (lit l ++ ts)) (l ++ v) = (run (cat ts) v).map (Thread.append ⟨l, [], v⟩)
  | [] => by simp [lit, Thread.append_nil]
  | a :: l => by
      have ih := run_lit_append ts v l
      simp only [lit, List.map_cons, List.cons_append, cat, run, beq_self_eq_true, if_true,
        List.flatMap_cons, List.flatMap_nil, List.append_nil] at ih ⊢
      rw [ih, List.map_map]
      rfl

theorem eats_lit_append {ts : List (Re α)} {c : Caps α} : ∀ {l u : List α},
    Eats (cat (lit l ++ ts)) u c → ∃ v, Eats (cat ts) v c ∧ u = l ++ v
  | [], u, h => ⟨u, h, rfl⟩
  | a :: l, _, h => by
      obtain ⟨_, _, u, c, ⟨b, hb, rfl, rfl⟩, hu, rfl, rfl⟩ := eats_cat_cons.mp h
      obtain ⟨v, hv, rfl⟩ := eats_lit_append (l := l) hu
      exact ⟨v, hv, by rw [beq_iff_eq.mp hb]; rfl⟩

theorem isPrefix_of_run_lit {ts : List (Re α)} {l s : List α} {x : Thread α}
    (h : x ∈ run (cat (lit l ++ ts)) s) : l <+: s := by
  obtain ⟨hs, heats⟩ := mem_run.mp h
  obtain ⟨v, -, heaten⟩ := eats_lit_append heats
  exact ⟨v ++ x.rest, by rw [hs, heaten, List.append_assoc]⟩

/-- The engine's answer for `([p]+?)` before a separator, if what follows
succeeds behind the first occurrence of the separator. -/
theorem head?_run_lazy_lit {n : Nat} {sep x v : List α} {ts : List (Re α)} {y : Thread α}
    (hx : First p sep x) (hy : (run (cat ts) v).head? = some y) :
    (run (cat (group n (plus false p) :: (lit sep ++ ts))) (x ++ (sep ++ v))).head?
      = some ⟨x ++ (sep ++ y.eaten), (n, x) :: y.caps, y.rest⟩ := by
  obtain ⟨a, x₀, rfl⟩ := List.exists_cons_of_ne_nil hx.ne
  have hfirst : (run (cat (lit sep ++ ts)) (sep ++ v)).head?
      = some (Thread.append ⟨sep, [], v⟩ y) := by
    rw [run_lit_append, List.head?_map, hy]
    rfl
  -- stopping inside the text fails, since the separator does not follow there
  have hlazy := findSome?_runs_lazy (p := p) (u := x₀) (v := sep ++ v)
    (f := fun z => ((run (cat (lit sep ++ ts)) z.2).head?).map
      (Thread.append ⟨a :: z.1, [(n, a :: z.1)], z.2⟩))
    (fun b hb => hx.all b (List.mem_cons_of_mem _ hb))
    (fun u₁ u₂ hu hne => by
      cases hz : run (cat (lit sep ++ ts)) (u₂ ++ (sep ++ v)) with
      | nil => simp
      | cons z zs =>
          have hpre := isPrefix_of_run_lit (x := z) (by rw [hz]; simp)
          rw [← List.append_assoc] at hpre
          have hpre' : sep <+: u₂ ++ sep :=
            List.prefix_of_prefix_length_le hpre (List.prefix_append _ _) (by simp)
          have heq := hx.first (a :: u₁) (by simp) (by
            rw [hu, List.cons_append, List.cons_append, List.append_assoc]
            exact (List.prefix_append_right_inj (a :: u₁)).mpr hpre')
          have hu' : u₁ ++ [] = u₁ ++ u₂ := by simpa [hu] using heq
          exact absurd (List.append_cancel_left hu').symm hne)
    (y := Thread.append ⟨a :: x₀, [(n, a :: x₀)], sep ++ v⟩ (Thread.append ⟨sep, [], v⟩ y))
    (by simp only [hfirst, Option.map_some])
  have ha : p a = true := hx.all a (by simp)
  rw [cat, head?_run_seq, run, List.findSome?_map]
  simp only [plus, run, List.cons_append, ha, if_true, List.flatMap_cons, List.flatMap_nil,
    List.append_nil, List.map_map, List.findSome?_map]
  simpa [Thread.append, Function.comp_def] using hlazy

/-- The engine's answer for a greedy `([^c]*)` before `c`. -/
theorem head?_run_greedy_until {n : Nat} {c : α} {z v : List α} (hz : c ∉ z) :
    (run (cat [group n (many true (· != c)), one (· == c)]) (z ++ c :: v)).head?
      = some ⟨z ++ [c], [(n, z)], v⟩ := by
  have hall : ∀ a ∈ z, (a != c) = true := by
    intro a ha
    rw [bne_iff_ne]
    rintro rfl
    exact hz ha
  have htake : (z ++ c :: v).takeWhile (· != c) = z := by
    rw [List.takeWhile_append_of_pos hall]
    simp
  have hdrop : (z ++ c :: v).dropWhile (· != c) = c :: v := by
    rw [List.dropWhile_append_of_pos hall]
    simp
  have hgreedy := head?_runs_greedy (· != c) (z ++ c :: v)
  rw [htake, hdrop] at hgreedy
  obtain ⟨more, hmore⟩ := List.head?_eq_some_iff.mp hgreedy
  rw [cat, head?_run_seq, run, run, hmore]
  simp [cat, run, Thread.append]

end Re

end Wahana
