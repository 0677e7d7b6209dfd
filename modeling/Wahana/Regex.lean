import Mathlib.Data.List.Basic

/-!
# Backtracking patterns

A pattern language with single-letter classes, greedy and lazy class
repetition, concatenation and numbered capture groups, over an arbitrary
alphabet, and the ordered search a backtracking engine performs on it.

`Re.run` lists every way to match at the front of a subject, in the
order in which the engine would try them: the engine's answer is the
head of the list, the tail is what it would backtrack into. Alongside
it `Re.Eats` says *what* can be matched and captured, with no order at
all. The two meet in `mem_run`, so that a proof reasons about order
only where order matters:

- where every successful split coincides, `head?_run_seq_of_forall_eq`
  turns membership into the engine's answer;
- for a greedy class the first split is the longest one
  (`head?_runs_greedy`), for a lazy class it is the shortest one that
  lets the remainder succeed (`findSome?_runs_lazy`).
-/

namespace Wahana

/-- Patterns over the alphabet `α`. A class is its Boolean membership
test; `many` is the repetition `[p]*`, greedy or lazy. -/
inductive Re (α : Type) where
  | eps
  | one (p : α → Bool)
  | many (greedy : Bool) (p : α → Bool)
  | seq (r t : Re α)
  | group (n : Nat) (r : Re α)

/-- Captured groups, in the order in which they were opened. -/
abbrev Caps (α : Type) := List (Nat × List α)

/-- One way to match: the letters taken, the groups captured on them, and
the letters left over. -/
structure Thread (α : Type) where
  eaten : List α
  caps : Caps α
  rest : List α
  deriving DecidableEq, Repr

/-- A thread followed by a thread on what the first one left over. -/
def Thread.append {α : Type} (x y : Thread α) : Thread α :=
  ⟨x.eaten ++ y.eaten, x.caps ++ y.caps, y.rest⟩

theorem Thread.append_nil {α : Type} (s : List α) :
    Thread.append (⟨[], [], s⟩ : Thread α) = id := by
  funext y; simp [Thread.append]

theorem Thread.append_append {α : Type} (x y : Thread α) :
    Thread.append (x.append y) = Thread.append x ∘ Thread.append y := by
  funext z; simp [Thread.append]

namespace Re

variable {α : Type}

/-- Concatenation of a list of patterns. -/
def cat : List (Re α) → Re α
  | [] => eps
  | r :: rs => seq r (cat rs)

/-- `[p]+`, greedy or lazy. -/
def plus (greedy : Bool) (p : α → Bool) : Re α :=
  seq (one p) (many greedy p)

/-- The fewest letters a match of the pattern can take. -/
def minLen : Re α → Nat
  | eps => 0
  | one _ => 1
  | many _ _ => 0
  | seq r t => r.minLen + t.minLen
  | group _ r => r.minLen

/-! ## The ordered search -/

/-- The splits of `s` after a run of `p`-letters. A greedy repetition
first tries to take one more letter, a lazy one first tries to stop. -/
def runs (greedy : Bool) (p : α → Bool) : List α → List (List α × List α)
  | [] => [([], [])]
  | a :: s =>
      let stop := ([], a :: s)
      let more :=
        if p a then (runs greedy p s).map fun x => (a :: x.1, x.2) else []
      if greedy then more ++ [stop] else stop :: more

/-- Every way to match at the front of `s`, first choice first. -/
def run : Re α → List α → List (Thread α)
  | eps, s => [⟨[], [], s⟩]
  | one _, [] => []
  | one p, a :: s => if p a then [⟨[a], [], s⟩] else []
  | many g p, s => (runs g p s).map fun x => ⟨x.1, [], x.2⟩
  | seq r t, s => (run r s).flatMap fun x => (run t x.rest).map (Thread.append x)
  | group n r, s => (run r s).map fun x => ⟨x.eaten, (n, x.eaten) :: x.caps, x.rest⟩

/-! ## What a pattern can take, without order -/

/-- `Eats r u c`: the pattern can match exactly the letters `u`, with
captures `c`. -/
def Eats : Re α → List α → Caps α → Prop
  | eps, u, c => u = [] ∧ c = []
  | one p, u, c => ∃ a, p a = true ∧ u = [a] ∧ c = []
  | many _ p, u, c => (∀ a ∈ u, p a = true) ∧ c = []
  | seq r t, u, c => ∃ u₁ c₁ u₂ c₂,
      Eats r u₁ c₁ ∧ Eats t u₂ c₂ ∧ u = u₁ ++ u₂ ∧ c = c₁ ++ c₂
  | group n r, u, c => ∃ d, Eats r u d ∧ c = (n, u) :: d

theorem mem_runs {g : Bool} {p : α → Bool} {s u v : List α} :
    (u, v) ∈ runs g p s ↔ s = u ++ v ∧ ∀ a ∈ u, p a = true := by
  induction s generalizing u with
  | nil =>
      simp only [runs, List.mem_singleton, Prod.mk.injEq]
      constructor
      · rintro ⟨rfl, rfl⟩; simp
      · rintro ⟨h, -⟩; simpa [eq_comm] using h
  | cons b s ih =>
      have hstep : (u, v) ∈ runs g p (b :: s) ↔
          (u = [] ∧ v = b :: s)
            ∨ (p b = true ∧ ∃ u', u = b :: u' ∧ (u', v) ∈ runs g p s) := by
        simp only [runs]
        cases g <;> cases hb : p b <;>
          simp [Prod.exists, and_comm, eq_comm, or_comm]
      rw [hstep]
      constructor
      · rintro (⟨rfl, rfl⟩ | ⟨hb, u', rfl, hu'⟩)
        · simp
        · obtain ⟨rfl, hall⟩ := ih.mp hu'
          refine ⟨rfl, fun a ha => ?_⟩
          rcases List.mem_cons.mp ha with rfl | ha'
          · exact hb
          · exact hall a ha'
      · rintro ⟨h, hall⟩
        cases u with
        | nil => exact Or.inl ⟨rfl, by simpa using h.symm⟩
        | cons a u' =>
            simp only [List.cons_append, List.cons.injEq] at h
            obtain ⟨rfl, rfl⟩ := h
            exact Or.inr ⟨hall b (by simp), u', rfl,
              ih.mpr ⟨rfl, fun a ha => hall a (List.mem_cons_of_mem _ ha)⟩⟩

/-- The search finds exactly the prefixes the pattern can take, with the
captures it can make on them. -/
theorem mem_run {r : Re α} : ∀ {s : List α} {x : Thread α},
    x ∈ run r s ↔ s = x.eaten ++ x.rest ∧ Eats r x.eaten x.caps := by
  induction r with
  | eps =>
      rintro s ⟨u, c, v⟩
      simp only [run, Eats, List.mem_singleton, Thread.mk.injEq]
      constructor
      · rintro ⟨rfl, rfl, rfl⟩; simp
      · rintro ⟨rfl, rfl, rfl⟩; simp
  | one p =>
      rintro s ⟨u, c, v⟩
      cases s with
      | nil =>
          simp only [run, Eats, List.not_mem_nil, false_iff, not_and]
          rintro h ⟨a, -, rfl, -⟩
          simp at h
      | cons b s =>
          simp only [run, Eats]
          constructor
          · intro h
            split at h
            · obtain ⟨rfl, rfl, rfl⟩ := Thread.mk.injEq .. |>.mp (List.mem_singleton.mp h)
              exact ⟨rfl, b, ‹_›, rfl, rfl⟩
            · cases h
          · rintro ⟨h, a, ha, rfl, rfl⟩
            simp only [List.cons_append, List.nil_append, List.cons.injEq] at h
            obtain ⟨rfl, rfl⟩ := h
            simp [ha]
  | many g p =>
      rintro s ⟨u, c, v⟩
      simp only [run, Eats, List.mem_map, Thread.mk.injEq, Prod.exists]
      constructor
      · rintro ⟨u', v', hmem, rfl, rfl, rfl⟩
        obtain ⟨rfl, hall⟩ := mem_runs.mp hmem
        exact ⟨rfl, hall, rfl⟩
      · rintro ⟨rfl, hall, rfl⟩
        exact ⟨u, v, mem_runs.mpr ⟨rfl, hall⟩, rfl, rfl, rfl⟩
  | seq r t ihr iht =>
      rintro s ⟨u, c, v⟩
      simp only [run, Eats, List.mem_flatMap, List.mem_map, Thread.append,
        Thread.mk.injEq]
      constructor
      · rintro ⟨x, hx, y, hy, rfl, rfl, rfl⟩
        obtain ⟨rfl, hr⟩ := ihr.mp hx
        obtain ⟨hrest, ht⟩ := iht.mp hy
        exact ⟨by rw [hrest, List.append_assoc], _, _, _, _, hr, ht, rfl, rfl⟩
      · rintro ⟨hs, u₁, c₁, u₂, c₂, hr, ht, rfl, rfl⟩
        refine ⟨⟨u₁, c₁, u₂ ++ v⟩, ihr.mpr ⟨by simpa using hs, hr⟩,
          ⟨u₂, c₂, v⟩, iht.mpr ⟨rfl, ht⟩, rfl, rfl, rfl⟩
  | group n r ih =>
      rintro s ⟨u, c, v⟩
      simp only [run, Eats, List.mem_map, Thread.mk.injEq]
      constructor
      · rintro ⟨x, hx, rfl, rfl, rfl⟩
        obtain ⟨hs, hr⟩ := ih.mp hx
        exact ⟨hs, _, hr, rfl⟩
      · rintro ⟨hs, d, hr, rfl⟩
        exact ⟨⟨u, d, v⟩, ih.mpr ⟨hs, hr⟩, rfl, rfl, rfl⟩

theorem Eats.minLen_le {r : Re α} : ∀ {u : List α} {c : Caps α},
    Eats r u c → r.minLen ≤ u.length := by
  induction r with
  | eps => intro u c _; simp [minLen]
  | one p => rintro u c ⟨a, -, rfl, -⟩; simp [minLen]
  | many g p => intro u c _; simp [minLen]
  | seq r t ihr iht =>
      rintro u c ⟨u₁, c₁, u₂, c₂, hr, ht, rfl, -⟩
      have h₁ := ihr hr
      have h₂ := iht ht
      simp only [minLen, List.length_append]
      omega
  | group n r ih =>
      rintro u c ⟨d, hr, -⟩
      exact ih hr

/-! ## The engine's choice

`head?` of the ordered list, computed without listing it. -/

theorem head?_runs_greedy (p : α → Bool) (s : List α) :
    (runs true p s).head? = some (s.takeWhile p, s.dropWhile p) := by
  induction s with
  | nil => rfl
  | cons a s ih =>
      cases ha : p a with
      | false => simp [runs, ha]
      | true => simp [runs, ha, List.head?_append, ih]

/-- A lazy class stops as early as the remainder allows: if stopping
anywhere inside `u` fails and stopping right after `u` succeeds, the
latter is the answer. -/
theorem findSome?_runs_lazy {β : Type} {p : α → Bool} {v : List α} {y : β} :
    ∀ {u : List α} {f : List α × List α → Option β},
      (∀ a ∈ u, p a = true) →
      (∀ u₁ u₂, u = u₁ ++ u₂ → u₂ ≠ [] → f (u₁, u₂ ++ v) = none) →
      f (u, v) = some y → (runs false p (u ++ v)).findSome? f = some y
  | [], f, _, _, hy => by
      cases v with
      | nil => simp [runs, hy]
      | cons b v => simp only [List.nil_append, runs]; simp [hy]
  | a :: u, f, hall, hfail, hy => by
      have hstop : f ([], a :: (u ++ v)) = none := hfail [] (a :: u) rfl (by simp)
      have hmore := findSome?_runs_lazy (u := u) (f := fun x => f (a :: x.1, x.2))
        (fun b hb => hall b (List.mem_cons_of_mem _ hb))
        (fun u₁ u₂ h hne => hfail (a :: u₁) u₂ (by simp [h]) hne) hy
      simp only [List.cons_append, runs, hall a (by simp), if_true]
      simpa [List.findSome?_cons, hstop, List.findSome?_map, Function.comp_def] using hmore

theorem head?_run_seq (r t : Re α) (s : List α) :
    (run (seq r t) s).head? = (run r s).findSome? fun x =>
      ((run t x.rest).head?).map (Thread.append x) := by
  simp [run, List.head?_flatMap]

theorem findSome?_of_forall_eq {β γ : Type} {x : β} (f : β → Option γ) :
    ∀ {l : List β}, (∀ y ∈ l, y = x) → x ∈ l → l.findSome? f = f x
  | [y], hall, _ => by simp [hall y (by simp)]
  | y :: z :: l, hall, _ => by
      have hy : y = x := hall y (by simp)
      have ih := findSome?_of_forall_eq f (l := z :: l)
        (fun w hw => hall w (List.mem_cons_of_mem _ hw))
        (by simp [hall z (by simp)])
      rw [List.findSome?_cons, ih, hy]
      cases f x <;> rfl

/-- If `r` can only be matched in one way, the answer for `r` followed by
`t` is the answer for `t` on what that one way leaves over. -/
theorem head?_run_seq_of_forall_eq {r t : Re α} {s : List α} {x : Thread α}
    (hall : ∀ y ∈ run r s, y = x) (hx : x ∈ run r s) :
    (run (seq r t) s).head? = ((run t x.rest).head?).map (Thread.append x) := by
  rw [head?_run_seq, findSome?_of_forall_eq _ hall hx]

/-- Concatenation may be cut anywhere: the order of the search does not
depend on how a sequence is nested. -/
theorem run_cat_append (l₁ l₂ : List (Re α)) (s : List α) :
    run (cat (l₁ ++ l₂)) s = run (seq (cat l₁) (cat l₂)) s := by
  induction l₁ generalizing s with
  | nil => simp [cat, run, Thread.append_nil]
  | cons r l ih =>
      simp only [List.cons_append, cat, run, ih, List.flatMap_assoc, List.map_flatMap,
        List.flatMap_map, List.map_map, Thread.append_append]
      rfl

/-! ## Derived classes -/

@[simp] theorem eats_plus {g : Bool} {p : α → Bool} {u : List α} {c : Caps α} :
    Eats (plus g p) u c ↔ u ≠ [] ∧ (∀ a ∈ u, p a = true) ∧ c = [] := by
  simp only [plus, Eats]
  constructor
  · rintro ⟨_, _, u₂, _, ⟨a, ha, rfl, rfl⟩, ⟨hall, rfl⟩, rfl, rfl⟩
    refine ⟨by simp, ?_, rfl⟩
    simpa [ha] using hall
  · rintro ⟨hne, hall, rfl⟩
    cases u with
    | nil => exact absurd rfl hne
    | cons a u =>
        refine ⟨[a], [], u, [], ⟨a, hall a (by simp), rfl, rfl⟩,
          ⟨fun b hb => hall b (List.mem_cons_of_mem _ hb), rfl⟩, rfl, rfl⟩

theorem eats_cat_nil {u : List α} {c : Caps α} :
    Eats (cat []) u c ↔ u = [] ∧ c = [] := Iff.rfl

theorem eats_cat_cons {r : Re α} {rs : List (Re α)} {u : List α} {c : Caps α} :
    Eats (cat (r :: rs)) u c ↔ ∃ u₁ c₁ u₂ c₂,
      Eats r u₁ c₁ ∧ Eats (cat rs) u₂ c₂ ∧ u = u₁ ++ u₂ ∧ c = c₁ ++ c₂ := Iff.rfl

end Re

/-! ## Searching a subject -/

/-- A pattern as it is compiled: `anchored` records a leading `^`, which
matches at offset 0 only. The last field rules out empty matches, so a
scan always moves on. -/
structure Pattern (α : Type) where
  anchored : Bool
  re : Re α
  minLen_pos : 0 < re.minLen

/-- A match found by a scan: its offset, its letters, its groups. -/
structure Match (α : Type) where
  start : Nat
  text : List α
  caps : Caps α
  deriving DecidableEq, Repr

/-- The text captured by group `g`. -/
def Match.group {α : Type} (m : Match α) (g : Nat) : List α :=
  (m.caps.lookup g).getD []

namespace Pattern

variable {α : Type} (P : Pattern α)

/-- The engine's answer at offset `i`, where `s` is what remains of the
subject from there. -/
def matchAt (i : Nat) (s : List α) : Option (Thread α) :=
  if P.anchored && i != 0 then none else (P.re.run s).head?

/-- Successive matches, left to right. `skip` counts the letters that
the last match has taken and that still have to be passed over; the end
of the subject needs no attempt, since a match takes at least one
letter. -/
def scan : (skip i : Nat) → List α → List (Match α)
  | _, _, [] => []
  | skip + 1, i, _ :: s => scan skip (i + 1) s
  | 0, i, a :: s =>
      match P.matchAt i (a :: s) with
      | some x => ⟨i, x.eaten, x.caps⟩ :: scan (x.eaten.length - 1) (i + 1) s
      | none => scan 0 (i + 1) s

/-- All matches in a subject. -/
def matchAll (s : List α) : List (Match α) :=
  P.scan 0 0 s

variable {P}

theorem matchAt_mem {i : Nat} {s : List α} {x : Thread α}
    (h : P.matchAt i s = some x) : x ∈ P.re.run s := by
  unfold matchAt at h
  split at h
  · cases h
  · exact List.mem_of_mem_head? h

theorem matchAt_eaten_pos {i : Nat} {s : List α} {x : Thread α}
    (h : P.matchAt i s = some x) : 0 < x.eaten.length :=
  Nat.lt_of_lt_of_le P.minLen_pos (Re.mem_run.mp (matchAt_mem h)).2.minLen_le

theorem matchAt_eq_none {i : Nat} {s : List α}
    (h : ∀ u v c, s = u ++ v → ¬ P.re.Eats u c) : P.matchAt i s = none := by
  cases hx : P.matchAt i s with
  | none => rfl
  | some x =>
      obtain ⟨hs, heats⟩ := Re.mem_run.mp (matchAt_mem hx)
      exact absurd heats (h _ _ _ hs)

theorem scan_nil (k i : Nat) : P.scan k i [] = [] := by
  unfold scan; rfl

theorem scan_skip (v : List α) : ∀ (u : List α) (i : Nat),
    P.scan u.length i (u ++ v) = P.scan 0 (i + u.length) v
  | [], i => by simp
  | a :: u, i => by
      rw [List.length_cons, List.cons_append, scan, scan_skip v u (i + 1)]
      congr 1
      omega

/-- A match at the front is reported, and the scan goes on right behind it. -/
theorem scan_some {i : Nat} {s : List α} {x : Thread α}
    (h : P.matchAt i s = some x) :
    P.scan 0 i s = ⟨i, x.eaten, x.caps⟩ :: P.scan 0 (i + x.eaten.length) x.rest := by
  obtain ⟨hs, -⟩ := Re.mem_run.mp (matchAt_mem h)
  have hpos := matchAt_eaten_pos h
  obtain ⟨u, c, v⟩ := x
  cases u with
  | nil => simp at hpos
  | cons a u =>
      simp only [List.cons_append] at hs
      subst hs
      rw [scan, h]
      simp only [List.length_cons, Nat.add_sub_cancel]
      rw [scan_skip]
      congr 2
      omega

/-- Letters at which no match starts are passed over. -/
theorem scan_none {v : List α} : ∀ {u : List α} {i : Nat},
    (∀ u₁ u₂, u = u₁ ++ u₂ → u₂ ≠ [] → P.matchAt (i + u₁.length) (u₂ ++ v) = none) →
    P.scan 0 i (u ++ v) = P.scan 0 (i + u.length) v
  | [], i, _ => by simp
  | a :: u, i, h => by
      have hhere : P.matchAt i (a :: (u ++ v)) = none := h [] (a :: u) rfl (by simp)
      have ih : P.scan 0 (i + 1) (u ++ v) = P.scan 0 (i + 1 + u.length) v :=
        scan_none fun u₁ u₂ hu hne => by
          have := h (a :: u₁) u₂ (by simp [hu]) hne
          rwa [List.length_cons, Nat.add_comm u₁.length 1, ← Nat.add_assoc] at this
      rw [List.cons_append, scan, hhere]
      simp only
      rw [ih, List.length_cons]
      congr 1
      omega

theorem le_start_of_mem_scan {m : Match α} : ∀ {s : List α} {k i : Nat},
    m ∈ P.scan k i s → i ≤ m.start
  | [], k, i, h => by
      rw [scan_nil] at h
      cases h
  | a :: s, k + 1, i, h => by
      rw [scan] at h
      exact Nat.le_of_succ_le (le_start_of_mem_scan h)
  | a :: s, 0, i, h => by
      rw [scan] at h
      split at h
      · rcases List.mem_cons.mp h with rfl | h
        · exact Nat.le_refl _
        · exact Nat.le_of_succ_le (le_start_of_mem_scan h)
      · exact Nat.le_of_succ_le (le_start_of_mem_scan h)

/-- A match is a part of the subject that the pattern can take. -/
theorem exists_of_mem_scan {m : Match α} : ∀ {s : List α} {k i : Nat},
    m ∈ P.scan k i s → ∃ u v, s = u ++ (m.text ++ v) ∧ P.re.Eats m.text m.caps
  | [], k, i, h => by
      rw [scan_nil] at h
      cases h
  | a :: s, k + 1, i, h => by
      rw [scan] at h
      obtain ⟨u, v, rfl, heats⟩ := exists_of_mem_scan h
      exact ⟨a :: u, v, rfl, heats⟩
  | a :: s, 0, i, h => by
      have hrest : ∀ {k}, m ∈ P.scan k (i + 1) s →
          ∃ u v, a :: s = u ++ (m.text ++ v) ∧ P.re.Eats m.text m.caps := by
        intro k hk
        obtain ⟨u, v, rfl, heats⟩ := exists_of_mem_scan hk
        exact ⟨a :: u, v, rfl, heats⟩
      rw [scan] at h
      split at h
      · rename_i x hx
        rcases List.mem_cons.mp h with rfl | h
        · obtain ⟨hs, heats⟩ := Re.mem_run.mp (matchAt_mem hx)
          exact ⟨[], x.rest, hs, heats⟩
        · exact hrest h
      · exact hrest h

/-- An anchored pattern matches nowhere but at the start. -/
theorem scan_anchored (ha : P.anchored = true) {i : Nat} (hi : 0 < i) (s : List α) :
    P.scan 0 i s = [] := by
  have hnone : ∀ j t, 0 < j → P.matchAt j t = none := by
    intro j t hj
    simp [matchAt, ha, Nat.pos_iff_ne_zero.mp hj]
  have := scan_none (P := P) (u := s) (v := []) (i := i)
    fun u₁ u₂ _ _ => hnone _ _ (by omega)
  rwa [List.append_nil, scan_nil] at this

end Pattern

end Wahana
