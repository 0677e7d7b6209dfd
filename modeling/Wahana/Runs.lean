import Mathlib.Data.List.TakeWhile

/-!
# Maximal runs

A string that starts with a run of `p`-letters which stops there can be
split after that run in one way only. These are the rules by which a
tokenization is shown to be unique, token by token.

Where a part may contain the separator, two splits of a string can differ:
`cut_at` compares them, and `runCount`, the number of maximal runs, bounds
how far apart they can be.
-/

namespace Wahana

variable {α : Type} {p : α → Bool}

/-- No run of `p`-letters goes on into `v`. -/
def Stops (p : α → Bool) (v : List α) : Prop :=
  ∀ a ∈ v.head?, p a = false

theorem stops_nil : Stops p [] := by simp [Stops]

theorem stops_cons {a : α} {v : List α} (h : p a = false) : Stops p (a :: v) := by
  simpa [Stops] using h

theorem stops_append {u v : List α} (hne : u ≠ []) (hu : ∀ a ∈ u, p a = false) :
    Stops p (u ++ v) := by
  cases u with
  | nil => exact absurd rfl hne
  | cons a u => exact stops_cons (hu a (by simp))

theorem takeWhile_of_stops {u v : List α} (hu : ∀ a ∈ u, p a = true) (hv : Stops p v) :
    (u ++ v).takeWhile p = u := by
  rw [List.takeWhile_append_of_pos hu]
  cases v with
  | nil => simp
  | cons a v => simp [hv a rfl]

theorem dropWhile_of_stops {u v : List α} (hu : ∀ a ∈ u, p a = true) (hv : Stops p v) :
    (u ++ v).dropWhile p = v := by
  rw [List.dropWhile_append_of_pos hu]
  cases v with
  | nil => rfl
  | cons a v => simp [hv a rfl]

theorem run_unique {u u' v v' : List α} (hu : ∀ a ∈ u, p a = true)
    (hu' : ∀ a ∈ u', p a = true) (hv : Stops p v) (hv' : Stops p v')
    (h : u ++ v = u' ++ v') : u = u' ∧ v = v' := by
  have htake := takeWhile_of_stops hu hv
  have hdrop := dropWhile_of_stops hu hv
  rw [h, takeWhile_of_stops hu' hv'] at htake
  rw [h, dropWhile_of_stops hu' hv'] at hdrop
  exact ⟨htake.symm, hdrop.symm⟩

theorem stops_dropWhile (p : α → Bool) (s : List α) : Stops p (s.dropWhile p) := by
  induction s with
  | nil => exact stops_nil
  | cons a s ih =>
      cases ha : p a with
      | true => simpa [ha] using ih
      | false => simpa [ha] using stops_cons ha

/-- A prefix made of `p`-letters ends where the letters do. -/
theorem prefix_of_stops {w u v : List α} (hw : ∀ a ∈ w, p a = true) (hv : Stops p v)
    (h : w <+: u ++ v) : w <+: u := by
  rcases List.prefix_or_prefix_of_prefix h (List.prefix_append u v) with hle | ⟨t, rfl⟩
  · exact hle
  · cases t with
    | nil => simp
    | cons b t =>
        obtain ⟨v', rfl⟩ := (List.prefix_append_right_inj u).mp h
        have hstop : p b = false := hv b rfl
        rw [hw b (by simp)] at hstop
        cases hstop

/-! ## Two cuts of one string -/

/-- If `u` is free of the separator, a cut at some separator is the cut
behind `u` or one further on. -/
theorem cut_at {a : α} {u v y v' : List α} (hu : a ∉ u) (h : u ++ a :: v = y ++ a :: v') :
    (y = u ∧ v' = v) ∨ ∃ y', y = u ++ a :: y' ∧ v = y' ++ a :: v' := by
  rcases List.append_eq_append_iff.mp h with ⟨c, hy, hv⟩ | ⟨c, hu', hv⟩
  · cases c with
    | nil =>
        simp only [List.nil_append, List.cons.injEq, true_and, List.append_nil] at hv hy
        exact Or.inl ⟨hy, hv.symm⟩
    | cons b c =>
        simp only [List.cons_append, List.cons.injEq] at hv
        obtain ⟨rfl, rfl⟩ := hv
        exact Or.inr ⟨c, hy, rfl⟩
  · cases c with
    | nil =>
        simp only [List.nil_append, List.cons.injEq, true_and, List.append_nil] at hv hu'
        exact Or.inl ⟨hu'.symm, hv⟩
    | cons b c =>
        simp only [List.cons_append, List.cons.injEq] at hv
        exact absurd (by rw [hu', ← hv.1]; simp) hu

/-- The number of maximal runs of `p`-letters, counted at their last
letters. -/
def runCount (p : α → Bool) : List α → Nat
  | [] => 0
  | a :: s => (if p a && !s.head?.any p then 1 else 0) + runCount p s

theorem runCount_append_cons {a : α} (ha : p a = false) (v : List α) : ∀ u : List α,
    runCount p (u ++ a :: v) = runCount p u + runCount p v
  | [] => by simp [runCount, ha]
  | [b] => by simp [runCount, ha]
  | b :: c :: u => by
      have ih := runCount_append_cons ha v (c :: u)
      rw [List.cons_append, runCount, ih, ← Nat.add_assoc]
      rfl

theorem runCount_pos {a : α} (ha : p a = true) : ∀ {u : List α}, a ∈ u → 0 < runCount p u
  | b :: u, h => by
      by_cases hu : ∃ c ∈ u, p c = true
      · obtain ⟨c, hc, hpc⟩ := hu
        have ih := runCount_pos hpc hc
        simp only [runCount]
        omega
      · have hb : p b = true := by
          rcases List.mem_cons.mp h with rfl | h
          · exact ha
          · exact absurd ⟨a, h, ha⟩ hu
        have hhead : u.head?.any p = false := by
          cases u with
          | nil => rfl
          | cons c u => simpa using fun hc => hu ⟨c, by simp, hc⟩
        simp only [runCount, hb, hhead, Bool.not_false, Bool.and_self, if_true]
        omega

theorem runCount_le_one : ∀ {u : List α}, (∀ a ∈ u, p a = true) → runCount p u ≤ 1
  | [], _ => by simp [runCount]
  | [a], _ => by simp only [runCount]; split <;> omega
  | a :: b :: u, h => by
      have ih := runCount_le_one (u := b :: u) fun c hc => h c (List.mem_cons_of_mem _ hc)
      have hb : p b = true := h b (by simp)
      simp only [runCount, List.head?_cons, Option.any_some, hb] at ih ⊢
      simpa using ih

/-- Letters outside the class add no run in front. -/
theorem runCount_gap {v : List α} : ∀ {w : List α}, (∀ a ∈ w, p a = false) →
    runCount p (w ++ v) = runCount p v
  | [], _ => rfl
  | a :: w, h => by
      have ih := runCount_gap (v := v) (w := w) fun b hb => h b (List.mem_cons_of_mem _ hb)
      have ha := h a (by simp)
      simp [runCount, ha, ih]

theorem runCount_run_gap_le {u w v : List α} (hu : ∀ a ∈ u, p a = true)
    (hw : w ≠ []) (hw' : ∀ a ∈ w, p a = false) :
    runCount p (u ++ (w ++ v)) ≤ 1 + runCount p v := by
  cases w with
  | nil => exact absurd rfl hw
  | cons a w =>
      have h₁ := runCount_le_one hu
      have h₂ := runCount_gap (p := p) (v := v) fun b hb => hw' b (List.mem_cons_of_mem a hb)
      rw [List.cons_append, runCount_append_cons (hw' a (by simp)), h₂]
      omega

end Wahana
