import Mathlib.Data.List.Infix

/-!
# Reading a stream that arrives in pieces

A reader takes a stream of symbols in steps. Each step looks at the symbols
received and not yet consumed: it consumes some of them and moves on, or it
has to wait for more. Input arrives in pieces; `feed` appends a piece to
what is left over and lets the reader go as far as it can (`drain`).

If a step that can be made can also be made, with the same effect, when more
symbols have already arrived, then nothing depends on how the stream was cut
(`feedAll_flatten`). A reader that guards the size of its buffer is stable
only as long as the guard does not fire; `tripped` marks the states in which
it has, and the rule holds up to them.
-/

namespace Wahana

/-- Where a proper beginning of `xs ++ ys` ends. -/
theorem truncated_append {α : Type} {p missing xs ys : List α} (h : p ++ missing = xs ++ ys) :
    (∃ m, m ≠ [] ∧ p ++ m = xs) ∨ ∃ q, p = xs ++ q ∧ q ++ missing = ys := by
  rcases List.append_eq_append_iff.mp h with ⟨m, hxs, hm⟩ | ⟨q, hp, hys⟩
  · by_cases hnil : m = []
    · subst hnil
      exact .inr ⟨[], by simp [hxs], by simpa using hm⟩
    · exact .inl ⟨m, hnil, hxs.symm⟩
  · exact .inr ⟨q, hp, hys.symm⟩

/-- A step consumes symbols from the front of the buffer, or is `none` when
it has to wait. `fuel` bounds the steps that can be made without input. -/
structure Reader (α σ : Type) where
  next : σ → List α → Option (σ × List α)
  fuel : σ → List α → Nat
  fuel_lt : ∀ {s a s' r}, next s a = some (s', r) → fuel s' r < fuel s a

namespace Reader

variable {α σ : Type} (m : Reader α σ)

def drainFor : Nat → σ → List α → σ × List α
  | 0, s, a => (s, a)
  | n + 1, s, a =>
      match m.next s a with
      | none => (s, a)
      | some (s', r) => drainFor n s' r

/-- Make steps until the reader has to wait. -/
def drain (s : σ) (a : List α) : σ × List α := m.drainFor (m.fuel s a) s a

/-- A piece arrives. -/
def feed (c : σ × List α) (piece : List α) : σ × List α := m.drain c.1 (c.2 ++ piece)

def feedAll (c : σ × List α) (pieces : List (List α)) : σ × List α := pieces.foldl m.feed c

variable {m}

/-! ## Draining -/

theorem drainFor_of_le : ∀ {n k : Nat} {s : σ} {a : List α}, m.fuel s a ≤ n → m.fuel s a ≤ k →
    m.drainFor n s a = m.drainFor k s a
  | n, k, s, a, hn, hk => by
      cases h : m.next s a with
      | none => cases n <;> cases k <;> simp [drainFor, h]
      | some x =>
          obtain ⟨s', r⟩ := x
          have hlt := m.fuel_lt h
          obtain ⟨n, rfl⟩ : ∃ n', n = n' + 1 := ⟨n - 1, by omega⟩
          obtain ⟨k, rfl⟩ : ∃ k', k = k' + 1 := ⟨k - 1, by omega⟩
          simp only [drainFor, h]
          exact drainFor_of_le (by omega) (by omega)

theorem drain_of_none {s : σ} {a : List α} (h : m.next s a = none) : m.drain s a = (s, a) := by
  rw [drain]
  cases m.fuel s a <;> simp [drainFor, h]

theorem drain_of_some {s s' : σ} {a r : List α} (h : m.next s a = some (s', r)) :
    m.drain s a = m.drain s' r := by
  have hlt := m.fuel_lt h
  obtain ⟨n, hn⟩ : ∃ n, m.fuel s a = n + 1 := ⟨m.fuel s a - 1, by omega⟩
  rw [drain, hn, drainFor, h]
  exact drainFor_of_le (by omega) (Nat.le_refl _)

/-- Induction along the steps of a reader. -/
theorem drain_induction {motive : σ → List α → Prop}
    (wait : ∀ s a, m.next s a = none → motive s a)
    (step : ∀ s a s' r, m.next s a = some (s', r) → motive s' r → motive s a)
    (s : σ) (a : List α) : motive s a := by
  generalize hn : m.fuel s a = n
  induction n using Nat.strongRecOn generalizing s a with
  | ind n ih =>
      cases h : m.next s a with
      | none => exact wait s a h
      | some x => exact step s a x.1 x.2 h (ih _ (hn ▸ m.fuel_lt h) x.1 x.2 rfl)

/-- A drained reader waits. -/
theorem next_drain (s : σ) (a : List α) : m.next (m.drain s a).1 (m.drain s a).2 = none := by
  induction s, a using m.drain_induction with
  | wait s a h => rw [drain_of_none h]; exact h
  | step s a s' r h ih => rw [drain_of_some h]; exact ih

/-! ## Pieces -/

/-- Steps do not depend on later input, except for those into a `tripped`
state, and no step is made from there. -/
structure StableUpTo (m : Reader α σ) (tripped : σ → Prop) : Prop where
  next_append : ∀ {s a s' r} (b : List α), m.next s a = some (s', r) → ¬ tripped s' →
    m.next s (a ++ b) = some (s', r ++ b)
  halted : ∀ {s} (a : List α), tripped s → m.next s a = none

variable {tripped : σ → Prop}

theorem StableUpTo.drain_append (hm : m.StableUpTo tripped) (b : List α) (s : σ) (a : List α)
    (h : ¬ tripped (m.drain s a).1) :
    m.drain s (a ++ b) = m.drain (m.drain s a).1 ((m.drain s a).2 ++ b) := by
  induction s, a using m.drain_induction with
  | wait s a hn => rw [drain_of_none hn]
  | step s a s' r hn ih =>
      rw [drain_of_some hn] at h ⊢
      have hs' : ¬ tripped s' := by
        intro htrip
        rw [drain_of_none (hm.halted r htrip)] at h
        exact h htrip
      rw [drain_of_some (hm.next_append b hn hs'), ih h]

theorem StableUpTo.feedAll_of_tripped (hm : m.StableUpTo tripped) :
    ∀ (pieces : List (List α)) {c : σ × List α}, tripped c.1 → tripped (m.feedAll c pieces).1
  | [], _, h => h
  | p :: ps, c, h => by
      refine hm.feedAll_of_tripped ps (c := m.feed c p) ?_
      rw [feed, drain_of_none (hm.halted _ h)]
      exact h

/-- **Nothing depends on the pieces.** Unless the guard fires, a waiting
reader ends where it would have ended had all the input come at once. -/
theorem StableUpTo.feedAll_flatten (hm : m.StableUpTo tripped) :
    ∀ (pieces : List (List α)) {c : σ × List α}, m.next c.1 c.2 = none →
      ¬ tripped (m.feedAll c pieces).1 → m.feedAll c pieces = m.feed c pieces.flatten
  | [], c, hc, _ => by
      rw [List.flatten_nil, feed, List.append_nil, drain_of_none hc]
      rfl
  | p :: ps, c, hc, h => by
      have hp : ¬ tripped (m.feed c p).1 := fun htrip => h (hm.feedAll_of_tripped ps htrip)
      show m.feedAll (m.feed c p) ps = _
      rw [hm.feedAll_flatten ps (c := m.feed c p) (next_drain _ _) h, List.flatten_cons, feed, feed,
        feed, ← List.append_assoc, hm.drain_append ps.flatten c.1 (c.2 ++ p) hp]

end Reader

end Wahana
