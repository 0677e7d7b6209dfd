import Mathlib.Logic.Function.Iterate

/-!
# While loops

A `while` loop as its condition and its body over a state. `steps` runs a
given number of iterations (a finished loop stays put), `Exits` is the
whole run. The three rules below are all that is used of it: a loop has
one final state (`Exits.unique`), an exit is built iteration by iteration
(`Exits.body`), and what the body preserves holds in every state reached
(`steps_inv`).
-/

namespace Wahana

structure Loop (σ : Type) where
  cond : σ → Bool
  body : σ → σ

namespace Loop

variable {σ : Type} {l : Loop σ}

def step (l : Loop σ) (s : σ) : σ :=
  if l.cond s then l.body s else s

def steps (l : Loop σ) (n : Nat) (s : σ) : σ :=
  l.step^[n] s

/-- The loop, entered in `s`, ends in `s'`. -/
def Exits (l : Loop σ) (s s' : σ) : Prop :=
  ∃ n, l.steps n s = s' ∧ l.cond s' = false

theorem steps_zero (s : σ) : l.steps 0 s = s := rfl

theorem steps_succ (n : Nat) (s : σ) : l.steps (n + 1) s = l.steps n (l.step s) := rfl

theorem steps_succ' (n : Nat) (s : σ) : l.steps (n + 1) s = l.step (l.steps n s) :=
  Function.iterate_succ_apply' l.step n s

theorem step_of_cond {s : σ} (h : l.cond s = true) : l.step s = l.body s := by
  rw [step, if_pos h]

theorem step_of_not_cond {s : σ} (h : l.cond s = false) : l.step s = s := by
  rw [step, if_neg (by simp [h])]

theorem steps_of_not_cond {s : σ} (h : l.cond s = false) : ∀ n, l.steps n s = s
  | 0 => rfl
  | n + 1 => by rw [steps_succ, step_of_not_cond h, steps_of_not_cond h n]

theorem steps_add (m n : Nat) (s : σ) : l.steps (m + n) s = l.steps n (l.steps m s) := by
  rw [steps, Nat.add_comm, Function.iterate_add_apply]; rfl

theorem Exits.done {s : σ} (h : l.cond s = false) : l.Exits s s := ⟨0, rfl, h⟩

theorem Exits.body {s s' : σ} (hc : l.cond s = true) (h : l.Exits (l.body s) s') :
    l.Exits s s' := by
  obtain ⟨n, hn, hs'⟩ := h
  exact ⟨n + 1, by rw [steps_succ, step_of_cond hc, hn], hs'⟩

theorem Exits.unique {s s₁ s₂ : σ} (h₁ : l.Exits s s₁) (h₂ : l.Exits s s₂) : s₁ = s₂ := by
  obtain ⟨m, rfl, hm⟩ := h₁
  obtain ⟨n, rfl, hn⟩ := h₂
  have hmn := steps_of_not_cond hm n
  have hnm := steps_of_not_cond hn m
  rw [← steps_add] at hmn hnm
  rw [← hmn, ← hnm, Nat.add_comm]

theorem steps_inv {I : σ → Prop} {s : σ} (h₀ : I s)
    (hbody : ∀ t, I t → l.cond t = true → I (l.body t)) : ∀ n, I (l.steps n s)
  | 0 => h₀
  | n + 1 => by
      have ih := steps_inv h₀ hbody n
      rw [steps_succ']
      by_cases hc : l.cond (l.steps n s) = true
      · rw [step_of_cond hc]
        exact hbody _ ih hc
      · rw [step_of_not_cond (by simpa using hc)]
        exact ih

end Loop

end Wahana
