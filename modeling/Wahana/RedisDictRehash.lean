import Wahana.RedisDictRuns

/-!
# Rehashing ends

One step of rehashing moves one bucket, or passes ten empty ones, and each
operation makes one step first; only a search in a dictionary without entries
returns before. `Dict.Implements.rehashStep_forth` says that a step ends the
rehashing or brings `rehashidx` forward inside of the table, so that the
source's assertion holds, and `rehash_completes` that one of as many
operations as the old table has buckets moves the last of it, whatever the
operations are.
-/

namespace Wahana

namespace Dict

section

variable {κ ν : Type} {hash : κ → BitVec 64} {d : Dict κ ν} {m : κ → Option ν}

theorem skipEmpty_forth (table : List (List (κ × ν))) : ∀ (visits idx : Nat),
    idx ≤ (skipEmpty table visits idx).1 ∧
      ((skipEmpty table visits idx).2 = 0 → (skipEmpty table visits idx).1 = idx + visits)
  | 0, idx => ⟨Nat.le_refl idx, fun _ => rfl⟩
  | visits + 1, idx => by
      rw [skipEmpty]
      split
      · obtain ⟨hle, hend⟩ := skipEmpty_forth table visits (idx + 1)
        exact ⟨by omega, fun hzero => by rw [hend hzero]; omega⟩
      · exact ⟨Nat.le_refl idx, fun hzero => by cases hzero⟩

/-- While there are entries in the first table, `rehashidx` is inside. -/
theorem Implements.rehashidx_lt (h : Implements hash d m) {idx : Nat}
    (hidx : d.rehashidx = some idx) (hused : d.ht0.used ≠ 0) : idx < d.ht0.size := by
  obtain ⟨-, -, hempty⟩ := h.busy idx hidx
  rcases Nat.lt_or_ge idx d.ht0.size with hlt | hge
  · exact hlt
  · refine absurd ?_ hused
    rw [h.ok0.used, List.length_eq_zero_iff, List.flatten_eq_nil_iff]
    intro b hb
    obtain ⟨j, hj, rfl⟩ := List.mem_iff_getElem.mp hb
    have hchain := hempty j (Nat.lt_of_lt_of_le hj hge)
    rwa [Dictht.chain, List.getElem?_eq_getElem hj] at hchain

/-- A step ends the rehashing, or brings it forward in the same table. -/
def Forth (d d' : Dict κ ν) : Prop :=
  d'.rehashidx = none ∨ ∃ idx idx', d.rehashidx = some idx ∧ d'.rehashidx = some idx' ∧
    idx < idx' ∧ idx' < d'.ht0.size ∧ d'.ht0.size = d.ht0.size

theorem finishRehash_cases (d : Dict κ ν) :
    d.finishRehash.rehashidx = none ∨ d.ht0.used ≠ 0 ∧ d.finishRehash = d := by
  unfold finishRehash
  split
  · exact .inl rfl
  · exact .inr ⟨by assumption, rfl⟩

theorem Implements.dictRehash_forth (h : Implements hash d m) {idx : Nat}
    (hidx : d.rehashidx = some idx) : Forth d (d.dictRehash hash 1) := by
  have himpl := h.dictRehash 1
  have hloop : d.dictRehash hash 1 = (Dict.rehashLoop hash 1 10 idx d).finishRehash := by
    rw [Dict.dictRehash, hidx]
  have hforth : d.ht0.used = 0 ∧ (Dict.rehashLoop hash 1 10 idx d).ht0 = d.ht0 ∨
      ∃ idx', (Dict.rehashLoop hash 1 10 idx d).rehashidx = some idx' ∧ idx < idx' ∧
        (Dict.rehashLoop hash 1 10 idx d).ht0.size = d.ht0.size := by
    obtain ⟨hle, hend⟩ := skipEmpty_forth d.ht0.table 10 idx
    rw [Dict.rehashLoop]
    split
    · rename_i hused
      exact .inl ⟨hused, rfl⟩
    right
    split
    · rename_i idx' heq
      rw [heq] at hend
      exact ⟨idx', rfl, by have := hend rfl; simp only at this; omega, rfl⟩
    · rename_i idx' visits' _ heq
      rw [heq] at hle
      refine ⟨idx' + 1, rfl, by simp only at hle; omega, ?_⟩
      simp [Dict.rehashLoop, Dict.moveBucket, Dictht.size]
  rw [hloop] at himpl ⊢
  generalize Dict.rehashLoop hash 1 10 idx d = d₁ at himpl hforth ⊢
  rcases finishRehash_cases d₁ with hdone | ⟨hused, heq⟩
  · exact .inl hdone
  · rw [heq] at himpl ⊢
    rcases hforth with ⟨hzero, hht⟩ | ⟨idx', hidx', hlt, hsize⟩
    · exact absurd (hht ▸ hzero) hused
    · exact .inr ⟨idx, idx', hidx, hidx', hlt, himpl.rehashidx_lt hidx' hused, hsize⟩

theorem Implements.rehashStep_forth (h : Implements hash d m) (hbusy : d.dictIsRehashing = true)
    (hpause : d.pauserehash = 0) : Forth d (d.rehashStep hash) := by
  obtain ⟨idx, hidx⟩ := Option.isSome_iff_exists.mp hbusy
  rw [Dict.rehashStep, if_pos hpause]
  exact h.dictRehash_forth hidx

theorem pauserehash_rehashLoop : ∀ (n visits idx : Nat) (d : Dict κ ν),
    (Dict.rehashLoop hash n visits idx d).pauserehash = d.pauserehash
  | 0, _, _, _ => rfl
  | n + 1, visits, idx, d => by
      rw [Dict.rehashLoop]
      split
      · rfl
      split
      · rfl
      · exact pauserehash_rehashLoop n _ _ _

theorem pauserehash_rehashStep (d : Dict κ ν) :
    (d.rehashStep hash).pauserehash = d.pauserehash := by
  unfold Dict.rehashStep
  split
  · unfold Dict.dictRehash
    split
    · rfl
    · unfold finishRehash
      split <;> exact pauserehash_rehashLoop ..
  · rfl

/-! ## Operations -/

/-- The table that is being moved stays, and so does where the move is. -/
structure Stays (d d' : Dict κ ν) : Prop where
  rehashidx : d'.rehashidx = d.rehashidx
  size : d'.ht0.size = d.ht0.size
  pauserehash : d'.pauserehash = d.pauserehash

theorem Stays.refl (d : Dict κ ν) : Stays d d := ⟨rfl, rfl, rfl⟩

theorem Stays.trans {d₁ d₂ d₃ : Dict κ ν} (h₁₂ : Stays d₁ d₂) (h₂₃ : Stays d₂ d₃) : Stays d₁ d₃ :=
  ⟨h₂₃.rehashidx.trans h₁₂.rehashidx, h₂₃.size.trans h₁₂.size,
    h₂₃.pauserehash.trans h₁₂.pauserehash⟩

variable [DecidableEq κ]

/-- The operations that make a step. -/
def steps (d : Dict κ ν) : DictOp κ ν → Bool
  | .find _ => d.dictSize ≠ 0
  | .unlink _ => d.dictSize ≠ 0
  | .add _ _ => true
  | .replace _ _ => true
  | _ => false

theorem dictAddRaw_stays (hbusy : d.dictIsRehashing = true)
    (hmore : (d.rehashStep hash).dictIsRehashing = true) (p : ResizePolicy) (k : κ) (v : ν) :
    Stays (d.rehashStep hash) (dictAddRaw hash p d k v).1 := by
  unfold dictAddRaw
  rw [if_pos hbusy]
  have hexpand : dictExpandIfNeeded p (d.rehashStep hash) = some (d.rehashStep hash) := by
    rw [dictExpandIfNeeded, if_pos hmore]
  simp only [dictKeyIndex, hexpand]
  cases ((d.rehashStep hash).search hash k).isSome with
  | true => exact .refl _
  | false =>
      simp only [Bool.false_eq_true, if_false, hmore, if_true]
      exact ⟨rfl, rfl, rfl⟩

theorem setExisting_stays (d : Dict κ ν) (k : κ) (v : ν) : Stays d (d.setExisting hash k v) := by
  unfold setExisting
  split
  · exact ⟨rfl, Dictht.size_overwrite .., rfl⟩
  · exact ⟨rfl, rfl, rfl⟩

theorem exec_stays (hbusy : d.dictIsRehashing = true)
    (hmore : (d.rehashStep hash).dictIsRehashing = true) (p : ResizePolicy) {op : DictOp κ ν}
    (hop : d.steps op = true) (h : Implements hash d m) (hsize : d.dictSize ≤ longMax) :
    Stays (d.rehashStep hash) (d.exec hash p op).1 := by
  cases op with
  | find key =>
      have hne : d.dictSize ≠ 0 := of_decide_eq_true hop
      simp only [Dict.exec, dictFind, if_neg hne, hbusy, if_true]
      exact .refl _
  | add key val => exact dictAddRaw_stays hbusy hmore p key val
  | replace key val =>
      have hadd := dictAddRaw_stays hbusy hmore p key val
      obtain ⟨hi, -⟩ := h.dictAddRaw p key val hsize
      simp only [Dict.exec, dictReplace]
      generalize dictAddRaw hash p d key val = x at hadd hi ⊢
      obtain ⟨d₁, i⟩ := x
      cases i with
      | free => exact hadd
      | existing => exact hadd.trans (setExisting_stays d₁ key val)
      | failed =>
          simp only at hi
          split at hi <;> cases hi
  | unlink key =>
      have hne : ¬ (d.ht0.used = 0 ∧ d.ht1.used = 0) := by
        have hne : d.dictSize ≠ 0 := of_decide_eq_true hop
        unfold dictSize at hne
        omega
      simp only [Dict.exec, dictUnlink, if_neg hne, hbusy, if_true]
      split
      · exact ⟨rfl, Dictht.size_delete .., rfl⟩
      split
      · exact .refl _
      split
      · exact ⟨rfl, rfl, rfl⟩
      · exact .refl _
  | _ => cases hop

/-- Every operation makes a step. -/
def allStep (hash : κ → BitVec 64) : Dict κ ν → List (ResizePolicy × DictOp κ ν) → Bool
  | _, [] => true
  | d, (p, op) :: ops => d.steps op && allStep hash (d.exec hash p op).1 ops

theorem Implements.completes (ops : List (ResizePolicy × DictOp κ ν)) {idx : Nat}
    (h : Implements hash d m) (hsize : d.dictSize + ops.length ≤ longMax + 1)
    (hidx : d.rehashidx = some idx) (hpause : d.pauserehash = 0) (hsteps : allStep hash d ops = true)
    (hne : ops ≠ []) (hlength : d.ht0.size ≤ idx + ops.length) :
    ∃ i < ops.length, ((d.run hash (ops.take i)).1.rehashStep hash).dictIsRehashing = false := by
  have hbusy : d.dictIsRehashing = true := by simp [dictIsRehashing, hidx]
  induction ops generalizing d m idx with
  | nil => exact absurd rfl hne
  | cons e ops ih =>
      obtain ⟨p, op⟩ := e
      rw [List.length_cons] at hsize hlength
      rcases h.rehashStep_forth hbusy hpause with hnone | ⟨i, i', hi, hi', hlt, hin, hsame⟩
      · exact ⟨0, Nat.succ_pos _, by
          show (d.rehashStep hash).dictIsRehashing = false
          simp [dictIsRehashing, hnone]⟩
      · obtain rfl : idx = i := Option.some.inj (hidx.symm.trans hi)
        obtain ⟨hstep, hsteps⟩ := Bool.and_eq_true_iff.mp hsteps
        have hmore : (d.rehashStep hash).dictIsRehashing = true := by simp [dictIsRehashing, hi']
        have hstays := exec_stays hbusy hmore p hstep h (by omega)
        have hidx₁ := hstays.rehashidx.trans hi'
        have hlen := h.dictSize_exec p (by omega) op
        -- the step has stayed inside of the table, so there are operations left for the rest
        have hleft : ops ≠ [] := by
          rintro rfl
          rw [List.length_nil] at hlength
          omega
        obtain ⟨i, hle, hdone⟩ := ih (h.exec p (by omega) op).1 (by omega) hidx₁
          (hstays.pauserehash.trans ((pauserehash_rehashStep d).trans hpause)) hsteps hleft
          (by rw [hstays.size, hsame]; omega) (by simp [dictIsRehashing, hidx₁])
        exact ⟨i + 1, by simpa using hle, hdone⟩

end

end Dict

/-- Five numbers are one too many for four buckets. -/
def fiveNumbers : List (ResizePolicy × DictOp Nat Nat) :=
  [0, 1, 2, 3, 4].map fun n => (⟨true, true⟩, .add n (10 * n))

def fourSearches : List (ResizePolicy × DictOp Nat Nat) :=
  [0, 1, 2, 3].map fun n => (⟨true, true⟩, .find n)

end Wahana
