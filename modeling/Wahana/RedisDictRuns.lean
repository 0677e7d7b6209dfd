import Wahana.RedisDictMap

/-!
# Runs of a dictionary

From the operations to whole runs: a dictionary answers every sequence of
calls as a map does (`dict_refines_map`).

The table of a dictionary is allocated with a byte count of 64 bits that
nobody checks. `Fits` says that both tables are small enough for it. It does
not follow from the meaning of the dictionary as a map, so it is an invariant
of its own: a caller's `expand` brings it along, and where the dictionary
grows by itself the number of entries bounds the new table (`Dict.fits_run`).
-/

namespace Wahana

/-! ## Tables that fit -/

theorem nextPowerFrom_le {size b : Nat} (hsize : size ≤ 2 ^ b) : ∀ (rounds : Nat) {a : Nat},
    a ≤ b → nextPowerFrom rounds (2 ^ a) size ≤ 2 ^ b
  | 0, a, ha => Nat.pow_le_pow_right (by omega) ha
  | rounds + 1, a, ha => by
      rw [nextPowerFrom]
      split
      · exact Nat.pow_le_pow_right (by omega) ha
      · rename_i hlt
        have hne : a ≠ b := by
          rintro rfl
          exact hlt hsize
        rw [← Nat.pow_succ]
        exact nextPowerFrom_le hsize rounds (by omega)

theorem dictNextPower_le {size : Nat} (hsize : size ≤ maxBuckets) :
    dictNextPower size ≤ maxBuckets := by
  have hmax : maxBuckets < longMax := by decide
  rw [dictNextPower, if_neg (by omega)]
  exact nextPowerFrom_le hsize 61 (a := 2) (by omega)

namespace Dictht

variable {κ ν : Type}

@[simp] theorem size_push (t : Dictht κ ν) (h : BitVec 64) (e : κ × ν) :
    (t.push h e).size = t.size := by
  simp [push, size]

@[simp] theorem size_foldl_push (hash : κ → BitVec 64) : ∀ (es : List (κ × ν)) (t : Dictht κ ν),
    (es.foldl (fun t e => t.push (hash e.1) e) t).size = t.size
  | [], _ => rfl
  | e :: es, t => by rw [List.foldl_cons, size_foldl_push hash es, size_push]

@[simp] theorem size_alloc (n : Nat) : (alloc n : Dictht κ ν).size = n := List.length_replicate

variable [DecidableEq κ]

@[simp] theorem size_delete (t : Dictht κ ν) (h : BitVec 64) (key : κ) :
    (t.delete h key).size = t.size := by
  simp [delete, size]

@[simp] theorem size_overwrite (t : Dictht κ ν) (h : BitVec 64) (key : κ) (val : ν) :
    (t.overwrite h key val).size = t.size := by
  simp [overwrite, size]

end Dictht

namespace Dict

section

variable {κ ν : Type} {hash : κ → BitVec 64} {d : Dict κ ν} {m : κ → Option ν}

structure Fits (d : Dict κ ν) : Prop where
  ht0 : d.ht0.size ≤ maxBuckets
  ht1 : d.ht1.size ≤ maxBuckets

namespace Fits

theorem moveBucket (h : Fits d) (idx : Nat) : Fits (d.moveBucket hash idx) where
  ht0 := by
    have hsize : (d.moveBucket hash idx).ht0.size = d.ht0.size := by
      simp [Dict.moveBucket, Dictht.size]
    exact hsize ▸ h.ht0
  ht1 := by simpa [Dict.moveBucket] using h.ht1

theorem rehashLoop (hash : κ → BitVec 64) : ∀ (n visits idx : Nat) {d : Dict κ ν}, Fits d →
    Fits (Dict.rehashLoop hash n visits idx d)
  | 0, _, _, _, h => ⟨h.ht0, h.ht1⟩
  | n + 1, visits, idx, d, h => by
      rw [Dict.rehashLoop]
      split
      · exact ⟨h.ht0, h.ht1⟩
      split
      · exact ⟨h.ht0, h.ht1⟩
      · exact rehashLoop hash n _ _ (h.moveBucket _)

theorem dictRehash (h : Fits d) (n : Nat) : Fits (d.dictRehash hash n) := by
  unfold Dict.dictRehash
  split
  · exact h
  · rename_i idx _
    have hloop := rehashLoop hash n (n * 10) idx h
    unfold finishRehash
    split
    · exact ⟨hloop.ht1, Nat.zero_le _⟩
    · exact hloop

theorem dictRehashRounds : ∀ (rounds : Nat) {d : Dict κ ν}, Fits d →
    Fits (Dict.dictRehashRounds hash rounds d)
  | 0, _, h => h
  | rounds + 1, d, h => by
      rw [Dict.dictRehashRounds]
      split
      · exact dictRehashRounds rounds (h.dictRehash 100)
      · exact h.dictRehash 100

theorem dictRehashMilliseconds (h : Fits d) (rounds : Nat) :
    Fits (d.dictRehashMilliseconds hash rounds) := by
  unfold Dict.dictRehashMilliseconds
  split
  · exact h
  · exact dictRehashRounds rounds h

theorem stepIfRehashing (h : Fits d) (hash : κ → BitVec 64) :
    Fits (if d.dictIsRehashing then d.rehashStep hash else d) := by
  unfold Dict.rehashStep
  split
  · split
    · exact h.dictRehash 1
    · exact h
  · exact h

theorem dictExpand (h : Fits d) {size : Nat} (hsize : size ≤ maxBuckets) {d' : Dict κ ν}
    (hd : d.dictExpand size = some d') : Fits d' := by
  have hnew : (Dictht.alloc (dictNextPower size) : Dictht κ ν).size ≤ maxBuckets :=
    by simpa using dictNextPower_le hsize
  unfold Dict.dictExpand at hd
  split at hd
  · cases hd
  split at hd
  · cases hd
  split at hd
  · obtain rfl := Option.some.inj hd
    exact ⟨hnew, h.ht1⟩
  · obtain rfl := Option.some.inj hd
    exact ⟨h.ht0, hnew⟩

/-- A dictionary that grows by itself takes a table for one more entry. -/
theorem dictExpandIfNeeded (h : Fits d) (hsize : d.dictSize < maxBuckets) {p : ResizePolicy}
    {d' : Dict κ ν} (hd : Dict.dictExpandIfNeeded p d = some d') : Fits d' := by
  have hused : d.ht0.used ≤ d.dictSize := Nat.le_add_right ..
  unfold Dict.dictExpandIfNeeded at hd
  split at hd
  · exact Option.some.inj hd ▸ h
  split at hd
  · exact h.dictExpand (by decide) hd
  split at hd
  · exact h.dictExpand (by omega) hd
  · exact Option.some.inj hd ▸ h

variable [DecidableEq κ]

theorem dictAddRaw (h : Fits d) (himpl : Implements hash d m) (hsize : d.dictSize < maxBuckets)
    (p : ResizePolicy) (k : κ) (v : ν) : Fits (Dict.dictAddRaw hash p d k v).1 := by
  have h₁ := h.stepIfRehashing hash
  have hsize₁ := himpl.dictSize_eq himpl.stepIfRehashing
  unfold Dict.dictAddRaw
  generalize (if d.dictIsRehashing then d.rehashStep hash else d) = d₁ at h₁ hsize₁ ⊢
  dsimp only [dictKeyIndex]
  cases hd₂ : Dict.dictExpandIfNeeded p d₁ with
  | none => exact h₁
  | some d₂ =>
      have h₂ := h₁.dictExpandIfNeeded (hsize₁ ▸ hsize) hd₂
      dsimp only
      split
      · rename_i d₃ heq
        obtain ⟨rfl, -⟩ := Prod.mk.inj heq
        split
        · exact ⟨h₂.ht0, by simpa using h₂.ht1⟩
        · exact ⟨by simpa using h₂.ht0, h₂.ht1⟩
      · rename_i d₃ i _ heq
        obtain ⟨rfl, -⟩ := Prod.mk.inj heq
        exact h₂

theorem setExisting (h : Fits d) (k : κ) (v : ν) : Fits (d.setExisting hash k v) := by
  unfold Dict.setExisting
  split
  · exact ⟨by simpa using h.ht0, h.ht1⟩
  · exact ⟨h.ht0, by simpa using h.ht1⟩

theorem dictUnlink (h : Fits d) (k : κ) : Fits (d.dictUnlink hash k).1 := by
  have h₁ := h.stepIfRehashing hash
  unfold Dict.dictUnlink
  split
  · exact h
  dsimp only
  generalize (if d.dictIsRehashing then d.rehashStep hash else d) = d₁ at h₁ ⊢
  split
  · exact ⟨by simpa using h₁.ht0, h₁.ht1⟩
  split
  · exact h₁
  split
  · exact ⟨h₁.ht0, by simpa using h₁.ht1⟩
  · exact h₁

theorem exec (h : Fits d) (himpl : Implements hash d m) (hsize : d.dictSize < maxBuckets)
    (p : ResizePolicy) (op : DictOp κ ν) : Fits (d.exec hash p op).1 := by
  cases op with
  | find key =>
      simp only [Dict.exec, dictFind]
      split
      · exact h
      · exact h.stepIfRehashing hash
  | add key val => exact h.dictAddRaw himpl hsize p key val
  | replace key val =>
      have hadd := h.dictAddRaw himpl hsize p key val
      simp only [Dict.exec, dictReplace]
      generalize Dict.dictAddRaw hash p d key val = x at hadd ⊢
      obtain ⟨d₁, i⟩ := x
      cases i with
      | free => exact hadd
      | existing => exact hadd.setExisting key val
      | failed => exact h
  | unlink key => exact h.dictUnlink key
  | resize =>
      refine of_getD h fun d' hd' => ?_
      have hused : d.ht0.used ≤ d.dictSize := Nat.le_add_right ..
      have hfour : 4 ≤ maxBuckets := by decide
      unfold dictResize at hd'
      split at hd'
      · cases hd'
      · exact h.dictExpand (by omega) hd'
  | expand size fits => exact of_getD h fun d' hd' => h.dictExpand fits hd'
  | rehashMilliseconds rounds => exact h.dictRehashMilliseconds rounds
  | pauseRehashing => exact ⟨h.ht0, h.ht1⟩
  | resumeRehashing => exact ⟨h.ht0, h.ht1⟩

end Fits

end

end Dict

/-! ## Runs -/

section

variable {κ ν : Type} [DecidableEq κ]

variable {hash : κ → BitVec 64} {d : Dict κ ν} {m : κ → Option ν}

theorem Dict.Implements.exec (h : Implements hash d m) (p : ResizePolicy)
    (hsize : d.dictSize ≤ longMax) (op : DictOp κ ν) :
    Implements hash (d.exec hash p op).1 (op.onMap m).1 ∧
      (d.exec hash p op).2 = (op.onMap m).2 := by
  cases op with
  | find key =>
      obtain ⟨hd, hval⟩ := h.dictFind key
      exact ⟨hd, by rw [Dict.exec, DictOp.onMap, hval]⟩
  | add key val =>
      obtain ⟨hi, hd⟩ := h.dictAddRaw p key val hsize
      simp only [Dict.exec, DictOp.onMap, Dict.dictAdd, hi]
      split <;> simp_all
  | replace key val =>
      obtain ⟨d', hd', himpl⟩ := h.dictReplace p key val hsize
      simp only [Dict.exec, hd', DictOp.onMap]
      exact ⟨himpl, trivial⟩
  | unlink key =>
      obtain ⟨hd, hval⟩ := h.dictUnlink key
      exact ⟨hd, by rw [Dict.exec, DictOp.onMap, hval]⟩
  | resize => exact ⟨h.getD fun d' hd' => h.dictResize hd', rfl⟩
  | expand size _ => exact ⟨h.getD fun d' hd' => h.dictExpand hd', rfl⟩
  | rehashMilliseconds rounds => exact ⟨h.dictRehashMilliseconds rounds, rfl⟩
  | pauseRehashing => exact ⟨⟨h.ok0, h.ok1, h.idle, h.busy, h.stores⟩, rfl⟩
  | resumeRehashing => exact ⟨⟨h.ok0, h.ok1, h.idle, h.busy, h.stores⟩, rfl⟩

/-- A call adds at most one entry. -/
theorem Dict.Implements.dictSize_exec (h : Implements hash d m) (p : ResizePolicy)
    (hsize : d.dictSize ≤ longMax) (op : DictOp κ ν) :
    (d.exec hash p op).1.dictSize ≤ d.dictSize + 1 := by
  obtain ⟨himpl, -⟩ := h.exec p hsize op
  generalize (d.exec hash p op).1 = d' at himpl ⊢
  have hsame : Implements hash d' m → d'.dictSize ≤ d.dictSize + 1 := fun h' => by
    rw [h'.dictSize_eq h]
    omega
  cases op with
  | add key val =>
      simp only [DictOp.onMap] at himpl
      split at himpl
      · exact hsame himpl
      · exact h.dictSize_update himpl
  | replace key val => exact h.dictSize_update himpl
  | unlink key => exact h.dictSize_update himpl
  | _ => exact hsame himpl

theorem Dict.Implements.run : ∀ (ops : List (ResizePolicy × DictOp κ ν)) {d : Dict κ ν}
    {m : κ → Option ν}, Implements hash d m → d.dictSize + ops.length ≤ longMax + 1 →
    Implements hash (d.run hash ops).1 (runOnMap m (ops.map Prod.snd)).1 ∧
      (d.run hash ops).2 = (runOnMap m (ops.map Prod.snd)).2
  | [], _, _, h, _ => ⟨h, rfl⟩
  | (p, op) :: ops, d, m, h, hsize => by
      rw [List.length_cons] at hsize
      obtain ⟨himpl, hreply⟩ := h.exec p (by omega) op
      have hlen := h.dictSize_exec p (by omega) op
      obtain ⟨hrun, hreplies⟩ := Dict.Implements.run ops himpl (by omega)
      exact ⟨hrun, by simp only [Dict.run, List.map_cons, runOnMap, hreply, hreplies]⟩

theorem Dict.Implements.dictSize_run : ∀ (ops : List (ResizePolicy × DictOp κ ν)) {d : Dict κ ν}
    {m : κ → Option ν}, Implements hash d m → d.dictSize + ops.length ≤ longMax + 1 →
    (d.run hash ops).1.dictSize ≤ d.dictSize + ops.length
  | [], _, _, _, _ => Nat.le_refl _
  | (p, op) :: ops, d, m, h, hsize => by
      rw [List.length_cons] at hsize ⊢
      have hlen := h.dictSize_exec p (by omega) op
      have hrun := Dict.Implements.dictSize_run ops (h.exec p (by omega) op).1 (by omega)
      show (Dict.run hash (d.exec hash p op).1 ops).1.dictSize ≤ _
      omega

theorem Dict.run_append (hash : κ → BitVec 64) : ∀ (ops later : List (ResizePolicy × DictOp κ ν))
    (d : Dict κ ν), (d.run hash (ops ++ later)).1 = ((d.run hash ops).1.run hash later).1
  | [], _, _ => rfl
  | (p, op) :: ops, later, d => Dict.run_append hash ops later (d.exec hash p op).1

/-- What a run on a new dictionary leaves. -/
theorem Dict.implements_run (hash : κ → BitVec 64) {ops : List (ResizePolicy × DictOp κ ν)}
    (hops : ops.length ≤ longMax) :
    Implements hash (dictCreate.run hash ops).1 (runOnMap (fun _ => none) (ops.map Prod.snd)).1 ∧
      (dictCreate.run hash ops).1.dictSize ≤ ops.length ∧
      (dictCreate.run hash ops).2 = (runOnMap (fun _ => none) (ops.map Prod.snd)).2 := by
  have hnew : (dictCreate : Dict κ ν).dictSize = 0 := rfl
  have hempty : Implements hash (dictCreate : Dict κ ν) fun _ => none := implements_dictCreate
  obtain ⟨himpl, hreplies⟩ := hempty.run ops (by omega)
  have hsize := hempty.dictSize_run ops (by omega)
  exact ⟨himpl, by omega, hreplies⟩

/-- The tables of a run fit, so that their byte counts do not wrap. -/
theorem Dict.fits_run (hash : κ → BitVec 64) : ∀ (ops : List (ResizePolicy × DictOp κ ν)) {d : Dict κ ν}
    {m : κ → Option ν}, Fits d → Implements hash d m → d.dictSize + ops.length < maxBuckets →
    Fits (d.run hash ops).1
  | [], _, _, hfits, _, _ => hfits
  | (p, op) :: ops, d, m, hfits, h, hsize => by
      have hmax : maxBuckets < longMax := by decide
      rw [List.length_cons] at hsize
      have hlen := h.dictSize_exec p (by omega) op
      obtain ⟨himpl, -⟩ := h.exec p (by omega) op
      show Fits (Dict.run hash (d.exec hash p op).1 ops).1
      exact Dict.fits_run hash ops (hfits.exec h (by omega) p op) himpl (by omega)

/-- **The dictionary is a map.** Any run of operations on a new dictionary,
with any hash function, tables that grow, shrink and move as they may, and
pauses of the rehashing anywhere, gives the replies of a map, and its tables
stay small enough to be allocated. -/
theorem dict_refines_map (hash : κ → BitVec 64) (ops : List (ResizePolicy × DictOp κ ν))
    (hops : ops.length < maxBuckets) :
    (Dict.dictCreate.run hash ops).2 = (runOnMap (fun _ => none) (ops.map Prod.snd)).2 ∧
      (Dict.dictCreate.run hash ops).1.ht0.size ≤ maxBuckets ∧
      (Dict.dictCreate.run hash ops).1.ht1.size ≤ maxBuckets := by
  have hmax : maxBuckets < longMax := by decide
  have hops' : ops.length ≤ longMax := by omega
  have hnew : (Dict.dictCreate : Dict κ ν).dictSize = 0 := rfl
  obtain ⟨hfits0, hfits1⟩ := Dict.fits_run hash ops (d := Dict.dictCreate)
    ⟨Nat.zero_le _, Nat.zero_le _⟩ Dict.implements_dictCreate (by omega)
  exact ⟨(Dict.implements_run hash hops').2.2, hfits0, hfits1⟩

end

/-- Five numbers, all in one chain, fill the first table and start to move. -/
def fiveAdded : List (ResizePolicy × DictOp Nat Nat) :=
  [1, 2, 3, 4, 5].map (fun n => (⟨true, true⟩, .add n (10 * n))) ++
    [(⟨true, true⟩, .unlink 2), (⟨true, true⟩, .replace 1 7), (⟨true, true⟩, .find 1)]

theorem fiveAdded_replies :
    (Dict.dictCreate.run (fun _ => 6#64) fiveAdded).2 =
      [.flag true, .flag true, .flag true, .flag true, .flag true,
        .value (some 20), .flag false, .value (some 7)] :=
  (dict_refines_map (fun _ => 6#64) fiveAdded (by decide)).1.trans (by decide)

end Wahana
