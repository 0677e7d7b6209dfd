import Wahana.RedisDict

/-!
# A dictionary is a map

`Implements` relates a dictionary to the partial map it stands for: each
table is in order (`Dictht.Ok`: sizes are powers of two, counters right,
entries in their buckets), the buckets below `rehashidx` are empty, and the
two tables together hold each key once. Every operation keeps it, whatever
the state of the rehashing, and answers as a map does. In particular
`dictReplace` never follows the pointer that `_dictKeyIndex` leaves empty
where it cannot expand a table.
-/

namespace Wahana

/-! ## Tables in order -/

theorem nextPowerFrom_spec (size : Nat) : ∀ (rounds a : Nat),
    ∃ b, nextPowerFrom rounds (2 ^ a) size = 2 ^ b ∧ a ≤ b ∧ b ≤ a + rounds ∧
      (size ≤ 2 ^ (a + rounds) → size ≤ 2 ^ b)
  | 0, a => ⟨a, rfl, Nat.le_refl a, Nat.le_refl a, id⟩
  | rounds + 1, a => by
      rw [nextPowerFrom]
      split
      · exact ⟨a, rfl, Nat.le_refl a, by omega, fun _ => by assumption⟩
      · obtain ⟨b, hb, hle, hge, hsize⟩ := nextPowerFrom_spec size rounds (a + 1)
        rw [← Nat.pow_succ, hb]
        refine ⟨b, rfl, by omega, by omega, fun h => hsize ?_⟩
        rwa [show a + 1 + rounds = a + (rounds + 1) by omega]

theorem dictNextPower_spec (size : Nat) :
    ∃ n, dictNextPower size = 2 ^ n ∧ 2 ≤ n ∧ n ≤ 63 ∧ (size ≤ longMax + 1 → size ≤ 2 ^ n) := by
  have hmax : longMax + 1 = 2 ^ 63 := by decide
  unfold dictNextPower
  split
  · exact ⟨63, hmax, by omega, by omega, by omega⟩
  · obtain ⟨b, hb, hle, hge, hsize⟩ := nextPowerFrom_spec size 61 2
    refine ⟨b, hb, hle, hge, fun h => hsize ?_⟩
    rw [hmax] at h
    exact h

namespace Dictht

variable {κ ν : Type} {hash : κ → BitVec 64} {t : Dictht κ ν}

/-- Sizes are powers of two, the counter is right, and every entry is in the
bucket of its hash. -/
structure Ok (hash : κ → BitVec 64) (t : Dictht κ ν) : Prop where
  size : t.table = [] ∨ ∃ n ≤ 63, t.size = 2 ^ n
  used : t.used = t.table.flatten.length
  placed : ∀ i b e, t.table[i]? = some b → e ∈ b → t.index (hash e.1) = i

theorem reset_ok : Ok hash (reset : Dictht κ ν) := ⟨.inl rfl, rfl, by simp [reset]⟩

theorem flatten_alloc (size : Nat) : (alloc size : Dictht κ ν).table.flatten = [] := by
  simp [alloc]

theorem alloc_ok {n : Nat} (hn : n ≤ 63) : Ok hash (alloc (2 ^ n) : Dictht κ ν) where
  size := .inr ⟨n, hn, List.length_replicate⟩
  used := by rw [flatten_alloc]; rfl
  placed i b e hb he := by
    obtain rfl : b = [] := List.eq_of_mem_replicate (List.mem_of_getElem? hb)
    cases he

theorem index_lt (h : t.table ≠ []) (x : BitVec 64) : t.index x < t.table.length := by
  have hle : t.index x ≤ t.table.length - 1 := Nat.and_le_right
  have hpos := List.length_pos_iff.mpr h
  omega

theorem getElem?_index (h : t.table ≠ []) (x : BitVec 64) :
    t.table[t.index x]? = some (t.chain (t.index x)) := by
  rw [chain, List.getElem?_eq_getElem (index_lt h x), Option.getD_some]

theorem chain_modify (f : List (κ × ν) → List (κ × ν)) (hf : f [] = []) (i j used : Nat) :
    (⟨t.table.modify i f, used⟩ : Dictht κ ν).chain j =
      if i = j then f (t.chain j) else t.chain j := by
  simp only [chain, List.getElem?_modify]
  cases t.table[j]? with
  | none => split <;> simp [hf]
  | some b => split <;> simp_all

namespace Ok

theorem mem_chain (h : Ok hash t) {k : κ} {v : ν} :
    (k, v) ∈ t.chain (t.index (hash k)) ↔ (k, v) ∈ t.table.flatten := by
  constructor
  · intro hin
    unfold chain at hin
    cases hb : t.table[t.index (hash k)]? with
    | none => simp [hb] at hin
    | some b =>
        rw [hb, Option.getD_some] at hin
        exact List.mem_flatten.mpr ⟨b, List.mem_of_getElem? hb, hin⟩
  · intro hin
    obtain ⟨b, hb, hkv⟩ := List.mem_flatten.mp hin
    obtain ⟨i, hi⟩ := List.mem_iff_getElem?.mp hb
    rw [h.placed i b (k, v) hi hkv, chain, hi]
    exact hkv

/-- A bucket may change as long as new entries belong there. -/
theorem modify (h : Ok hash t) {i used : Nat} {f : List (κ × ν) → List (κ × ν)}
    (hf : ∀ b e, e ∈ f b → (∃ e₀ ∈ b, e₀.1 = e.1) ∨ t.index (hash e.1) = i)
    (hused : used = (t.table.modify i f).flatten.length) :
    Ok hash (⟨t.table.modify i f, used⟩ : Dictht κ ν) where
  size := by
    rcases h.size with hnil | ⟨n, hn, hsize⟩
    · exact .inl (by simp [hnil])
    · exact .inr ⟨n, hn, (List.length_modify ..).trans hsize⟩
  used := hused
  placed j b e hb he := by
    have hindex : (⟨t.table.modify i f, used⟩ : Dictht κ ν).index (hash e.1) =
        t.index (hash e.1) := by
      simp [index, sizemask, Dictht.size]
    rw [hindex]
    rw [List.getElem?_modify] at hb
    obtain ⟨b₀, hb₀, rfl⟩ := Option.map_eq_some_iff.mp hb
    split at he
    · rename_i hij
      rcases hf b₀ e he with ⟨e₀, he₀, hkey⟩ | hi
      · rw [← hkey]
        exact h.placed j b₀ e₀ hb₀ he₀
      · exact hi.trans hij
    · exact h.placed j b₀ e hb₀ he

theorem push (h : Ok hash t) (hne : t.table ≠ []) (e : κ × ν) :
    Ok hash (t.push (hash e.1) e) ∧
      (t.push (hash e.1) e).table.flatten.Perm (e :: t.table.flatten) := by
  obtain ⟨rest, hold, hnew⟩ := flatten_modify (getElem?_index hne (hash e.1))
  have hperm : (t.push (hash e.1) e).table.flatten.Perm (e :: t.table.flatten) :=
    (hnew (e :: ·)).trans (hold.symm.cons e)
  refine ⟨h.modify ?_ ?_, hperm⟩
  · intro b e' he'
    rcases List.mem_cons.mp he' with rfl | he'
    · exact .inr rfl
    · exact .inl ⟨e', he', rfl⟩
  · have hlen := hperm.length_eq
    rw [List.length_cons, ← h.used] at hlen
    exact hlen.symm

/-- Empties the bucket at `i`. -/
theorem clear (h : Ok hash t) (i : Nat) :
    Ok hash (⟨t.table.modify i fun _ => [], t.used - (t.chain i).length⟩ : Dictht κ ν) ∧
      t.table.flatten.Perm (t.chain i ++ (t.table.modify i fun _ => []).flatten) := by
  have hperm : t.table.flatten.Perm (t.chain i ++ (t.table.modify i fun _ => []).flatten) := by
    cases hb : t.table[i]? with
    | none =>
        have hlen := List.getElem?_eq_none_iff.mp hb
        rw [List.modify_eq_self hlen, chain, hb]
        exact .refl _
    | some b =>
        obtain ⟨rest, hold, hnew⟩ := flatten_modify hb
        have hchain : t.chain i = b := by rw [chain, hb]; rfl
        rw [hchain]
        exact hold.trans ((hnew fun _ => []).symm.append_left b)
  refine ⟨h.modify (by simp) ?_, hperm⟩
  have hlen := hperm.length_eq
  rw [List.length_append, ← h.used] at hlen
  omega

variable [DecidableEq κ] {k : κ} {v : ν}

theorem mem_of_lookup (h : Ok hash t) (hk : t.lookup (hash k) k = some v) :
    (k, v) ∈ t.table.flatten := by
  obtain ⟨l₁, l₂, hl, -⟩ := List.lookup_eq_some_iff.mp hk
  exact h.mem_chain.mp (by rw [hl]; simp)

theorem notMem_of_lookup (h : Ok hash t) (hk : t.lookup (hash k) k = none) (v : ν) :
    (k, v) ∉ t.table.flatten := by
  intro hin
  have hne := List.lookup_eq_none_iff.mp hk (k, v) (h.mem_chain.mpr hin)
  simp at hne

theorem ne_nil_of_lookup (hk : t.lookup (hash k) k = some v) : t.table ≠ [] := by
  intro hnil
  simp [lookup, chain, hnil] at hk

/-- Deleting and overwriting, around the entry that a search finds. -/
theorem change (h : Ok hash t) (hk : t.lookup (hash k) k = some v) :
    Ok hash (t.delete (hash k) k) ∧ (∀ v', Ok hash (t.overwrite (hash k) k v')) ∧
      t.table.flatten.Perm ((k, v) :: (t.delete (hash k) k).table.flatten) ∧
      ∀ v', (t.overwrite (hash k) k v').table.flatten.Perm
        ((k, v') :: (t.delete (hash k) k).table.flatten) := by
  obtain ⟨rest, hold, hnew⟩ := flatten_modify (getElem?_index (ne_nil_of_lookup hk) (hash k))
  obtain ⟨hfound, hset⟩ := perm_of_lookup hk
  have hdelete : t.table.flatten.Perm ((k, v) :: (t.delete (hash k) k).table.flatten) :=
    hold.trans ((hfound.append_right rest).trans ((hnew (unlink k)).symm.cons _))
  have hover : ∀ v', (t.overwrite (hash k) k v').table.flatten.Perm
      ((k, v') :: (t.delete (hash k) k).table.flatten) := fun v' =>
    (hnew (setVal k v')).trans (((hset v').append_right rest).trans ((hnew (unlink k)).symm.cons _))
  refine ⟨h.modify ?_ ?_, fun v' => h.modify ?_ ?_, hdelete, hover⟩
  · intro b e he
    exact .inl ⟨e, List.mem_of_mem_eraseP he, rfl⟩
  · have hlen := hdelete.length_eq
    rw [List.length_cons, ← h.used] at hlen
    exact (Nat.sub_eq_of_eq_add hlen)
  · intro b e he
    have hkeys : e.1 ∈ b.map Prod.fst := by
      rw [← map_fst_setVal k v' b]
      exact List.mem_map_of_mem he
    obtain ⟨e₀, he₀, hkey⟩ := List.mem_map.mp hkeys
    exact .inl ⟨e₀, he₀, hkey⟩
  · have hlen := (hover v').length_eq.trans hdelete.length_eq.symm
    rw [← h.used] at hlen
    exact hlen.symm

end Ok

end Dictht

/-! ## Dictionaries and maps -/

/-- A function that may refuse leaves the dictionary as it is. -/
theorem of_getD {α : Type} {P : α → Prop} {a : α} {o : Option α} (ha : P a)
    (ho : ∀ b, o = some b → P b) : P (o.getD a) := by
  cases o with
  | none => exact ha
  | some b => exact ho b rfl

namespace Dict

variable {κ ν : Type} {hash : κ → BitVec 64} {d : Dict κ ν} {m : κ → Option ν}

def entries (d : Dict κ ν) : List (κ × ν) := d.ht0.table.flatten ++ d.ht1.table.flatten

/-- The dictionary stands for `m`. -/
structure Implements (hash : κ → BitVec 64) (d : Dict κ ν) (m : κ → Option ν) : Prop where
  ok0 : d.ht0.Ok hash
  ok1 : d.ht1.Ok hash
  idle : d.rehashidx = none → d.ht1 = .reset
  busy : ∀ idx, d.rehashidx = some idx →
    d.ht0.table ≠ [] ∧ d.ht1.table ≠ [] ∧ ∀ j < idx, d.ht0.chain j = []
  stores : Stores d.entries m

theorem implements_dictCreate : Implements hash (dictCreate : Dict κ ν) fun _ => none where
  ok0 := Dictht.reset_ok
  ok1 := Dictht.reset_ok
  idle _ := rfl
  busy _ h := by cases h
  stores := .nil

namespace Implements

/-- Both tables may change as long as they hold the same entries. -/
theorem replace (h : Implements hash d m) {d' : Dict κ ν} (ok0 : d'.ht0.Ok hash)
    (ok1 : d'.ht1.Ok hash) (idle : d'.rehashidx = none → d'.ht1 = .reset)
    (busy : ∀ idx, d'.rehashidx = some idx →
      d'.ht0.table ≠ [] ∧ d'.ht1.table ≠ [] ∧ ∀ j < idx, d'.ht0.chain j = [])
    (hperm : d.entries.Perm d'.entries) : Implements hash d' m :=
  ⟨ok0, ok1, idle, busy, h.stores.perm hperm⟩

theorem length_entries (h : Implements hash d m) : d.dictSize = d.entries.length := by
  rw [dictSize, entries, List.length_append, h.ok0.used, h.ok1.used]

/-! ## Rehashing -/

theorem foldl_push {e : List (κ × ν)} : ∀ {t : Dictht κ ν}, t.Ok hash → t.table ≠ [] →
    (e.foldl (fun t e => t.push (hash e.1) e) t).Ok hash ∧
      (e.foldl (fun t e => t.push (hash e.1) e) t).table ≠ [] ∧
      (e.foldl (fun t e => t.push (hash e.1) e) t).table.flatten.Perm (e ++ t.table.flatten) := by
  induction e with
  | nil => exact fun ht hne => ⟨ht, hne, .refl _⟩
  | cons e es ih =>
      intro t ht hne
      obtain ⟨hok, hperm⟩ := ht.push hne e
      have hne' : (t.push (hash e.1) e).table ≠ [] := by simpa [Dictht.push] using hne
      obtain ⟨hok', hne'', hperm'⟩ := ih hok hne'
      refine ⟨hok', hne'', hperm'.trans ?_⟩
      exact (hperm.append_left es).trans List.perm_middle

/-- Nothing has to be moved from the buckets up to `idx`. -/
theorem skip (h : Implements hash d m) {i idx : Nat} (hi : d.rehashidx = some i)
    (hempty : ∀ j < idx, d.ht0.chain j = []) :
    Implements hash { d with rehashidx := some idx } m := by
  obtain ⟨hne0, hne1, -⟩ := h.busy i hi
  refine h.replace h.ok0 h.ok1 (fun hnone => by cases hnone) ?_ (.refl _)
  intro idx' hidx'
  obtain rfl : idx = idx' := Option.some.inj hidx'
  exact ⟨hne0, hne1, hempty⟩

theorem moveBucket (h : Implements hash d m) {idx : Nat} (hidx : d.rehashidx = some idx) :
    Implements hash (d.moveBucket hash idx) m := by
  obtain ⟨hne0, hne1, hempty⟩ := h.busy idx hidx
  obtain ⟨hok0, hperm0⟩ := h.ok0.clear idx
  obtain ⟨hok1, hne1', hperm1⟩ := foldl_push (e := d.ht0.chain idx) h.ok1 hne1
  refine h.replace hok0 hok1 (fun hnone => by cases hnone) ?_ ?_
  · intro idx' hidx'
    obtain rfl : idx + 1 = idx' := Option.some.inj hidx'
    refine ⟨by simpa [Dict.moveBucket] using hne0, hne1', fun j hj => ?_⟩
    rw [Dict.moveBucket, Dictht.chain_modify _ rfl]
    split
    · rfl
    · exact hempty j (by omega)
  · rw [entries, entries]
    refine (hperm0.append_right _).trans ?_
    refine .trans ?_ (hperm1.append_left _).symm
    rw [← List.append_assoc]
    exact List.perm_append_comm.append_right _

theorem chain_of_skipEmpty {table : List (List (κ × ν))} : ∀ {visits idx j : Nat}, idx ≤ j →
    j < (skipEmpty table visits idx).1 → table[j]?.getD [] = []
  | 0, idx, j, hle, hlt => by
      rw [skipEmpty] at hlt
      omega
  | visits + 1, idx, j, hle, hlt => by
      rw [skipEmpty] at hlt
      split at hlt
      · rename_i hb
        by_cases hj : j = idx
        · rw [hj, hb]
          rfl
        · exact chain_of_skipEmpty (by omega) hlt
      · omega

theorem rehashLoop : ∀ (n visits : Nat) {idx : Nat} {d : Dict κ ν}, d.rehashidx = some idx →
    Implements hash d m → Implements hash (Dict.rehashLoop hash n visits idx d) m
  | 0, visits, idx, d, hidx, h => by
      rw [Dict.rehashLoop, ← hidx]
      exact h
  | n + 1, visits, idx, d, hidx, h => by
      have hempty : ∀ j < (skipEmpty d.ht0.table visits idx).1, d.ht0.chain j = [] := by
        intro j hj
        by_cases hlt : j < idx
        · exact (h.busy idx hidx).2.2 j hlt
        · exact chain_of_skipEmpty (by omega) hj
      have hskip := h.skip hidx hempty
      rw [Dict.rehashLoop]
      split
      · rw [← hidx]
        exact h
      split
      · rename_i idx' heq
        rw [heq] at hskip
        exact hskip
      · rename_i idx' visits' _ heq
        rw [heq] at hskip
        exact rehashLoop n visits' rfl (hskip.moveBucket rfl)

theorem finishRehash (h : Implements hash d m) : Implements hash d.finishRehash m := by
  unfold Dict.finishRehash
  split
  · rename_i hused
    refine h.replace h.ok1 Dictht.reset_ok (fun _ => rfl) (fun _ hsome => by cases hsome) ?_
    have hnil : d.ht0.table.flatten = [] :=
      List.length_eq_zero_iff.mp (h.ok0.used.symm.trans hused)
    simp [entries, hnil, Dictht.reset]
  · exact h

theorem dictRehash (h : Implements hash d m) (n : Nat) :
    Implements hash (d.dictRehash hash n) m := by
  unfold Dict.dictRehash
  split
  · exact h
  · rename_i idx hidx
    exact (h.rehashLoop n (n * 10) hidx).finishRehash

theorem rehashStep (h : Implements hash d m) : Implements hash (d.rehashStep hash) m := by
  unfold Dict.rehashStep
  split
  · exact h.dictRehash 1
  · exact h

theorem dictRehashRounds : ∀ (rounds : Nat) {d : Dict κ ν}, Implements hash d m →
    Implements hash (Dict.dictRehashRounds hash rounds d) m
  | 0, _, h => h
  | rounds + 1, d, h => by
      rw [Dict.dictRehashRounds]
      split
      · exact dictRehashRounds rounds (h.dictRehash 100)
      · exact h.dictRehash 100

theorem dictRehashMilliseconds (h : Implements hash d m) (rounds : Nat) :
    Implements hash (d.dictRehashMilliseconds hash rounds) m := by
  unfold Dict.dictRehashMilliseconds
  split
  · exact h
  · exact dictRehashRounds rounds h

/-- The step that operations make first. -/
theorem stepIfRehashing (h : Implements hash d m) :
    Implements hash (if d.dictIsRehashing then d.rehashStep hash else d) m := by
  split
  · exact h.rehashStep
  · exact h

/-! ## Expanding -/

theorem dictExpand (h : Implements hash d m) {size : Nat} {d' : Dict κ ν}
    (hd : d.dictExpand size = some d') : Implements hash d' m := by
  obtain ⟨n, hn, -, hn63, -⟩ := dictNextPower_spec size
  unfold Dict.dictExpand at hd
  split at hd
  · cases hd
  rename_i hnot
  have hidle : d.rehashidx = none := by
    simp only [dictIsRehashing, Bool.or_eq_true, not_or] at hnot
    simpa using hnot.1
  have hreset := h.idle hidle
  rw [hn] at hd
  split at hd
  · cases hd
  split at hd
  · rename_i hnil
    obtain rfl := Option.some.inj hd
    refine h.replace (Dictht.alloc_ok hn63) h.ok1 (fun _ => hreset) ?_ ?_
    · intro idx hidx
      exact absurd (hidle.symm.trans hidx) (by simp)
    · simp [entries, hnil, Dictht.flatten_alloc]
  · rename_i hnil
    obtain rfl := Option.some.inj hd
    refine h.replace h.ok0 (Dictht.alloc_ok hn63) (fun hnone => by cases hnone) ?_ ?_
    · intro idx hidx
      obtain rfl : 0 = idx := Option.some.inj hidx
      exact ⟨hnil, by simp [Dictht.alloc], fun j hj => by omega⟩
    · simp [entries, hreset, Dictht.reset, Dictht.flatten_alloc]

theorem dictResize (h : Implements hash d m) {p : ResizePolicy} {d' : Dict κ ν}
    (hd : d.dictResize p = some d') : Implements hash d' m := by
  unfold Dict.dictResize at hd
  split at hd
  · cases hd
  · exact h.dictExpand hd

/-- A dictionary that has to grow can grow. -/
theorem dictExpandIfNeeded (h : Implements hash d m) (p : ResizePolicy)
    (hsize : d.dictSize ≤ longMax) : ∃ d', Dict.dictExpandIfNeeded p d = some d' ∧
      Implements hash d' m ∧ (d'.dictIsRehashing = false → d'.ht0.table ≠ []) := by
  unfold Dict.dictExpandIfNeeded
  split
  · rename_i hbusy
    exact ⟨d, rfl, h, fun hidle => by rw [hbusy] at hidle; cases hidle⟩
  rename_i hidle
  -- not rehashing, `dictExpand` refuses only to shrink or to keep the size
  have hexpand : ∀ size, d.ht0.used ≤ size → size ≤ longMax + 1 → d.ht0.size < max size 4 →
      ∃ d', d.dictExpand size = some d' ∧ Implements hash d' m ∧
        (d'.dictIsRehashing = false → d'.ht0.table ≠ []) := by
    intro size hused hmax hgrow
    obtain ⟨n, hn, hn2, -, hle⟩ := dictNextPower_spec size
    have hpow : 2 ^ 2 ≤ 2 ^ n := Nat.pow_le_pow_right (by omega) hn2
    have hle := hle hmax
    have hne : dictNextPower size ≠ d.ht0.size := by omega
    have hsome : ∃ d', d.dictExpand size = some d' ∧
        (d'.dictIsRehashing = false → d'.ht0.table ≠ []) := by
      unfold Dict.dictExpand
      rw [if_neg (by simp [hidle]; omega), if_neg hne]
      split
      · refine ⟨_, rfl, fun _ => ?_⟩
        simp [Dictht.alloc, hn]
      · exact ⟨_, rfl, fun hidle' => by cases hidle'⟩
    obtain ⟨d', hd', htable⟩ := hsome
    exact ⟨d', hd', h.dictExpand hd', htable⟩
  have hused : d.ht0.used ≤ d.dictSize := Nat.le_add_right ..
  have hzero : d.ht0.size = 0 → d.ht0.used = 0 := by
    intro hz
    rw [h.ok0.used, List.length_eq_zero_iff.mp hz]
    rfl
  split
  · rename_i hz
    exact hexpand 4 (by rw [hzero hz]; omega) (by decide) (by omega)
  split
  · rename_i hfull
    exact hexpand (d.ht0.used + 1) (by omega) (by omega) (by omega)
  · rename_i hz _
    exact ⟨d, rfl, h, fun _ hnil => hz (by rw [Dictht.size, hnil]; rfl)⟩

theorem getD (h : Implements hash d m) {o : Option (Dict κ ν)}
    (ho : ∀ d', o = some d' → Implements hash d' m) : Implements hash (o.getD d) m :=
  of_getD (P := fun d => Implements hash d m) h ho

/-! ## Operations -/

variable {k : κ} {v : ν}

theorem mem_iff (h : Implements hash d m) :
    m k = some v ↔ (k, v) ∈ d.ht0.table.flatten ∨ (k, v) ∈ d.ht1.table.flatten := by
  rw [← h.stores.mem_iff, entries, List.mem_append]

theorem eq_none_of_dictSize (h : Implements hash d m) (hsize : d.dictSize = 0) (k : κ) :
    m k = none := by
  rw [h.length_entries] at hsize
  have hnil := List.length_eq_zero_iff.mp hsize
  cases hk : m k with
  | none => rfl
  | some v =>
      have hin := (h.stores.mem_iff k v).mpr hk
      rw [hnil] at hin
      cases hin

theorem dictSize_eq {d' : Dict κ ν} (h : Implements hash d m) (h' : Implements hash d' m) :
    d.dictSize = d'.dictSize := by
  rw [h.length_entries, h'.length_entries]
  exact h.stores.length_eq h'.stores

variable [DecidableEq κ]

theorem dictSize_update {d' : Dict κ ν} {o : Option ν} (h : Implements hash d m)
    (h' : Implements hash d' (Function.update m k o)) : d'.dictSize ≤ d.dictSize + 1 := by
  rw [h.length_entries, h'.length_entries]
  exact h.stores.length_update_le h'.stores

theorem dictSize_update_none {d' : Dict κ ν} (h : Implements hash d m)
    (h' : Implements hash d' (Function.update m k none)) : d'.dictSize ≤ d.dictSize := by
  rw [h.length_entries, h'.length_entries]
  exact h.stores.length_update_none_le h'.stores

theorem eq_some_of_lookup0 (h : Implements hash d m) (hk : d.ht0.lookup (hash k) k = some v) :
    m k = some v :=
  h.mem_iff.mpr (.inl (h.ok0.mem_of_lookup hk))

/-- A key that is not in the first table is looked for in the second. -/
theorem lookup1 (h : Implements hash d m) (hk : d.ht0.lookup (hash k) k = none) :
    d.ht1.lookup (hash k) k = m k := by
  refine lookup_eq_of_mem_iff fun v => ?_
  rw [h.ok1.mem_chain, h.mem_iff]
  exact (or_iff_right (h.ok0.notMem_of_lookup hk v)).symm

theorem search (h : Implements hash d m) (k : κ) : d.search hash k = m k := by
  unfold Dict.search
  cases hk : d.ht0.lookup (hash k) k with
  | some v => exact (h.eq_some_of_lookup0 hk).symm
  | none =>
      rw [← h.lookup1 hk]
      cases hidx : d.rehashidx with
      | none =>
          have hreset := h.idle hidx
          simp [dictIsRehashing, hidx, hreset, Dictht.lookup, Dictht.chain, Dictht.reset]
      | some idx => simp [dictIsRehashing, hidx]

theorem dictFind (h : Implements hash d m) (k : κ) :
    Implements hash (d.dictFind hash k).1 m ∧ (d.dictFind hash k).2 = m k := by
  unfold Dict.dictFind
  split
  · rename_i hsize
    exact ⟨h, (h.eq_none_of_dictSize hsize k).symm⟩
  · exact ⟨h.stepIfRehashing, h.stepIfRehashing.search k⟩

theorem push (h : Implements hash d m) (hk : m k = none) (v : ν)
    (htable : d.dictIsRehashing = false → d.ht0.table ≠ []) :
    Implements hash (if d.dictIsRehashing then { d with ht1 := d.ht1.push (hash k) (k, v) }
      else { d with ht0 := d.ht0.push (hash k) (k, v) }) (Function.update m k (some v)) := by
  cases hidx : d.rehashidx with
  | some idx =>
      obtain ⟨hne0, hne1, hempty⟩ := h.busy idx hidx
      obtain ⟨hok, hperm⟩ := h.ok1.push hne1 (k, v)
      rw [if_pos (by simp [dictIsRehashing, hidx])]
      refine ⟨h.ok0, hok, (fun hnone => by cases hnone), ?_, ?_⟩
      · intro idx' hidx'
        obtain rfl : idx = idx' := Option.some.inj hidx'
        exact ⟨hne0, by simpa [Dictht.push] using hne1, hempty⟩
      · refine (h.stores.cons hk v).perm ?_
        exact List.perm_middle.symm.trans (hperm.symm.append_left _)
  | none =>
      have hidle : d.dictIsRehashing = false := by simp [dictIsRehashing, hidx]
      obtain ⟨hok, hperm⟩ := h.ok0.push (htable hidle) (k, v)
      rw [if_neg (by simp [hidle])]
      refine ⟨hok, h.ok1, fun _ => h.idle hidx, ?_, ?_⟩
      · intro idx hsome
        cases hsome
      · exact (h.stores.cons hk v).perm (hperm.symm.append_right _)

theorem dictAddRaw (h : Implements hash d m) (p : ResizePolicy) (k : κ) (v : ν)
    (hsize : d.dictSize ≤ longMax) :
    (Dict.dictAddRaw hash p d k v).2 = (if (m k).isSome then .existing else .free) ∧
      Implements hash (Dict.dictAddRaw hash p d k v).1
        (if (m k).isSome then m else Function.update m k (some v)) := by
  have h₁ := h.stepIfRehashing
  unfold Dict.dictAddRaw
  generalize (if d.dictIsRehashing then d.rehashStep hash else d) = d₁ at h₁ ⊢
  obtain ⟨d₂, hd₂, h₂, htable⟩ := h₁.dictExpandIfNeeded p (by rw [← h.dictSize_eq h₁]; exact hsize)
  simp only [dictKeyIndex, hd₂, h₂.search k]
  cases hk : m k with
  | some v₀ => exact ⟨rfl, h₂⟩
  | none => exact ⟨rfl, h₂.push hk v htable⟩

/-- The entry of a key may be overwritten or unlinked, in whichever table it
is. -/
theorem change0 (h : Implements hash d m) (hk : d.ht0.lookup (hash k) k = some v) :
    Implements hash { d with ht0 := d.ht0.delete (hash k) k } (Function.update m k none) ∧
      ∀ v', Implements hash { d with ht0 := d.ht0.overwrite (hash k) k v' }
        (Function.update m k (some v')) := by
  obtain ⟨hdel, hover, hperm, hpermv⟩ := h.ok0.change hk
  have hold : Stores ((k, v) :: ((d.ht0.delete (hash k) k).table.flatten ++ d.ht1.table.flatten))
      m := h.stores.perm (hperm.append_right _)
  have hbusy : ∀ (f : List (κ × ν) → List (κ × ν)) (used : Nat), f [] = [] →
      ∀ idx, d.rehashidx = some idx →
        d.ht0.table.modify (d.ht0.index (hash k)) f ≠ [] ∧ d.ht1.table ≠ [] ∧
          ∀ j < idx, (⟨d.ht0.table.modify (d.ht0.index (hash k)) f, used⟩ : Dictht κ ν).chain j =
            [] := by
    intro f used hf idx hidx
    obtain ⟨hne0, hne1, hempty⟩ := h.busy idx hidx
    refine ⟨by simpa using hne0, hne1, fun j hj => ?_⟩
    rw [Dictht.chain_modify f hf, hempty j hj, hf]
    split <;> rfl
  exact ⟨⟨hdel, h.ok1, h.idle, hbusy _ _ rfl, hold.tail⟩,
    fun v' => ⟨hover v', h.ok1, h.idle, hbusy _ _ rfl,
      (hold.set v').perm ((hpermv v').symm.append_right _)⟩⟩

theorem change1 (h : Implements hash d m) (hk : d.ht1.lookup (hash k) k = some v) :
    Implements hash { d with ht1 := d.ht1.delete (hash k) k } (Function.update m k none) ∧
      ∀ v', Implements hash { d with ht1 := d.ht1.overwrite (hash k) k v' }
        (Function.update m k (some v')) := by
  obtain ⟨hdel, hover, hperm, hpermv⟩ := h.ok1.change hk
  have hold : Stores ((k, v) :: (d.ht0.table.flatten ++ (d.ht1.delete (hash k) k).table.flatten))
      m := h.stores.perm ((hperm.append_left _).trans List.perm_middle)
  have hidle : d.rehashidx ≠ none := by
    intro hidle
    rw [h.idle hidle] at hk
    simp [Dictht.lookup, Dictht.chain, Dictht.reset] at hk
  have hbusy : ∀ f : List (κ × ν) → List (κ × ν), ∀ idx, d.rehashidx = some idx →
      d.ht0.table ≠ [] ∧ d.ht1.table.modify (d.ht1.index (hash k)) f ≠ [] ∧
        ∀ j < idx, d.ht0.chain j = [] := by
    intro f idx hidx
    obtain ⟨hne0, hne1, hempty⟩ := h.busy idx hidx
    exact ⟨hne0, by simpa using hne1, hempty⟩
  exact ⟨⟨h.ok0, hdel, fun hnone => absurd hnone hidle, hbusy _, hold.tail⟩,
    fun v' => ⟨h.ok0, hover v', fun hnone => absurd hnone hidle, hbusy _,
      (hold.set v').perm (List.perm_middle.symm.trans ((hpermv v').symm.append_left _))⟩⟩

theorem setExisting (h : Implements hash d m) (hk : (m k).isSome = true) (v : ν) :
    Implements hash (d.setExisting hash k v) (Function.update m k (some v)) := by
  unfold Dict.setExisting
  split
  · rename_i hsome
    obtain ⟨v₀, hv₀⟩ := Option.isSome_iff_exists.mp hsome
    exact (h.change0 hv₀).2 v
  · rename_i hnone
    obtain ⟨v₀, hv₀⟩ := Option.isSome_iff_exists.mp hk
    rw [← h.lookup1 (by simpa using hnone)] at hv₀
    exact (h.change1 hv₀).2 v

/-- It never reads through a `NULL` pointer. -/
theorem dictReplace (h : Implements hash d m) (p : ResizePolicy) (k : κ) (v : ν)
    (hsize : d.dictSize ≤ longMax) :
    ∃ d', Dict.dictReplace hash p d k v = some (d', (m k).isNone) ∧
      Implements hash d' (Function.update m k (some v)) := by
  obtain ⟨hi, hd⟩ := h.dictAddRaw p k v hsize
  unfold Dict.dictReplace
  generalize Dict.dictAddRaw hash p d k v = x at hi hd ⊢
  obtain ⟨d₁, i⟩ := x
  cases hk : m k with
  | some v₀ =>
      simp only [hk, Option.isSome_some, if_true] at hi hd
      subst hi
      exact ⟨_, rfl, hd.setExisting (by simp [hk]) v⟩
  | none =>
      simp only [hk, Option.isSome_none, Bool.false_eq_true, if_false] at hi hd
      subst hi
      exact ⟨_, rfl, hd⟩

theorem unchanged (h : Implements hash d m) (hk : m k = none) :
    Implements hash d (Function.update m k none) := by
  rwa [← hk, Function.update_eq_self]

theorem dictUnlink (h : Implements hash d m) (k : κ) :
    Implements hash (d.dictUnlink hash k).1 (Function.update m k none) ∧
      (d.dictUnlink hash k).2 = m k := by
  unfold Dict.dictUnlink
  split
  · rename_i hsize
    have hnone := h.eq_none_of_dictSize (k := k) (by rw [dictSize, hsize.1, hsize.2])
    exact ⟨h.unchanged hnone, hnone.symm⟩
  have h₁ := h.stepIfRehashing
  dsimp only
  generalize (if d.dictIsRehashing then d.rehashStep hash else d) = d₁ at h₁ ⊢
  have hfind := h₁.search k
  unfold Dict.search at hfind
  split
  · rename_i v hv
    exact ⟨(h₁.change0 hv).1, (h₁.eq_some_of_lookup0 hv).symm⟩
  rename_i hv
  rw [hv] at hfind
  dsimp only at hfind
  split
  · rename_i hidle
    rw [if_pos hidle] at hfind
    exact ⟨h₁.unchanged hfind.symm, hfind⟩
  rename_i hbusy
  rw [if_neg hbusy] at hfind
  split
  · rename_i v hv₁
    exact ⟨(h₁.change1 hv₁).1, hv₁.symm.trans hfind⟩
  · rename_i hv₁
    exact ⟨h₁.unchanged (hfind.symm.trans hv₁), hv₁.symm.trans hfind⟩

end Implements

end Dict

end Wahana
