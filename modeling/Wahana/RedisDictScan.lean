import Wahana.RedisDictRuns
import Wahana.ReverseCounter

/-!
# Scanning a dictionary that changes

`dictScan` returns the entries of one bucket and a cursor for the next call;
it keeps no state, and between two calls tables may be replaced by larger or
smaller ones, or be half moved. The cursor is counted in reversed bits, so
that it is comparable between tables of different sizes: a call that takes
the cursor from `v` to `v'` returns every entry whose hash is passed over on
the way (`Dict.Implements.dictScan`), also where it has to look into both
tables. Hence `scan_returns_all`: a key that is in the dictionary all the
time is returned before the cursor is zero again, whatever else happens
between the calls.
-/

namespace Wahana

open ReverseCounter

/-! ## The cursor -/

/-- The loop of `rev`, in which `s` takes the values `2 ^ k` from `32` down
to `1`. -/
def revLoop : Nat → BitVec 64 → BitVec 64 → BitVec 64
  | 0, _, v => v
  | k + 1, mask, v =>
      let mask := mask ^^^ (mask <<< 2 ^ k)
      revLoop k mask (((v >>> 2 ^ k) &&& mask) ||| ((v <<< 2 ^ k) &&& ~~~mask))

def rev (v : BitVec 64) : BitVec 64 := revLoop 6 (BitVec.allOnes 64) v

/-- `v |= ~m; v = rev(v); v++; v = rev(v)` -/
def nextCursor (m v : BitVec 64) : BitVec 64 := rev (rev (v ||| ~~~m) + 1#64)

/-- A round of the loop exchanges the bits whose positions differ in bit
`k`. -/
theorem getLsbD_exchange {mask : BitVec 64} {k : Nat} (hk : k < 6)
    (hmask : ∀ i < 64, mask.getLsbD i = !i.testBit k) (v : BitVec 64) {i : Nat} (hi : i < 64) :
    (((v >>> 2 ^ k) &&& mask) ||| ((v <<< 2 ^ k) &&& ~~~mask)).getLsbD i =
      v.getLsbD (i ^^^ 2 ^ k) := by
  have hxor : ∀ k < 6, ∀ i < 64, if i.testBit k then 2 ^ k ≤ i ∧ i ^^^ 2 ^ k = i - 2 ^ k
      else i ^^^ 2 ^ k = 2 ^ k + i := by decide +kernel
  have hx := hxor k hk i hi
  rw [BitVec.getLsbD_or, BitVec.getLsbD_and, BitVec.getLsbD_and, BitVec.getLsbD_not,
    BitVec.getLsbD_ushiftRight, BitVec.getLsbD_shiftLeft, hmask i hi]
  split at hx
  · rename_i hbit
    have hnot : ¬ i < 2 ^ k := by omega
    simp [hbit, hi, hx.2, hnot]
  · rename_i hbit
    simp [hbit, hx]

/-- The masks that the loop computes, by the number of rounds still to
come. -/
def exchangeMask : Nat → BitVec 64
  | 0 => 0x5555555555555555#64
  | 1 => 0x3333333333333333#64
  | 2 => 0x0f0f0f0f0f0f0f0f#64
  | 3 => 0x00ff00ff00ff00ff#64
  | 4 => 0x0000ffff0000ffff#64
  | 5 => 0x00000000ffffffff#64
  | _ => BitVec.allOnes 64

theorem getLsbD_revLoop : ∀ {k : Nat} (v : BitVec 64) {i : Nat}, k ≤ 6 → i < 64 →
    (revLoop k (exchangeMask k) v).getLsbD i = v.getLsbD (i ^^^ (2 ^ k - 1))
  | 0, v, i, _, _ => by simp [revLoop]
  | k + 1, v, i, hk, hi => by
      have hmasks : ∀ k < 6, exchangeMask (k + 1) ^^^ (exchangeMask (k + 1) <<< 2 ^ k) =
          exchangeMask k := by decide +kernel
      have hbits : ∀ k < 6, ∀ i < 64, (exchangeMask k).getLsbD i = !i.testBit k := by
        decide +kernel
      have hones : ∀ k < 6, (2 ^ k - 1) ^^^ 2 ^ k = 2 ^ (k + 1) - 1 := by decide
      have hlt : i ^^^ (2 ^ k - 1) < 2 ^ 6 := Nat.xor_lt_two_pow hi
        (Nat.lt_of_lt_of_le (Nat.sub_lt (Nat.two_pow_pos k) Nat.one_pos)
          (Nat.pow_le_pow_right (by omega) (by omega)))
      rw [revLoop, hmasks k (by omega), getLsbD_revLoop _ (by omega) hi,
        getLsbD_exchange (by omega) (hbits k (by omega)) v hlt, Nat.xor_assoc, hones k (by omega)]

theorem rev_eq_reverse (v : BitVec 64) : rev v = v.reverse := by
  apply BitVec.eq_of_getLsbD_eq
  intro i hi
  have hmirror : ∀ i < 64, i ^^^ (2 ^ 6 - 1) = 63 - i := by decide +kernel
  rw [rev, show BitVec.allOnes 64 = exchangeMask 6 from rfl, getLsbD_revLoop v (le_refl 6) hi,
    hmirror i hi, BitVec.getLsbD_reverse, BitVec.getMsbD_eq_getLsbD]
  simp [hi]

theorem nextCursor_eq (m v : BitVec 64) : nextCursor m v = advance m v := by
  rw [nextCursor, rev_eq_reverse, rev_eq_reverse, advance]

/-! ## One call -/

section

variable {κ ν : Type}

/-- The loop over the larger table. It ends before it has seen the whole
table, so that its size is enough for the number of rounds. -/
def scanLoop (t1 : Dictht κ ν) (m0 m1 : BitVec 64) :
    Nat → BitVec 64 → List (κ × ν) × BitVec 64
  | 0, v => ([], v)
  | rounds + 1, v =>
      let next := nextCursor m1 v
      if next &&& (m0 ^^^ m1) = 0#64 then (t1.chain (t1.index v), next)
      else
        let (out, v') := scanLoop t1 m0 m1 rounds next
        (t1.chain (t1.index v) ++ out, v')

def Dictht.mask (t : Dictht κ ν) : BitVec 64 := BitVec.ofNat 64 t.sizemask

/-- The entries `fn` is called with, and the new cursor. -/
def Dict.dictScan (d : Dict κ ν) (v : BitVec 64) : List (κ × ν) × BitVec 64 :=
  if d.dictSize = 0 then ([], 0#64)
  else if !d.dictIsRehashing then
    (d.ht0.chain (d.ht0.index v), nextCursor d.ht0.mask v)
  else
    let (t0, t1) := if d.ht0.size > d.ht1.size then (d.ht1, d.ht0) else (d.ht0, d.ht1)
    let (out, v') := scanLoop t1 t0.mask t1.mask t1.size v
    (t0.chain (t0.index v) ++ out, v')

variable {hash : κ → BitVec 64} {t t0 t1 : Dictht κ ν} {n n0 n1 : Nat} {v h : BitVec 64}

theorem Dictht.toNat_mask (hn : n ≤ 63) (ht : t.size = 2 ^ n) : t.mask.toNat = 2 ^ n - 1 := by
  have hlt : 2 ^ n < 2 ^ 64 := Nat.pow_lt_pow_right (by omega) (by omega)
  rw [mask, sizemask, ht, BitVec.toNat_ofNat, Nat.mod_eq_of_lt (by omega)]

theorem Dictht.index_eq (ht : t.size = 2 ^ n) (h : BitVec 64) : t.index h = h.toNat % 2 ^ n := by
  rw [index, sizemask, ht, Nat.and_two_pow_sub_one_eq_mod]

/-- An entry whose hash agrees with the cursor is in the chain there. -/
theorem Dictht.Ok.mem_chain_of_mod (hok : t.Ok hash) (ht : t.size = 2 ^ n) {k : κ} {val : ν}
    (hin : (k, val) ∈ t.table.flatten) (hmod : (hash k).toNat % 2 ^ n = v.toNat % 2 ^ n) :
    (k, val) ∈ t.chain (t.index v) := by
  have hchain := hok.mem_chain.mpr hin
  rwa [index_eq ht, hmod, ← index_eq ht] at hchain

/-- What lies between the cursors `v` and `v'`, where zero is the end. -/
def Passed (v v' h : BitVec 64) : Prop := rank v ≤ rank h ∧ (v' = 0#64 ∨ rank h < rank v')

theorem not_passed_self (hv : v ≠ 0#64) : ¬ Passed v v h := by
  rintro ⟨hle, hzero | hlt⟩
  · exact hv hzero
  · omega

/-- What is passed on the way over `u` is passed before or after. -/
theorem Passed.split {u v' : BitVec 64} (hpass : Passed v v' h) :
    Passed v u h ∨ Passed u v' h := by
  by_cases hlt : rank h < rank u
  · exact .inl ⟨hpass.1, .inr hlt⟩
  · exact .inr ⟨by omega, hpass.2⟩

theorem mod_of_passed (hn : n ≤ 63) (ht : t.size = 2 ^ n)
    (hpass : Passed v (nextCursor t.mask v) h) : h.toNat % 2 ^ n = v.toNat % 2 ^ n := by
  rw [nextCursor_eq] at hpass
  exact mod_eq_of_passed (by omega) (Dictht.toNat_mask hn ht) hpass.1 hpass.2

theorem mod_mod_of_le {a b : Nat} (hn : n0 ≤ n1) (h : a % 2 ^ n1 = b % 2 ^ n1) :
    a % 2 ^ n0 = b % 2 ^ n0 := by
  have hdvd : 2 ^ n0 ∣ 2 ^ n1 := Nat.pow_dvd_pow 2 hn
  rw [← Nat.mod_mod_of_dvd a hdvd, h, Nat.mod_mod_of_dvd b hdvd]

/-- The loop over the larger table stays in the bucket of the smaller one,
and returns all that it passes. -/
theorem scanLoop_passed (hn0 : n0 ≤ n1) (hn1 : n1 ≤ 63) (ht0 : t0.size = 2 ^ n0)
    (ht1 : t1.size = 2 ^ n1) (hok : t1.Ok hash) {k : κ} (rounds : Nat) (v : BitVec 64)
    (hv : rounds ≠ 0 ∨ v ≠ 0#64)
    (hpass : Passed v (scanLoop t1 t0.mask t1.mask rounds v).2 (hash k)) :
    (hash k).toNat % 2 ^ n0 = v.toNat % 2 ^ n0 ∧ ∀ val, (k, val) ∈ t1.table.flatten →
      (k, val) ∈ (scanLoop t1 t0.mask t1.mask rounds v).1 := by
  induction rounds generalizing v with
  | zero => exact absurd hpass (not_passed_self (hv.resolve_left fun hne => hne rfl))
  | succ rounds ih =>
      -- the round itself returns what it passes
      have hround : Passed v (nextCursor t1.mask v) (hash k) →
          (hash k).toNat % 2 ^ n0 = v.toNat % 2 ^ n0 ∧ ∀ val, (k, val) ∈ t1.table.flatten →
            (k, val) ∈ t1.chain (t1.index v) := by
        intro hpass
        have hmod := mod_of_passed hn1 ht1 hpass
        exact ⟨mod_mod_of_le hn0 hmod, fun val hin => hok.mem_chain_of_mod ht1 hin hmod⟩
      rw [scanLoop] at hpass ⊢
      dsimp only at hpass ⊢
      split at hpass
      · rename_i hend
        rw [if_pos hend]
        exact hround hpass
      · rename_i hmore
        rw [if_neg hmore]
        have hne : nextCursor t1.mask v ≠ 0#64 := by
          intro hzero
          rw [hzero] at hmore
          exact hmore (BitVec.zero_and)
        have hmod : (nextCursor t1.mask v).toNat % 2 ^ n0 = v.toNat % 2 ^ n0 := by
          rw [nextCursor_eq] at hmore ⊢
          have hm1 := Dictht.toNat_mask hn1 ht1
          rw [and_xor_eq_zero_iff hn0 (by omega) (Dictht.toNat_mask (by omega) ht0) hm1
            (dvd_rank_advance (by omega) hm1)] at hmore
          exact mod_advance hn0 (by omega) hm1 hmore
        rcases hpass.split (u := nextCursor t1.mask v) with hfirst | hlater
        · obtain ⟨hb, hin⟩ := hround hfirst
          exact ⟨hb, fun val hval => List.mem_append_left _ (hin val hval)⟩
        · obtain ⟨hb, hin⟩ := ih _ (.inr hne) hlater
          exact ⟨hb.trans hmod, fun val hval => List.mem_append_right _ (hin val hval)⟩

/-- The loop goes on, and the size of the table is enough for it to end: the
cursor is then at the start of a bucket of the smaller table. -/
theorem scanLoop_ends (hn0 : n0 ≤ n1) (hn1 : n1 ≤ 63) (ht0 : t0.size = 2 ^ n0)
    (ht1 : t1.size = 2 ^ n1) (rounds : Nat) (v : BitVec 64)
    (hrounds : 2 ^ (n1 - n0) ≤ rounds + rank v / 2 ^ (64 - n1) % 2 ^ (n1 - n0)) :
    2 ^ (64 - n0) ∣ rank (scanLoop t1 t0.mask t1.mask rounds v).2 ∧
      ((scanLoop t1 t0.mask t1.mask rounds v).2 = 0#64 ∨
        rank v < rank (scanLoop t1 t0.mask t1.mask rounds v).2) := by
  have hm1 := Dictht.toNat_mask hn1 ht1
  have hmask : ∀ v, nextCursor t1.mask v &&& (t0.mask ^^^ t1.mask) = 0#64 ↔
      2 ^ (64 - n0) ∣ rank (nextCursor t1.mask v) := by
    intro v
    rw [nextCursor_eq]
    exact and_xor_eq_zero_iff hn0 (by omega) (Dictht.toNat_mask (by omega) ht0) hm1
      (dvd_rank_advance (by omega) hm1)
  induction rounds generalizing v with
  | zero =>
      have hlt := Nat.mod_lt (rank v / 2 ^ (64 - n1)) (Nat.two_pow_pos (n1 - n0))
      omega
  | succ rounds ih =>
      have hon := rank_lt_advance (v := v) (by omega) hm1
      rw [← nextCursor_eq] at hon
      rw [scanLoop]
      dsimp only
      split
      · rename_i hend
        exact ⟨(hmask v).mp hend, hon⟩
      · rename_i hmore
        have hnot := fun hdvd => hmore ((hmask v).mpr hdvd)
        have hblock := block_advance (v := v) hn0 (by omega) hm1 (by rwa [← nextCursor_eq])
        rw [← nextCursor_eq] at hblock
        obtain ⟨hdvd, hlater⟩ := ih (nextCursor t1.mask v) (by omega)
        refine ⟨hdvd, hlater.imp_right fun hlt => ?_⟩
        rcases hon with hzero | hon
        · rw [hzero, rank_zero] at hnot
          exact absurd (Nat.dvd_zero _) hnot
        · exact hon.trans hlt

theorem Dictht.Ok.exists_size (hok : t.Ok hash) (hne : t.table ≠ []) :
    ∃ n ≤ 63, t.size = 2 ^ n :=
  hok.size.resolve_left hne

/-- The buckets that the cursor counts. -/
def Dict.scanSize (d : Dict κ ν) : Nat :=
  if d.dictIsRehashing then min d.ht0.size d.ht1.size else d.ht0.size

/-- What a call from `v` does. -/
structure Scans (hash : κ → BitVec 64) (d : Dict κ ν) (v : BitVec 64)
    (r : List (κ × ν) × BitVec 64) : Prop where
  returns : ∀ k val, (k, val) ∈ d.entries → Passed v r.2 (hash k) → (k, val) ∈ r.1
  forth : r.2 = 0#64 ∨ rank v < rank r.2
  aligned : ∀ n ≤ 64, d.scanSize ≤ 2 ^ n → 2 ^ (64 - n) ∣ rank r.2

theorem dvd_of_size_le {size x : Nat} (hsize : size = 2 ^ n0) (hdvd : 2 ^ (64 - n0) ∣ x) :
    ∀ n ≤ 64, size ≤ 2 ^ n → 2 ^ (64 - n) ∣ x := by
  intro n _ hle
  rw [hsize] at hle
  have hn : n0 ≤ n := (Nat.pow_le_pow_iff_right (by omega)).mp hle
  exact (Nat.pow_dvd_pow 2 (by omega)).trans hdvd

theorem scans_one {d : Dict κ ν} (hok : t.Ok hash) (hne : t.table ≠ [])
    (hsize : d.scanSize = t.size) (hentries : ∀ e ∈ d.entries, e ∈ t.table.flatten)
    (v : BitVec 64) : Scans hash d v (t.chain (t.index v), nextCursor t.mask v) := by
  obtain ⟨n, hn, ht⟩ := hok.exists_size hne
  have hm := Dictht.toNat_mask hn ht
  refine ⟨fun k val hin hpass => ?_, ?_, dvd_of_size_le (hsize.trans ht) ?_⟩
  · exact hok.mem_chain_of_mod ht (hentries _ hin) (mod_of_passed hn ht hpass)
  · rw [nextCursor_eq]
    exact rank_lt_advance (by omega) hm
  · rw [nextCursor_eq]
    exact dvd_rank_advance (by omega) hm

theorem scans_two {d : Dict κ ν} (hok0 : t0.Ok hash) (hok1 : t1.Ok hash)
    (hne0 : t0.table ≠ []) (hne1 : t1.table ≠ []) (hle : t0.size ≤ t1.size)
    (hsize : d.scanSize = t0.size)
    (hentries : ∀ e ∈ d.entries, e ∈ t0.table.flatten ∨ e ∈ t1.table.flatten) (v : BitVec 64) :
    Scans hash d v (t0.chain (t0.index v) ++ (scanLoop t1 t0.mask t1.mask t1.size v).1,
      (scanLoop t1 t0.mask t1.mask t1.size v).2) := by
  obtain ⟨n0, hn0, ht0⟩ := hok0.exists_size hne0
  obtain ⟨n1, hn1, ht1⟩ := hok1.exists_size hne1
  have h01 : n0 ≤ n1 := by
    rw [ht0, ht1] at hle
    exact (Nat.pow_le_pow_iff_right (by omega)).mp hle
  have hpos : t1.size ≠ 0 := by
    rw [ht1]
    exact (Nat.two_pow_pos n1).ne'
  have hrounds : 2 ^ (n1 - n0) ≤ t1.size + rank v / 2 ^ (64 - n1) % 2 ^ (n1 - n0) := by
    have hpow : 2 ^ (n1 - n0) ≤ 2 ^ n1 := Nat.pow_le_pow_right (by omega) (by omega)
    omega
  obtain ⟨hdvd, hforth⟩ := scanLoop_ends h01 hn1 ht0 ht1 t1.size v hrounds
  refine ⟨fun k val hin hpass => ?_, hforth, dvd_of_size_le (hsize.trans ht0) hdvd⟩
  obtain ⟨hmod, hloop⟩ := scanLoop_passed h01 hn1 ht0 ht1 hok1 t1.size v (.inl hpos) hpass
  rcases hentries _ hin with hin | hin
  · exact List.mem_append_left _ (hok0.mem_chain_of_mod ht0 hin hmod)
  · exact List.mem_append_right _ (hloop val hin)

theorem Dict.Implements.dictScan {d : Dict κ ν} {m : κ → Option ν} (h : Implements hash d m)
    (v : BitVec 64) : Scans hash d v (d.dictScan v) := by
  unfold Dict.dictScan
  split
  · rename_i hsize
    have hnil : d.entries = [] := List.length_eq_zero_iff.mp (h.length_entries.symm.trans hsize)
    refine ⟨fun k val hin => ?_, .inl rfl, fun n _ _ => ?_⟩
    · rw [hnil] at hin
      cases hin
    · rw [rank_zero]
      exact Nat.dvd_zero _
  rename_i hsize
  cases hidx : d.rehashidx with
  | none =>
      have hidle : d.dictIsRehashing = false := by simp [dictIsRehashing, hidx]
      have hreset := h.idle hidx
      have hne : d.ht0.table ≠ [] := by
        intro hnil
        apply hsize
        rw [h.length_entries, entries, hnil, hreset]
        rfl
      rw [if_pos (by simp [hidle])]
      refine scans_one h.ok0 hne (by simp [scanSize, hidle]) ?_ v
      intro e he
      simpa [entries, hreset, Dictht.reset] using he
  | some idx =>
      have hbusy : d.dictIsRehashing = true := by simp [dictIsRehashing, hidx]
      obtain ⟨hne0, hne1, -⟩ := h.busy idx hidx
      rw [if_neg (by simp [hbusy])]
      have hsize : d.scanSize = min d.ht0.size d.ht1.size := by simp [scanSize, hbusy]
      by_cases hgt : d.ht0.size > d.ht1.size
      · rw [if_pos hgt]
        exact scans_two h.ok1 h.ok0 hne1 hne0 (by omega) (by omega)
          (fun e he => (List.mem_append.mp he).symm) v
      · rw [if_neg hgt]
        exact scans_two h.ok0 h.ok1 hne0 hne1 (by omega) (by omega)
          (fun e he => List.mem_append.mp he) v

end

/-! ## Whole scans -/

section

variable {κ ν : Type}

theorem map_snd_ne {k : κ} {ops : List (ResizePolicy × DictOp κ ν)}
    (h : ∀ e ∈ ops, e.2 ≠ .unlink k) : ∀ op ∈ ops.map Prod.snd, op ≠ .unlink k := by
  intro op hop
  obtain ⟨e, he, rfl⟩ := List.mem_map.mp hop
  exact h e he

variable [DecidableEq κ]

/-- A scan in which before each call some operations take place. It ends
when the cursor is zero. -/
def Dict.scanDuring (hash : κ → BitVec 64) (d : Dict κ ν) (v : BitVec 64) :
    List (List (ResizePolicy × DictOp κ ν)) → List (κ × ν) × BitVec 64
  | [] => ([], v)
  | ops :: batches =>
      let d := (d.run hash ops).1
      let (out, v) := d.dictScan v
      if v = 0#64 then (out, v)
      else
        let (out', v) := Dict.scanDuring hash d v batches
        (out ++ out', v)

variable {hash : κ → BitVec 64} {d : Dict κ ν} {m : κ → Option ν} {k : κ}

theorem onMap_isSome {op : DictOp κ ν} (hop : op ≠ .unlink k) (hk : (m k).isSome = true) :
    ((op.onMap m).1 k).isSome = true := by
  have hupdate : ∀ key val, (Function.update m key (some val) k).isSome = true := by
    intro key val
    by_cases hkey : k = key
    · rw [hkey, Function.update_self]
      rfl
    · rwa [Function.update_of_ne hkey]
  cases op with
  | add key val =>
      rw [DictOp.onMap]
      split
      · exact hk
      · exact hupdate key val
  | replace key val => exact hupdate key val
  | unlink key =>
      have hkey : k ≠ key := fun heq => hop (by rw [heq])
      show (Function.update m key none k).isSome = true
      rwa [Function.update_of_ne hkey]
  | _ => exact hk

theorem runOnMap_isSome : ∀ {ops : List (DictOp κ ν)} {m : κ → Option ν},
    (∀ op ∈ ops, op ≠ .unlink k) → (m k).isSome = true → ((runOnMap m ops).1 k).isSome = true
  | [], _, _, hk => hk
  | op :: ops, _, hops, hk => by
      have hlater : ∀ op' ∈ ops, op' ≠ .unlink k := fun op' hop' =>
        hops op' (List.mem_cons_of_mem op hop')
      have hrun := runOnMap_isSome hlater (onMap_isSome (hops op List.mem_cons_self) hk)
      exact hrun

/-- From a cursor that has not passed the key, the scan returns it. -/
theorem Dict.Implements.scanDuring (batches : List (List (ResizePolicy × DictOp κ ν)))
    {v : BitVec 64} (h : Implements hash d m)
    (hsize : d.dictSize + batches.flatten.length ≤ longMax + 1) (hk : (m k).isSome = true)
    (hkeep : ∀ e ∈ batches.flatten, e.2 ≠ .unlink k) (hrank : rank v ≤ rank (hash k))
    (hv : batches ≠ [] ∨ v ≠ 0#64) (hend : (d.scanDuring hash v batches).2 = 0#64) :
    k ∈ (d.scanDuring hash v batches).1.map Prod.fst := by
  induction batches generalizing d m v with
  | nil => exact absurd hend (hv.resolve_left fun hne => hne rfl)
  | cons ops batches ih =>
      rw [List.flatten_cons, List.length_append] at hsize
      rw [List.flatten_cons] at hkeep
      have hkeep₁ : ∀ e ∈ ops, e.2 ≠ .unlink k := fun e he => hkeep e (List.mem_append_left _ he)
      obtain ⟨h₁, -⟩ := h.run ops (by omega)
      have hsize₁ := h.dictSize_run ops (by omega)
      have hk₁ := runOnMap_isSome (map_snd_ne hkeep₁) hk
      obtain ⟨val, hval⟩ := Option.isSome_iff_exists.mp hk₁
      have hin := (h₁.stores.mem_iff k val).mpr hval
      have hscan := h₁.dictScan v
      unfold Dict.scanDuring at hend ⊢
      generalize (d.run hash ops).1 = d₁ at h₁ hsize₁ hin hscan hend ⊢
      dsimp only at hend ⊢
      split
      · rename_i hzero
        exact List.mem_map.mpr ⟨(k, val), hscan.returns k val hin ⟨hrank, .inl hzero⟩, rfl⟩
      · rename_i hne
        rw [if_neg hne] at hend
        rw [List.map_append, List.mem_append]
        by_cases hlt : rank (hash k) < rank (d₁.dictScan v).2
        · exact .inl (List.mem_map.mpr ⟨(k, val), hscan.returns k val hin ⟨hrank, .inr hlt⟩, rfl⟩)
        · exact .inr (ih h₁ (by omega) hk₁
            (fun e he => hkeep e (List.mem_append_right _ he)) (by omega) (.inr hne) hend)

/-- **A scan misses nothing that stays.** A dictionary is built by any
operations and scanned from cursor zero until the cursor is zero again, with
any operations before every call. A key that is there at the start and is
not deleted is returned. -/
theorem scan_returns_all (hash : κ → BitVec 64) (ops : List (ResizePolicy × DictOp κ ν))
    (batches : List (List (ResizePolicy × DictOp κ ν))) (k : κ)
    (hlength : ops.length + batches.flatten.length < maxBuckets)
    (hk : ((runOnMap (fun _ => none) (ops.map Prod.snd)).1 k).isSome = true)
    (hkeep : ∀ e ∈ batches.flatten, e.2 ≠ .unlink k) (hbatches : batches ≠ [])
    (hend : ((Dict.dictCreate.run hash ops).1.scanDuring hash 0#64 batches).2 = 0#64) :
    k ∈ ((Dict.dictCreate.run hash ops).1.scanDuring hash 0#64 batches).1.map Prod.fst := by
  have hmax : maxBuckets < longMax := by decide
  have hops : ops.length ≤ longMax := by omega
  obtain ⟨h, hsize, -⟩ := Dict.implements_run hash hops
  exact h.scanDuring batches (by omega) hk hkeep (by rw [rank_zero]; omega) (.inl hbatches) hend

/-! ## How long a scan takes -/

theorem Dict.Implements.scanDuring_ends {n : Nat} (hn : n ≤ 64)
    (batches : List (List (ResizePolicy × DictOp κ ν))) {v : BitVec 64} (h : Implements hash d m)
    (hsize : d.dictSize + batches.flatten.length ≤ longMax + 1)
    (htables : ∀ i < batches.length,
      (d.run hash (batches.take (i + 1)).flatten).1.scanSize ≤ 2 ^ n)
    (hv : 2 ^ (64 - n) ∣ rank v) (hcalls : 2 ^ n ≤ batches.length + rank v / 2 ^ (64 - n)) :
    (d.scanDuring hash v batches).2 = 0#64 := by
  have hD := Nat.two_pow_pos (64 - n)
  induction batches generalizing d m v with
  | nil =>
      have hlt : rank v / 2 ^ (64 - n) < 2 ^ n := by
        rw [Nat.div_lt_iff_lt_mul hD, ← Nat.pow_add, show n + (64 - n) = 64 by omega]
        exact rank_lt v
      rw [List.length_nil] at hcalls
      omega
  | cons ops batches ih =>
      rw [List.flatten_cons, List.length_append] at hsize
      obtain ⟨h₁, -⟩ := h.run ops (by omega)
      have hsize₁ := h.dictSize_run ops (by omega)
      have hscan := h₁.dictScan v
      have htable₁ : (d.run hash ops).1.scanSize ≤ 2 ^ n := by
        simpa using htables 0 (by simp)
      have hlater : ∀ i < batches.length,
          ((d.run hash ops).1.run hash (batches.take (i + 1)).flatten).1.scanSize ≤ 2 ^ n := by
        intro i hi
        rw [← Dict.run_append]
        exact htables (i + 1) (by simpa using hi)
      unfold Dict.scanDuring
      generalize (d.run hash ops).1 = d₁ at h₁ hsize₁ hscan htable₁ hlater ⊢
      dsimp only
      split
      · assumption
      · rename_i hne
        have hdvd := hscan.aligned n hn htable₁
        refine ih h₁ (by omega) hlater hdvd ?_
        -- both cursors are at the start of a block, so the later one is a block ahead
        obtain ⟨q, hq⟩ := hv
        obtain ⟨q₁, hq₁⟩ := hdvd
        have hforth := hscan.forth.resolve_left hne
        rw [hq, hq₁] at hforth
        have hlt := Nat.lt_of_mul_lt_mul_left hforth
        rw [hq, Nat.mul_div_cancel_left _ hD, List.length_cons] at hcalls
        rw [hq₁, Nat.mul_div_cancel_left _ hD]
        omega

/-- **A scan ends.** It takes at most as many calls as the table has had
buckets, where of two tables the smaller one counts. -/
theorem scan_ends (hash : κ → BitVec 64) (ops : List (ResizePolicy × DictOp κ ν))
    (batches : List (List (ResizePolicy × DictOp κ ν))) {n : Nat} (hn : n ≤ 64)
    (hlength : ops.length + batches.flatten.length < maxBuckets)
    (htables : ∀ i < batches.length,
      (Dict.dictCreate.run hash (ops ++ (batches.take (i + 1)).flatten)).1.scanSize ≤ 2 ^ n)
    (hcalls : 2 ^ n ≤ batches.length) :
    ((Dict.dictCreate.run hash ops).1.scanDuring hash 0#64 batches).2 = 0#64 := by
  have hmax : maxBuckets < longMax := by decide
  have hops : ops.length ≤ longMax := by omega
  obtain ⟨h, hsize, -⟩ := Dict.implements_run hash hops
  refine h.scanDuring_ends hn batches (by omega) (fun i hi => ?_) ?_
    (hcalls.trans (Nat.le_add_right ..))
  · rw [← Dict.run_append]
    exact htables i hi
  · rw [rank_zero]
    exact Nat.dvd_zero _

end

def byNumber (n : Nat) : BitVec 64 := BitVec.ofNat 64 n

def added (ns : List Nat) : List (ResizePolicy × DictOp Nat Nat) :=
  ns.map fun n => (⟨true, true⟩, .add n (10 * n))

/-- Four buckets are scanned, and after the first call four more keys make
the table grow. -/
def growing : List (List (ResizePolicy × DictOp Nat Nat)) :=
  [[], added [5, 6, 7, 8], [], [(⟨true, true⟩, .find 0)], [], [], [], []]

theorem growing_returns_three :
    3 ∈ ((Dict.dictCreate.run byNumber (added [0, 1, 2, 3])).1.scanDuring byNumber 0#64
      growing).1.map Prod.fst :=
  scan_returns_all byNumber (added [0, 1, 2, 3]) growing 3 (by decide) (by decide) (by decide)
    (by decide) (by decide +kernel)

theorem growing_ends :
    ((Dict.dictCreate.run byNumber (added [0, 1, 2, 3])).1.scanDuring byNumber 0#64
      growing).2 = 0#64 :=
  scan_ends byNumber (added [0, 1, 2, 3]) growing (n := 3) (by decide) (by decide)
    (by decide +kernel) (by decide)

end Wahana
