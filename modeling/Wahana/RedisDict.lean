import Mathlib.Algebra.Group.Nat.Defs
import Wahana.Buckets

/-!
# The hash table of Redis

`dict.c` keeps a dictionary in two tables. When the first gets full, a larger
second one is allocated and the buckets are moved over a few at a time, one
step with each operation; until the last bucket has moved, a key may be in
either table. The functions below follow the source; chains are lists, a
table without memory is the empty list of buckets, and `rehashidx` is `none`
for `-1`. The hash function is a parameter, and so is what `dict_can_resize`
and the type's `expandAllowed` say at each operation.
-/

namespace Wahana

/-! ## Tables -/

structure Dictht (κ ν : Type) where
  table : List (List (κ × ν))
  used : Nat
  deriving DecidableEq, Repr

namespace Dictht

variable {κ ν : Type}

/-- `_dictReset` -/
def reset : Dictht κ ν := ⟨[], 0⟩

def size (t : Dictht κ ν) : Nat := t.table.length

def sizemask (t : Dictht κ ν) : Nat := t.size - 1

/-- A new table, all pointers `NULL`. -/
def alloc (size : Nat) : Dictht κ ν := ⟨List.replicate size [], 0⟩

def index (t : Dictht κ ν) (h : BitVec 64) : Nat := h.toNat &&& t.sizemask

/-- The chain at an index; reading outside of the table is not defined in
the source, and empty here. -/
def chain (t : Dictht κ ν) (i : Nat) : List (κ × ν) := t.table[i]?.getD []

/-- A new entry goes to the front of its chain. -/
def push (t : Dictht κ ν) (h : BitVec 64) (e : κ × ν) : Dictht κ ν :=
  ⟨t.table.modify (t.index h) (e :: ·), t.used + 1⟩

variable [DecidableEq κ]

def delete (t : Dictht κ ν) (h : BitVec 64) (key : κ) : Dictht κ ν :=
  ⟨t.table.modify (t.index h) (unlink key), t.used - 1⟩

def overwrite (t : Dictht κ ν) (h : BitVec 64) (key : κ) (val : ν) : Dictht κ ν :=
  ⟨t.table.modify (t.index h) (setVal key val), t.used⟩

def lookup (t : Dictht κ ν) (h : BitVec 64) (key : κ) : Option ν :=
  (t.chain (t.index h)).lookup key

end Dictht

/-! ## Dictionaries -/

/-- `pauserehash` is an `int16_t` in the source, which a caller that pauses
more than 32767 times in a row would overflow; here it is any integer. -/
structure Dict (κ ν : Type) where
  ht0 : Dictht κ ν
  ht1 : Dictht κ ν
  rehashidx : Option Nat
  pauserehash : Int
  deriving DecidableEq, Repr

/-- What the globals and the type of a dictionary allow. -/
structure ResizePolicy where
  canResize : Bool
  expandAllowed : Bool
  deriving DecidableEq, Repr

def longMax : Nat := 2 ^ 63 - 1

/-- The largest table whose pointers, of eight bytes each, can be counted in
64 bits. -/
def maxBuckets : Nat := 2 ^ 60

/-- The loop of `_dictNextPower`; from `4`, sixty-one rounds reach any
`long`. -/
def nextPowerFrom : Nat → Nat → Nat → Nat
  | 0, i, _ => i
  | rounds + 1, i, size => if i ≥ size then i else nextPowerFrom rounds (i * 2) size

def dictNextPower (size : Nat) : Nat :=
  if size ≥ longMax then longMax + 1 else nextPowerFrom 61 4 size

namespace Dict

variable {κ ν : Type}

def dictCreate : Dict κ ν := ⟨.reset, .reset, none, 0⟩

def dictIsRehashing (d : Dict κ ν) : Bool := d.rehashidx.isSome

def dictSize (d : Dict κ ν) : Nat := d.ht0.used + d.ht1.used

/-- `none` for `DICT_ERR`. The source allocates `realsize*sizeof(dictEntry*)`
bytes without a check, so that for a size above `maxBuckets` the table is too
short for its mask; callers of `DictOp.expand` stay below, and a dictionary
with fewer than `maxBuckets` entries does by itself (`Dict.fits_run`). -/
def dictExpand (d : Dict κ ν) (size : Nat) : Option (Dict κ ν) :=
  if d.dictIsRehashing || d.ht0.used > size then none
  else if dictNextPower size = d.ht0.size then none
  else if d.ht0.table = [] then some { d with ht0 := .alloc (dictNextPower size) }
  else some { d with ht1 := .alloc (dictNextPower size), rehashidx := some 0 }

def dictResize (p : ResizePolicy) (d : Dict κ ν) : Option (Dict κ ν) :=
  if !p.canResize || d.dictIsRehashing then none
  else d.dictExpand (max d.ht0.used 4)

/-- The inner loop of `dictRehash`: the first bucket that is not empty, and
the visits that are left; none are left where the function returns. -/
def skipEmpty (table : List (List (κ × ν))) : Nat → Nat → Nat × Nat
  | 0, idx => (idx, 0)
  | visits + 1, idx =>
      match table[idx]? with
      | some [] => skipEmpty table visits (idx + 1)
      | _ => (idx, visits + 1)

section

variable (hash : κ → BitVec 64)

/-- Moves the bucket at `idx` to the second table. -/
def moveBucket (d : Dict κ ν) (idx : Nat) : Dict κ ν :=
  { d with
    ht0 := ⟨d.ht0.table.modify idx fun _ => [], d.ht0.used - (d.ht0.chain idx).length⟩
    ht1 := (d.ht0.chain idx).foldl (fun t e => t.push (hash e.1) e) d.ht1
    rehashidx := some (idx + 1) }

/-- The outer loop of `dictRehash`. -/
def rehashLoop : Nat → Nat → Nat → Dict κ ν → Dict κ ν
  | 0, _, idx, d => { d with rehashidx := some idx }
  | n + 1, visits, idx, d =>
      if d.ht0.used = 0 then { d with rehashidx := some idx }
      else
        match skipEmpty d.ht0.table visits idx with
        | (idx, 0) => { d with rehashidx := some idx }
        | (idx, visits) => rehashLoop n visits (idx + 1) (d.moveBucket hash idx)

/-- The end of `dictRehash`: the second table takes the place of the first
when nothing is left there. -/
def finishRehash (d : Dict κ ν) : Dict κ ν :=
  if d.ht0.used = 0 then { d with ht0 := d.ht1, ht1 := .reset, rehashidx := none } else d

/-- It returns whether there is more to rehash, that is `dictIsRehashing`
afterwards. -/
def dictRehash (d : Dict κ ν) (n : Nat) : Dict κ ν :=
  match d.rehashidx with
  | none => d
  | some idx => (rehashLoop hash n (n * 10) idx d).finishRehash

/-- `dictRehashMilliseconds`, in which the clock leaves time for so many
rounds of a hundred. -/
def dictRehashRounds : Nat → Dict κ ν → Dict κ ν
  | 0, d => d
  | rounds + 1, d =>
      if (d.dictRehash hash 100).dictIsRehashing then dictRehashRounds rounds (d.dictRehash hash 100)
      else d.dictRehash hash 100

def dictRehashMilliseconds (rounds : Nat) (d : Dict κ ν) : Dict κ ν :=
  if d.pauserehash > 0 then d else dictRehashRounds hash rounds d

/-- `_dictRehashStep` -/
def rehashStep (d : Dict κ ν) : Dict κ ν :=
  if d.pauserehash = 0 then d.dictRehash hash 1 else d

variable [DecidableEq κ]

/-- The search for a key in one or both tables, as in `dictFind`. -/
def search (d : Dict κ ν) (key : κ) : Option ν :=
  match d.ht0.lookup (hash key) key with
  | some val => some val
  | none => if !d.dictIsRehashing then none else d.ht1.lookup (hash key) key

def dictFind (d : Dict κ ν) (key : κ) : Dict κ ν × Option ν :=
  if d.dictSize = 0 then (d, none)
  else
    let d := if d.dictIsRehashing then d.rehashStep hash else d
    (d, d.search hash key)

/-- `none` for `DICT_ERR`. -/
def dictExpandIfNeeded (p : ResizePolicy) (d : Dict κ ν) : Option (Dict κ ν) :=
  if d.dictIsRehashing then some d
  else if d.ht0.size = 0 then d.dictExpand 4
  else if d.ht0.used ≥ d.ht0.size ∧ (p.canResize ∨ d.ht0.used / d.ht0.size > 5) ∧
      p.expandAllowed then
    d.dictExpand (d.ht0.used + 1)
  else some d

/-- What `_dictKeyIndex` finds. -/
inductive KeyIndex where
  | free
  | existing
  /-- no index and no existing entry either -/
  | failed
  deriving DecidableEq, Repr

def dictKeyIndex (p : ResizePolicy) (d : Dict κ ν) (key : κ) : Dict κ ν × KeyIndex :=
  match dictExpandIfNeeded p d with
  | none => (d, .failed)
  | some d => (d, if (d.search hash key).isSome then .existing else .free)

/-- `dictAddRaw`, and the caller stores `val` in the new entry. -/
def dictAddRaw (p : ResizePolicy) (d : Dict κ ν) (key : κ) (val : ν) : Dict κ ν × KeyIndex :=
  let d := if d.dictIsRehashing then d.rehashStep hash else d
  match dictKeyIndex hash p d key with
  | (d, .free) =>
      (if d.dictIsRehashing then { d with ht1 := d.ht1.push (hash key) (key, val) }
        else { d with ht0 := d.ht0.push (hash key) (key, val) }, .free)
  | (d, i) => (d, i)

/-- `true` for `DICT_OK`. -/
def dictAdd (p : ResizePolicy) (d : Dict κ ν) (key : κ) (val : ν) : Dict κ ν × Bool :=
  let (d, i) := dictAddRaw hash p d key val
  (d, i = .free)

/-- `dictSetVal` on the entry of the key. -/
def setExisting (d : Dict κ ν) (key : κ) (val : ν) : Dict κ ν :=
  if (d.ht0.lookup (hash key) key).isSome then
    { d with ht0 := d.ht0.overwrite (hash key) key val }
  else { d with ht1 := d.ht1.overwrite (hash key) key val }

/-- `none` where the source would read through a `NULL` pointer. -/
def dictReplace (p : ResizePolicy) (d : Dict κ ν) (key : κ) (val : ν) : Option (Dict κ ν × Bool) :=
  match dictAddRaw hash p d key val with
  | (d, .free) => some (d, true)
  | (d, .existing) => some (d.setExisting hash key val, false)
  | (_, .failed) => none

/-- `dictUnlink`: the value of the entry that was removed. -/
def dictUnlink (d : Dict κ ν) (key : κ) : Dict κ ν × Option ν :=
  if d.ht0.used = 0 ∧ d.ht1.used = 0 then (d, none)
  else
    let d := if d.dictIsRehashing then d.rehashStep hash else d
    match d.ht0.lookup (hash key) key with
    | some val => ({ d with ht0 := d.ht0.delete (hash key) key }, some val)
    | none =>
        if !d.dictIsRehashing then (d, none)
        else
          match d.ht1.lookup (hash key) key with
          | some val => ({ d with ht1 := d.ht1.delete (hash key) key }, some val)
          | none => (d, none)

def dictDelete (d : Dict κ ν) (key : κ) : Dict κ ν × Bool :=
  let (d, val) := dictUnlink hash d key
  (d, val.isSome)

end

def dictPauseRehashing (d : Dict κ ν) : Dict κ ν := { d with pauserehash := d.pauserehash + 1 }

def dictResumeRehashing (d : Dict κ ν) : Dict κ ν := { d with pauserehash := d.pauserehash - 1 }

end Dict

/-! ## Runs -/

inductive DictOp (κ ν : Type) where
  | find (key : κ)
  | add (key : κ) (val : ν)
  | replace (key : κ) (val : ν)
  | unlink (key : κ)
  | resize
  | expand (size : Nat) (fits : size ≤ maxBuckets)
  | rehashMilliseconds (rounds : Nat)
  | pauseRehashing
  | resumeRehashing
  deriving DecidableEq, Repr

inductive DictReply (ν : Type) where
  | value (val : Option ν)
  | flag (b : Bool)
  | done
  | crashed
  deriving DecidableEq, Repr

section

variable {κ ν : Type} [DecidableEq κ]

/-- One call of the interface. -/
def Dict.exec (hash : κ → BitVec 64) (p : ResizePolicy) (d : Dict κ ν) :
    DictOp κ ν → Dict κ ν × DictReply ν
  | .find key => ((d.dictFind hash key).1, .value (d.dictFind hash key).2)
  | .add key val => ((d.dictAdd hash p key val).1, .flag (d.dictAdd hash p key val).2)
  | .replace key val =>
      match d.dictReplace hash p key val with
      | none => (d, .crashed)
      | some (d, added) => (d, .flag added)
  | .unlink key => ((d.dictUnlink hash key).1, .value (d.dictUnlink hash key).2)
  | .resize => ((d.dictResize p).getD d, .done)
  | .expand size _ => ((d.dictExpand size).getD d, .done)
  | .rehashMilliseconds rounds => (d.dictRehashMilliseconds hash rounds, .done)
  | .pauseRehashing => (d.dictPauseRehashing, .done)
  | .resumeRehashing => (d.dictResumeRehashing, .done)

/-- What the calls mean for a map. -/
def DictOp.onMap (m : κ → Option ν) : DictOp κ ν → (κ → Option ν) × DictReply ν
  | .find key => (m, .value (m key))
  | .add key val =>
      if (m key).isSome then (m, .flag false)
      else (Function.update m key (some val), .flag true)
  | .replace key val => (Function.update m key (some val), .flag (m key).isNone)
  | .unlink key => (Function.update m key none, .value (m key))
  | _ => (m, .done)

def Dict.run (hash : κ → BitVec 64) (d : Dict κ ν) :
    List (ResizePolicy × DictOp κ ν) → Dict κ ν × List (DictReply ν)
  | [] => (d, [])
  | (p, op) :: ops =>
      let (d, reply) := d.exec hash p op
      let (d, replies) := Dict.run hash d ops
      (d, reply :: replies)

def runOnMap (m : κ → Option ν) : List (DictOp κ ν) → (κ → Option ν) × List (DictReply ν)
  | [] => (m, [])
  | op :: ops =>
      let (m, reply) := op.onMap m
      let (m, replies) := runOnMap m ops
      (m, reply :: replies)

end

end Wahana
