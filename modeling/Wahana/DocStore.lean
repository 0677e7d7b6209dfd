import Mathlib.Data.List.AList
import Mathlib.Data.Multiset.MapFold

/-!
# A keyed document store

Documents live under a key (index, type, id). An index request with an id
creates or replaces the document under that key; one without an id stores
the document under a generated id that no document has yet. The store is
an association list with distinct keys and carries the bound on generated
ids as a field, so that a generated id is fresh by construction.

The two ways of addressing a document behave as differently as they look:
`bodies_index_auto` says that a request without id adds one body to its
index and removes none, `bodies_index_given` that in an index whose only
document sits under the key of the request, the request replaces it.
-/

namespace Wahana

/-- A document id, chosen by the client or generated by the store. -/
inductive DocId where
  | given (n : Nat)
  | auto (n : Nat)
  deriving DecidableEq, Repr

structure DocKey where
  index : String
  type : String
  id : DocId
  deriving DecidableEq, Repr

structure IndexRequest (β : Type) where
  index : String
  type : String
  id : Option Nat
  body : β
  deriving DecidableEq, Repr

structure DocStore (β : Type) where
  docs : AList fun _ : DocKey => β
  next : Nat
  fresh : ∀ ix ty n, (⟨ix, ty, .auto n⟩ : DocKey) ∈ docs → n < next

namespace DocStore

variable {β : Type}

def empty : DocStore β where
  docs := ∅
  next := 0
  fresh := by simp

/-- Create or replace the document under a client's id. -/
def put (c : DocStore β) (ix ty : String) (n : Nat) (b : β) : DocStore β where
  docs := c.docs.insert ⟨ix, ty, .given n⟩ b
  next := c.next
  fresh := by
    intro ix' ty' m hm
    rw [AList.mem_insert] at hm
    rcases hm with h | h
    · simp at h
    · exact c.fresh _ _ _ h

/-- Store a document under a generated id. -/
def post (c : DocStore β) (ix ty : String) (b : β) : DocStore β where
  docs := c.docs.insert ⟨ix, ty, .auto c.next⟩ b
  next := c.next + 1
  fresh := by
    intro ix' ty' m hm
    rw [AList.mem_insert] at hm
    rcases hm with h | h
    · simp only [DocKey.mk.injEq, DocId.auto.injEq] at h
      omega
    · exact Nat.lt_succ_of_lt (c.fresh _ _ _ h)

def index (c : DocStore β) (r : IndexRequest β) : DocStore β :=
  match r.id with
  | some n => c.put r.index r.type n r.body
  | none => c.post r.index r.type r.body

/-- The bodies of the documents an index holds. -/
def bodies (c : DocStore β) (ix : String) : Multiset β :=
  ((c.docs.entries.filter fun e => e.1.index = ix).map fun e => e.2 : List β)

theorem post_notMem (c : DocStore β) (ix ty : String) :
    (⟨ix, ty, .auto c.next⟩ : DocKey) ∉ c.docs :=
  fun h => Nat.lt_irrefl _ (c.fresh _ _ _ h)

theorem bodies_index_auto (c : DocStore β) {r : IndexRequest β} (h : r.id = none) :
    (c.index r).bodies r.index = r.body ::ₘ c.bodies r.index := by
  have hnot := c.post_notMem r.index r.type
  simp only [index, h, post, bodies]
  rw [AList.entries_insert_of_notMem hnot, List.filter_cons_of_pos (by simp), List.map_cons]
  rfl

/-! ## Requests that name an id -/

/-- The index of `k` holds no document but the one under `k`. -/
def OnlyAt (c : DocStore β) (k : DocKey) : Prop :=
  ∀ e ∈ c.docs.entries, e.1.index = k.index → e.1 = k

theorem onlyAt_of_bodies_eq_zero {c : DocStore β} {k : DocKey} (h : c.bodies k.index = 0) :
    c.OnlyAt k := by
  intro e he hix
  simp only [bodies, Multiset.coe_eq_zero, List.map_eq_nil_iff, List.filter_eq_nil_iff] at h
  exact absurd (by simpa using hix) (h e he)

theorem mem_kerase {c : DocStore β} {k : DocKey} {e : Sigma fun _ : DocKey => β}
    (h : e ∈ c.docs.entries.kerase k) : e ∈ c.docs.entries ∧ e.1 ≠ k := by
  refine ⟨(List.kerase_sublist k _).subset h, ?_⟩
  rintro rfl
  exact List.notMem_keys_kerase e.1 c.docs.nodupKeys (List.mem_keys_of_mem h)

theorem OnlyAt.index {c : DocStore β} {r : IndexRequest β} {n : Nat}
    (h : c.OnlyAt ⟨r.index, r.type, .given n⟩) (hid : r.id = some n) :
    (c.index r).OnlyAt ⟨r.index, r.type, .given n⟩ := by
  intro e he hix
  simp only [DocStore.index, hid, put, AList.entries_insert, List.mem_cons] at he
  rcases he with rfl | he
  · rfl
  · exact h e (mem_kerase he).1 hix

theorem bodies_index_given {c : DocStore β} {r : IndexRequest β} {n : Nat}
    (h : c.OnlyAt ⟨r.index, r.type, .given n⟩) (hid : r.id = some n) :
    (c.index r).bodies r.index = {r.body} := by
  have hrest : (c.docs.entries.kerase ⟨r.index, r.type, .given n⟩).filter
      (fun e => e.1.index = r.index) = [] := by
    rw [List.filter_eq_nil_iff]
    intro e he hix
    obtain ⟨hmem, hne⟩ := mem_kerase he
    exact hne (h e hmem (by simpa using hix))
  simp only [index, hid, put, bodies]
  rw [AList.entries_insert, List.filter_cons_of_pos (by simp), hrest]
  rfl

section

variable {c : DocStore β} {k : DocKey} {n : Nat} {rs : List (IndexRequest β)}

theorem OnlyAt.foldl (h : c.OnlyAt ⟨k.index, k.type, .given n⟩)
    (hrs : ∀ r ∈ rs, r.index = k.index ∧ r.type = k.type ∧ r.id = some n) :
    (rs.foldl DocStore.index c).OnlyAt ⟨k.index, k.type, .given n⟩ := by
  induction rs generalizing c with
  | nil => exact h
  | cons r rs ih =>
      obtain ⟨hix, hty, hid⟩ := hrs r (by simp)
      have hr := OnlyAt.index (c := c) (r := r) (by rw [hix, hty]; exact h) hid
      rw [hix, hty] at hr
      exact ih hr fun q hq => hrs q (List.mem_cons_of_mem _ hq)

end

end DocStore

end Wahana
