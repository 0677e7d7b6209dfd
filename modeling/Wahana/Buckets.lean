import Mathlib.Data.List.Nodup
import Mathlib.Data.List.Perm.Subperm
import Mathlib.Logic.Function.Basic

/-!
# Association lists and tables of buckets

An association list with distinct keys is the graph of a partial map:
`Stores l m`. The order of the list does not matter (`Stores.perm`), and the
changes at one entry are the updates of the map at its key. A table is a list
of buckets; `flatten_modify` says what changing one bucket does to all the
entries together.
-/

namespace Wahana

variable {κ ν : Type}

/-- The list holds the entries of `m`, each once. -/
structure Stores (l : List (κ × ν)) (m : κ → Option ν) : Prop where
  nodup : (l.map Prod.fst).Nodup
  mem_iff : ∀ k v, (k, v) ∈ l ↔ m k = some v

namespace Stores

variable {l l' : List (κ × ν)} {m : κ → Option ν} {k : κ} {v : ν}

theorem nil : Stores ([] : List (κ × ν)) fun _ => none := ⟨by simp, by simp⟩

theorem perm (h : Stores l m) (hl : l.Perm l') : Stores l' m where
  nodup := (hl.map Prod.fst).nodup_iff.mp h.nodup
  mem_iff k v := hl.mem_iff.symm.trans (h.mem_iff k v)

theorem length_eq (h : Stores l m) (h' : Stores l' m) : l.length = l'.length := by
  have hperm : l.Perm l' := (List.perm_ext_iff_of_nodup (List.Nodup.of_map Prod.fst h.nodup)
    (List.Nodup.of_map Prod.fst h'.nodup)).mpr
    fun e => (h.mem_iff e.1 e.2).trans (h'.mem_iff e.1 e.2).symm
  exact hperm.length_eq

section

variable [DecidableEq κ]

theorem cons (h : Stores l m) (hk : m k = none) (v : ν) :
    Stores ((k, v) :: l) (Function.update m k (some v)) where
  nodup := by
    rw [List.map_cons, List.nodup_cons]
    refine ⟨?_, h.nodup⟩
    intro hmem
    obtain ⟨⟨k', v'⟩, hin, rfl⟩ := List.mem_map.mp hmem
    rw [(h.mem_iff k' v').mp hin] at hk
    cases hk
  mem_iff k' v' := by
    by_cases hkk : k' = k
    · subst hkk
      have hnot : (k', v') ∉ l := fun hin => by
        rw [(h.mem_iff k' v').mp hin] at hk
        cases hk
      rw [Function.update_self, List.mem_cons]
      constructor
      · rintro (heq | hin)
        · rw [(Prod.mk.inj heq).2]
        · exact absurd hin hnot
      · intro heq
        rw [Option.some.inj heq]
        exact .inl rfl
    · rw [Function.update_of_ne hkk, ← h.mem_iff k' v', List.mem_cons]
      exact or_iff_right fun heq => hkk (Prod.mk.inj heq).1

theorem tail (h : Stores ((k, v) :: l) m) : Stores l (Function.update m k none) where
  nodup := (List.nodup_cons.mp h.nodup).2
  mem_iff k' v' := by
    by_cases hkk : k' = k
    · subst hkk
      rw [Function.update_self]
      refine ⟨fun hin => ?_, fun heq => by cases heq⟩
      exact absurd (List.mem_map.mpr ⟨(k', v'), hin, rfl⟩) (List.nodup_cons.mp h.nodup).1
    · rw [Function.update_of_ne hkk, ← h.mem_iff k' v', List.mem_cons]
      exact (or_iff_right fun heq => hkk (Prod.mk.inj heq).1).symm

theorem set (h : Stores ((k, v) :: l) m) (v' : ν) :
    Stores ((k, v') :: l) (Function.update m k (some v')) := by
  have hset := h.tail.cons (Function.update_self ..) v'
  rwa [Function.update_idem] at hset

theorem subset_update {o : Option ν} (h : Stores l m) (h' : Stores l' (Function.update m k o)) :
    l'.map Prod.fst ⊆ k :: l.map Prod.fst := by
  intro k' hk'
  obtain ⟨⟨k', v'⟩, hin, rfl⟩ := List.mem_map.mp hk'
  have hm := (h'.mem_iff k' v').mp hin
  by_cases hkk : k' = k
  · exact List.mem_cons.mpr (.inl hkk)
  · rw [Function.update_of_ne hkk] at hm
    exact List.mem_cons_of_mem k (List.mem_map_of_mem ((h.mem_iff k' v').mpr hm))

theorem length_update_le {o : Option ν} (h : Stores l m)
    (h' : Stores l' (Function.update m k o)) : l'.length ≤ l.length + 1 := by
  simpa using (List.subperm_of_subset h'.nodup (h.subset_update h')).length_le

theorem length_update_none_le (h : Stores l m) (h' : Stores l' (Function.update m k none)) :
    l'.length ≤ l.length := by
  have hsub : l'.map Prod.fst ⊆ l.map Prod.fst := by
    intro k' hk'
    rcases List.mem_cons.mp (h.subset_update h' hk') with rfl | hin
    · obtain ⟨⟨k', v'⟩, hin, rfl⟩ := List.mem_map.mp hk'
      have hm := (h'.mem_iff k' v').mp hin
      rw [Function.update_self] at hm
      cases hm
    · exact hin
  simpa using (List.subperm_of_subset h'.nodup hsub).length_le

end

end Stores

section

variable [DecidableEq κ]

/-- A search that sees all entries of a key finds what the map says. -/
theorem lookup_eq_of_mem_iff {k : κ} {o : Option ν} {c : List (κ × ν)}
    (h : ∀ v, (k, v) ∈ c ↔ o = some v) : c.lookup k = o := by
  cases hc : c.lookup k with
  | some v =>
      obtain ⟨l₁, l₂, rfl, -⟩ := List.lookup_eq_some_iff.mp hc
      exact ((h v).mp (by simp)).symm
  | none =>
      cases o with
      | none => rfl
      | some v =>
          have hne := List.lookup_eq_none_iff.mp hc (k, v) ((h v).mpr rfl)
          simp at hne

/-- Overwrites the value of the first entry of a key. -/
def setVal (key : κ) (val : ν) : List (κ × ν) → List (κ × ν)
  | [] => []
  | e :: l => if e.1 = key then (e.1, val) :: l else e :: setVal key val l

/-- Removes the first entry of a key. -/
def unlink (key : κ) (l : List (κ × ν)) : List (κ × ν) := l.eraseP fun e => e.1 = key

theorem setVal_append {k : κ} (v v' : ν) (l₂ : List (κ × ν)) : ∀ {l₁ : List (κ × ν)},
    (∀ e ∈ l₁, e.1 ≠ k) → setVal k v' (l₁ ++ (k, v) :: l₂) = l₁ ++ (k, v') :: l₂
  | [], _ => by simp [setVal]
  | e :: l₁, h => by
      have ih := setVal_append v v' l₂ fun e' he' => h e' (List.mem_cons_of_mem e he')
      rw [List.cons_append, setVal, if_neg (h e List.mem_cons_self), ih, List.cons_append]

theorem unlink_append {k : κ} {v : ν} {l₁ l₂ : List (κ × ν)} (h : ∀ e ∈ l₁, e.1 ≠ k) :
    unlink k (l₁ ++ (k, v) :: l₂) = l₁ ++ l₂ := by
  unfold unlink
  rw [List.eraseP_append_right _ (by simpa using h)]
  simp

/-- Unlinking and overwriting, around the entry that a search finds. -/
theorem perm_of_lookup {k : κ} {v : ν} {c : List (κ × ν)} (h : c.lookup k = some v) :
    c.Perm ((k, v) :: unlink k c) ∧ ∀ v', (setVal k v' c).Perm ((k, v') :: unlink k c) := by
  obtain ⟨l₁, l₂, rfl, hne⟩ := List.lookup_eq_some_iff.mp h
  have hne : ∀ e ∈ l₁, e.1 ≠ k := by
    intro e he heq
    simpa [heq] using hne e he
  rw [unlink_append hne]
  refine ⟨List.perm_middle, fun v' => ?_⟩
  rw [setVal_append v v' l₂ hne]
  exact List.perm_middle

theorem map_fst_setVal (k : κ) (v : ν) : ∀ c : List (κ × ν),
    (setVal k v c).map Prod.fst = c.map Prod.fst
  | [] => rfl
  | e :: c => by
      rw [setVal]
      split
      · rfl
      · rw [List.map_cons, map_fst_setVal k v c, List.map_cons]

end

/-! ## Tables -/

/-- All entries of a table, with those of one bucket in front. -/
theorem flatten_modify {α : Type} {table : List (List α)} {i : Nat} {b : List α}
    (h : table[i]? = some b) : ∃ rest, table.flatten.Perm (b ++ rest) ∧
      ∀ f, (table.modify i f).flatten.Perm (f b ++ rest) := by
  obtain ⟨hi, hb⟩ := List.getElem?_eq_some_iff.mp h
  refine ⟨(table.take i).flatten ++ (table.drop (i + 1)).flatten, ?_, fun f => ?_⟩
  · have hsplit : table.flatten =
        (table.take i).flatten ++ (b ++ (table.drop (i + 1)).flatten) := by
      conv_lhs => rw [← List.take_append_drop i table, List.drop_eq_getElem_cons hi, hb]
      simp
    rw [hsplit]
    exact List.perm_append_comm_assoc ..
  · rw [List.modify_eq_take_cons_drop hi, hb, List.flatten_append, List.flatten_cons]
    exact List.perm_append_comm_assoc ..

end Wahana
