/-
Entries: an insertion-ordered map as the list of its keys and values. A key that is inserted again
keeps its place and takes the new value. Looking a key up is `List.lookup`.
-/
namespace QueryMethods

/-- A map from texts that keeps the order in which its keys were inserted. -/
abbrev Entries (α : Type) := List (String × α)

namespace Entries

variable {α : Type}

/-- The keys in order. -/
def keys (m : Entries α) : List String := m.map Prod.fst

/-- Puts a value under a key: in its place if the key is there already, at the end otherwise. -/
def insert (m : Entries α) (k : String) (v : α) : Entries α :=
  match m with
  | [] => [(k, v)]
  | (k', v') :: r => if k' = k then (k, v) :: r else (k', v') :: insert r k v

/-- Inserts the pairs one after the other. -/
def ofList (pairs : List (String × α)) : Entries α :=
  pairs.foldl (fun m p => insert m p.1 p.2) []

/-! ## Keys -/

theorem keys_insert (m : Entries α) (k : String) (v : α) :
    keys (insert m k v) = if k ∈ keys m then keys m else keys m ++ [k] := by
  induction m with
  | nil => simp [insert, keys]
  | cons p r ih =>
    obtain ⟨k', v'⟩ := p
    simp only [keys] at ih
    by_cases h : k' = k
    · simp [insert, keys, h]
    · simp only [insert, h, if_false, keys, List.map_cons, ih, List.mem_cons, Ne.symm h, false_or]
      by_cases hk : k ∈ List.map Prod.fst r <;> simp [hk]

theorem nodup_keys_insert {m : Entries α} (h : (keys m).Nodup) (k : String) (v : α) :
    (keys (insert m k v)).Nodup := by
  rw [keys_insert]
  split
  · exact h
  · rename_i hk
    exact List.nodup_append.2 ⟨h, by simp, fun a ha b hb => by
      simp only [List.mem_singleton] at hb; subst hb; exact fun e => hk (e ▸ ha)⟩

theorem nodup_keys_ofList (pairs : List (String × α)) : (keys (ofList pairs)).Nodup := by
  suffices ∀ m : Entries α, (keys m).Nodup →
      (keys (pairs.foldl (fun m p => insert m p.1 p.2) m)).Nodup from this [] List.nodup_nil
  induction pairs with
  | nil => exact fun m h => h
  | cons p r ih => exact fun m h => ih _ (nodup_keys_insert h _ _)

/-! ## Lookup -/

theorem lookup_insert (m : Entries α) (k : String) (v : α) (k' : String) :
    (insert m k v).lookup k' = if k' = k then some v else m.lookup k' := by
  induction m with
  | nil =>
    by_cases h : k' = k
    · simp [insert, h]
    · simp [insert, h]
  | cons p r ih =>
    obtain ⟨a, b⟩ := p
    by_cases h : a = k
    · subst h
      by_cases h' : k' = a
      · simp [insert, h']
      · simp [insert, List.lookup_cons, h', beq_false_of_ne h']
    · by_cases h' : k' = a
      · subst h'; simp [insert, h]
      · simp [insert, List.lookup_cons, h, beq_false_of_ne h', ih]

theorem lookup_of_mem {m : Entries α} (h : (keys m).Nodup) {k : String} {v : α} (hm : (k, v) ∈ m) :
    m.lookup k = some v := by
  induction m with
  | nil => cases hm
  | cons p r ih =>
    obtain ⟨hp, hr⟩ := List.nodup_cons.1 h
    rw [List.lookup_cons]
    rcases List.mem_cons.1 hm with rfl | hm
    · rw [beq_self_eq_true]
    · have hne : k ≠ p.1 := by
        rintro rfl
        exact hp (List.mem_map.2 ⟨(p.1, v), hm, rfl⟩)
      rw [beq_false_of_ne hne]
      exact ih hr hm

/-- Looking up the keys in order gives the values in order. -/
theorem map_lookup_keys {m : Entries α} (h : (keys m).Nodup) :
    ((keys m).map fun k => m.lookup k) = (m.map Prod.snd).map some := by
  rw [keys, List.map_map, List.map_map]
  exact List.map_congr_left fun p hp => lookup_of_mem h hp

end Entries

end QueryMethods
