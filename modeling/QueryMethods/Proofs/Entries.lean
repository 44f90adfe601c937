/-
Maps as lists of entries. Pairs that are inserted one after the other make a map with each key once, where
it first came, and the last value that was given for it; pairs with distinct keys are themselves that map.
What is found under a key is the value of an entry, and nothing is found under any key but those of entries.
-/
import Mathlib.Data.List.Induction
import QueryMethods.Entries

namespace QueryMethods.Entries

variable {α : Type}

/-! ## Insertion -/

section

variable (pairs : List (String × α))

theorem ofList_concat (p : String × α) : ofList (pairs ++ [p]) = (ofList pairs).insert p.1 p.2 := by
  unfold ofList
  rw [List.foldl_append]
  rfl

/-- The keys are in the order of their first appearance. -/
theorem keys_ofList : (ofList pairs).keys = (pairs.map Prod.fst).eraseDups := by
  induction pairs using List.reverseRecOn with
  | nil => rfl
  | append_singleton pairs p ih =>
    rw [ofList_concat, keys_insert, ih, List.map_append, List.map_singleton, List.eraseDups_append]
    by_cases hp : p.1 ∈ pairs.map Prod.fst
    · have hnone : [p.1].removeAll (pairs.map Prod.fst) = [] := by simp [List.removeAll, hp]
      rw [if_pos (List.mem_eraseDups.2 hp), hnone]
      exact (List.append_nil _).symm
    · have hone : [p.1].removeAll (pairs.map Prod.fst) = [p.1] := by simp [List.removeAll, hp]
      rw [if_neg (mt List.mem_eraseDups.1 hp), hone]
      rfl

/-- Under a key is the last value that was given for it. -/
theorem lookup_ofList (k : String) :
    (ofList pairs).lookup k = (pairs.findRev? (·.1 == k)).map Prod.snd := by
  rw [List.findRev?_eq_find?_reverse]
  induction pairs using List.reverseRecOn with
  | nil => rfl
  | append_singleton pairs p ih =>
    rw [ofList_concat, lookup_insert, List.reverse_concat, List.find?_cons, ih]
    by_cases hp : k = p.1
    · rw [if_pos hp, hp, beq_self_eq_true]
      rfl
    · rw [if_neg hp, beq_false_of_ne (Ne.symm hp)]

end

theorem insert_of_not_mem {m : Entries α} {k : String} (h : k ∉ m.keys) (v : α) :
    m.insert k v = m ++ [(k, v)] := by
  induction m with
  | nil => rfl
  | cons p m ih =>
    obtain ⟨hp, hm⟩ := not_or.1 (mt List.mem_cons.2 h)
    rw [insert, if_neg (Ne.symm hp), ih hm, List.cons_append]

/-- Pairs with distinct keys are the map that they make. -/
theorem ofList_of_nodup {pairs : List (String × α)} (h : (pairs.map Prod.fst).Nodup) :
    ofList pairs = pairs := by
  induction pairs using List.reverseRecOn with
  | nil => rfl
  | append_singleton pairs p ih =>
    rw [List.map_append] at h
    obtain ⟨hpairs, -, hp⟩ := List.nodup_append.1 h
    rw [ofList_concat, ih hpairs]
    exact insert_of_not_mem (fun hmem => hp _ hmem _ List.mem_cons_self rfl) p.2

/-! ## Lookup -/

variable {m : Entries α} {k : String} {v : α}

theorem mem_of_lookup (h : m.lookup k = some v) : (k, v) ∈ m := by
  obtain ⟨before, after, rfl, -⟩ := List.lookup_eq_some_iff.1 h
  exact List.mem_append_right before List.mem_cons_self

theorem lookup_eq_none_iff : m.lookup k = none ↔ k ∉ m.keys := by
  rw [List.lookup_eq_none_iff, keys, List.mem_map]
  constructor
  · rintro h ⟨p, hp, rfl⟩
    exact bne_iff_ne.1 (h p hp) rfl
  · exact fun h p hp => bne_iff_ne.2 fun hk => h ⟨p, hp, hk.symm⟩

end QueryMethods.Entries
