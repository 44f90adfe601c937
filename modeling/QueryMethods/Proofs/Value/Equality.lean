/-
Equality of values is a partial equivalence. If no map anywhere in two values has a key twice, equality does
not depend on which of them comes first, nor on the order in which the entries of any of their maps were
inserted, and a value equals itself exactly if all floats within it do. Of floats no more is needed than that
their own equality is symmetric and transitive.

A map is looked up in one direction only. The other direction comes from counting: distinct keys that are all
found in a map of the same length are all the keys of that map.
-/
import Mathlib.Data.List.Forall2
import Mathlib.Data.List.Perm.Subperm
import QueryMethods.Proofs.Entries
import QueryMethods.Value.Equality

namespace QueryMethods.Value

/-! ## Values within values -/

/-- What a list or a map holds. -/
def children : Value → List Value
  | .list items => items
  | .map entries => entries.map Prod.snd
  | _ => []

/-- What holds of a value if it holds of all that the value holds, holds of every value. -/
theorem ind {motive : Value → Prop} (step : ∀ v, (∀ w ∈ v.children, motive w) → motive v) (v : Value) :
    motive v :=
  Value.rec (motive_1 := motive) (motive_2 := fun items => ∀ w ∈ items, motive w)
    (motive_3 := fun entries => ∀ w ∈ entries.map Prod.snd, motive w) (motive_4 := fun p => motive p.2)
    (step _ nofun) (fun _ => step _ nofun) (fun _ => step _ nofun) (fun _ => step _ nofun)
    (fun _ => step _ nofun) (fun _ => step _ nofun) (fun _ ih => step _ ih) (fun _ ih => step _ ih)
    nofun (fun _ _ hfirst hrest => List.forall_mem_cons.2 ⟨hfirst, hrest⟩)
    nofun (fun _ _ hfirst hrest => List.forall_mem_cons.2 ⟨hfirst, hrest⟩) (fun _ _ h => h) v

/-- The first value is the second, or stands somewhere in its lists and maps. -/
inductive Within : Value → Value → Prop
  | self (v : Value) : Within v v
  | child {u v w : Value} (hchild : w ∈ v.children) (h : Within u w) : Within u v

/-- No map within the value has a key twice. -/
def DistinctKeys (v : Value) : Prop :=
  ∀ m, Within (.map m) v → (Entries.keys m).Nodup

/-- Every float within the value equals itself. -/
def SelfEqualFloats (v : Value) : Prop :=
  ∀ x, Within (.float x) v → x.same x = true

theorem forall_within_iff {α : Type} {f : α → Value} {P : α → Prop} {v : Value} :
    (∀ x, Within (f x) v → P x) ↔
      (∀ x, v = f x → P x) ∧ ∀ w ∈ v.children, ∀ x, Within (f x) w → P x := by
  constructor
  · refine fun h => ⟨fun x hx => h x ?_, fun w hw x hx => h x (.child hw hx)⟩
    rw [hx]
    exact .self _
  · rintro ⟨hself, hchildren⟩ x hx
    generalize hu : f x = u at hx
    cases hx with
    | self => exact hself x hu.symm
    | child hw hx => exact hchildren _ hw x (hu ▸ hx)

theorem selfEqualFloats_iff {v : Value} :
    v.SelfEqualFloats ↔
      (∀ x, v = .float x → x.same x = true) ∧ ∀ w ∈ v.children, w.SelfEqualFloats :=
  forall_within_iff

theorem distinctKeys_iff {v : Value} :
    v.DistinctKeys ↔
      (∀ m, v = .map m → (Entries.keys m).Nodup) ∧ ∀ w ∈ v.children, w.DistinctKeys :=
  forall_within_iff

theorem distinctKeys_list_iff {items : List Value} :
    (list items).DistinctKeys ↔ ∀ v ∈ items, v.DistinctKeys :=
  distinctKeys_iff.trans (and_iff_right nofun)

theorem distinctKeys_map_iff {m : Entries Value} :
    (map m).DistinctKeys ↔ m.keys.Nodup ∧ ∀ p ∈ m, p.2.DistinctKeys := by
  rw [distinctKeys_iff, children, List.forall_mem_map]
  simp only [map.injEq, forall_eq']

/-! ## One layer of equality -/

theorem sameItems_iff {as bs : List Value} :
    sameItems as bs = true ↔ List.Forall₂ (fun a b => a.same b = true) as bs := by
  induction as generalizing bs with
  | nil => cases bs <;> simp [sameItems]
  | cons a as ih => cases bs <;> simp [sameItems, ih]

theorem includes_iff {m es : Entries Value} :
    includes m es = true ↔ ∀ p ∈ es, ∃ w, m.lookup p.1 = some w ∧ p.2.same w = true := by
  induction es with
  | nil => simp [includes]
  | cons p es ih => simp [includes, ih, Option.any_eq_true]

/-- What it takes for two values to be equal, given what it takes for those that they hold. -/
inductive Matches : Value → Value → Prop
  | null : Matches .null .null
  | bool (b : Bool) : Matches (.bool b) (.bool b)
  | int (n : Int64) : Matches (.int n) (.int n)
  | float {x y : Binary64} (h : x.same y = true) : Matches (.float x) (.float y)
  | str (s : String) : Matches (.str s) (.str s)
  | date (d : CalendarDate) : Matches (.date d) (.date d)
  | list {as bs : List Value} (h : List.Forall₂ (fun a b => a.same b = true) as bs) :
      Matches (.list as) (.list bs)
  | map {m m' : Entries Value} (hlength : m.length = m'.length)
      (h : ∀ p ∈ m, ∃ w, m'.lookup p.1 = some w ∧ p.2.same w = true) : Matches (.map m) (.map m')

theorem same_iff {a b : Value} : a.same b = true ↔ Matches a b := by
  constructor
  · intro h
    unfold same at h
    split at h
    · exact .null
    · cases beq_iff_eq.1 h
      exact .bool _
    · cases beq_iff_eq.1 h
      exact .int _
    · exact .float h
    · cases beq_iff_eq.1 h
      exact .str _
    · cases beq_iff_eq.1 h
      exact .date _
    · exact .list (sameItems_iff.1 h)
    · obtain ⟨hlength, hincludes⟩ := Bool.and_eq_true_iff.1 h
      exact .map (beq_iff_eq.1 hlength) (includes_iff.1 hincludes)
    · cases h
  · intro h
    cases h with
    | null => rfl
    | bool | int | str | date => exact beq_self_eq_true _
    | float h => exact h
    | list h => exact sameItems_iff.2 h
    | map hlength h => exact Bool.and_eq_true_iff.2 ⟨beq_iff_eq.2 hlength, includes_iff.2 h⟩

/-! ## Symmetry -/

/-- Distinct keys that are all among those of a map of the same length are all its keys. -/
theorem keys_perm {m m' : Entries Value} (hkeys : m.keys.Nodup) (hlength : m.length = m'.length)
    (h : ∀ p ∈ m, ∃ w, m'.lookup p.1 = some w ∧ p.2.same w = true) : m.keys.Perm m'.keys := by
  have hsubset : m.keys ⊆ m'.keys := by
    intro k hk
    obtain ⟨p, hp, rfl⟩ := List.mem_map.1 hk
    obtain ⟨w, hw, -⟩ := h p hp
    exact List.mem_map.2 ⟨(p.1, w), Entries.mem_of_lookup hw, rfl⟩
  refine (List.subperm_of_subset hkeys hsubset).perm_of_length_le ?_
  rw [Entries.keys, Entries.keys, List.length_map, List.length_map]
  exact Nat.le_of_eq hlength.symm

theorem forall₂_swap {as bs : List Value} (h : List.Forall₂ (fun a b => a.same b = true) as bs)
    (hswap : ∀ a ∈ as, ∀ b ∈ bs, a.same b = true → b.same a = true) :
    List.Forall₂ (fun b a => b.same a = true) bs as := by
  induction h with
  | nil => exact .nil
  | cons hab _ ih =>
    refine .cons (hswap _ List.mem_cons_self _ List.mem_cons_self hab) (ih fun a ha b hb => ?_)
    exact hswap a (List.mem_cons_of_mem _ ha) b (List.mem_cons_of_mem _ hb)

theorem same_symm {a : Value} : ∀ {b : Value}, a.DistinctKeys → b.DistinctKeys → a.same b = true →
    b.same a = true := by
  induction a using ind with
  | step a ih =>
    intro b ha hb h
    rw [same_iff] at h ⊢
    cases h with
    | null => exact .null
    | bool b => exact .bool b
    | int n => exact .int n
    | str s => exact .str s
    | date d => exact .date d
    | float h => exact .float (Binary64.same_symm h)
    | list h =>
      rw [distinctKeys_list_iff] at ha hb
      exact .list (forall₂_swap h fun v hv w hw => ih v hv (ha v hv) (hb w hw))
    | @map m m' hlength h =>
      obtain ⟨hkeys, hvalues⟩ := distinctKeys_map_iff.1 ha
      obtain ⟨hkeys', hvalues'⟩ := distinctKeys_map_iff.1 hb
      refine .map hlength.symm fun p hp => ?_
      have hk : p.1 ∈ m.keys := (keys_perm hkeys hlength h).mem_iff.2 (List.mem_map_of_mem hp)
      obtain ⟨q, hq, hqk⟩ := List.mem_map.1 hk
      obtain ⟨w, hw, hsame⟩ := h q hq
      -- The keys of the second map are distinct, so what was found there is the entry at hand.
      rw [hqk, Entries.lookup_of_mem hkeys' hp] at hw
      cases hw
      refine ⟨q.2, hqk ▸ Entries.lookup_of_mem hkeys hq, ?_⟩
      exact ih q.2 (List.mem_map_of_mem hq) (hvalues q hq) (hvalues' p hp) hsame

theorem same_comm {a b : Value} (ha : a.DistinctKeys) (hb : b.DistinctKeys) : a.same b = b.same a :=
  Bool.eq_iff_iff.2 ⟨same_symm ha hb, same_symm hb ha⟩

/-! ## Transitivity -/

theorem forall₂_comp {as bs cs : List Value} (h : List.Forall₂ (fun a b => a.same b = true) as bs)
    (h' : List.Forall₂ (fun b c => b.same c = true) bs cs)
    (hcomp : ∀ a ∈ as, ∀ b c, a.same b = true → b.same c = true → a.same c = true) :
    List.Forall₂ (fun a c => a.same c = true) as cs := by
  induction h generalizing cs with
  | nil => exact h'
  | cons hab _ ih =>
    cases h' with
    | cons hbc h' =>
      refine .cons (hcomp _ List.mem_cons_self _ _ hab hbc) (ih h' fun a ha => ?_)
      exact hcomp a (List.mem_cons_of_mem _ ha)

theorem same_trans {a : Value} : ∀ {b c : Value}, a.same b = true → b.same c = true →
    a.same c = true := by
  induction a using ind with
  | step a ih =>
    intro b c h h'
    rw [same_iff] at h h' ⊢
    cases h with
    | null | bool | int | str | date => exact h'
    | float h =>
      cases h' with
      | float h' => exact .float (Binary64.same_trans h h')
    | list h =>
      cases h' with
      | list h' => exact .list (forall₂_comp h h' fun v hv _ _ => ih v hv)
    | map hlength h =>
      cases h' with
      | map hlength' h' =>
        refine .map (hlength.trans hlength') fun p hp => ?_
        obtain ⟨w, hw, hsame⟩ := h p hp
        obtain ⟨u, hu, hsame'⟩ := h' (p.1, w) (Entries.mem_of_lookup hw)
        exact ⟨u, hu, ih p.2 (List.mem_map_of_mem hp) hsame hsame'⟩

/-! ## Reflexivity -/

theorem same_map_self_iff {m : Entries Value} (hkeys : m.keys.Nodup) :
    (map m).same (map m) = true ↔ ∀ p ∈ m, p.2.same p.2 = true := by
  rw [same_iff]
  constructor
  · intro h p hp
    cases h with
    | map _ h =>
      obtain ⟨w, hw, hsame⟩ := h p hp
      cases hw.symm.trans (Entries.lookup_of_mem hkeys hp)
      exact hsame
  · exact fun h => .map rfl fun p hp => ⟨p.2, Entries.lookup_of_mem hkeys hp, h p hp⟩

/-- Only a float that differs from itself keeps a value from being equal to itself. -/
theorem same_self_iff {v : Value} : v.DistinctKeys → (v.same v = true ↔ v.SelfEqualFloats) := by
  induction v using ind with
  | step v ih =>
    intro hkeys
    rw [selfEqualFloats_iff]
    cases v with
    | list items =>
      rw [distinctKeys_list_iff] at hkeys
      have hitems : (list items).same (list items) = true ↔ ∀ v ∈ items, v.same v = true :=
        sameItems_iff.trans List.forall₂_same
      rw [hitems]
      exact (forall₂_congr fun v hv => ih v hv (hkeys v hv)).trans (and_iff_right nofun).symm
    | map m =>
      obtain ⟨hkeys, hvalues⟩ := distinctKeys_map_iff.1 hkeys
      rw [same_map_self_iff hkeys]
      refine Iff.trans ?_ (and_iff_right nofun).symm
      exact (forall₂_congr fun p hp => ih p.2 (List.mem_map_of_mem hp) (hvalues p hp)).trans
        List.forall_mem_map.symm
    | float x =>
      exact ⟨fun h => ⟨fun y hy => by cases hy; exact h, nofun⟩, fun h => h.1 x rfl⟩
    | null => exact iff_of_true rfl ⟨nofun, nofun⟩
    | bool | int | str | date => exact iff_of_true (beq_self_eq_true _) ⟨nofun, nofun⟩

/-! ## Insertion order -/

/-- The first value becomes the second when the entries of maps within it are put in another order. -/
inductive Reordered : Value → Value → Prop
  | refl (v : Value) : Reordered v v
  | trans {u v w : Value} (h : Reordered u v) (h' : Reordered v w) : Reordered u w
  | entries {m m' : Entries Value} (h : m.Perm m') : Reordered (.map m) (.map m')
  | item {v w : Value} (before after : List Value) (h : Reordered v w) :
      Reordered (.list (before ++ v :: after)) (.list (before ++ w :: after))
  | value {v w : Value} (before : Entries Value) (k : String) (after : Entries Value)
      (h : Reordered v w) : Reordered (.map (before ++ (k, v) :: after)) (.map (before ++ (k, w) :: after))

variable {a b : Value}

theorem Reordered.distinctKeys (h : Reordered a b) : a.DistinctKeys → b.DistinctKeys := by
  induction h with
  | refl => exact id
  | trans _ _ ih ih' => exact ih' ∘ ih
  | entries h =>
    rw [distinctKeys_map_iff, distinctKeys_map_iff]
    rintro ⟨hkeys, hvalues⟩
    exact ⟨(h.map Prod.fst).nodup_iff.1 hkeys, fun p hp => hvalues p (h.mem_iff.2 hp)⟩
  | item before after _ ih =>
    simp only [distinctKeys_list_iff, List.forall_mem_append, List.forall_mem_cons]
    rintro ⟨hbefore, hv, hafter⟩
    exact ⟨hbefore, ih hv, hafter⟩
  | value before k after _ ih =>
    simp only [distinctKeys_map_iff, List.forall_mem_append, List.forall_mem_cons, Entries.keys,
      List.map_append, List.map_cons]
    rintro ⟨hkeys, hbefore, hv, hafter⟩
    exact ⟨hkeys, hbefore, ih hv, hafter⟩

theorem same_list_iff {items : List Value} {c : Value} : (list items).same c = true ↔
    ∃ items', c = .list items' ∧ List.Forall₂ (fun a b => a.same b = true) items items' := by
  rw [same_iff]
  constructor
  · rintro ⟨⟩
    exact ⟨_, rfl, ‹_›⟩
  · rintro ⟨items', rfl, h⟩
    exact .list h

theorem same_map_iff {m : Entries Value} {c : Value} : (map m).same c = true ↔
    ∃ m', c = .map m' ∧ m.length = m'.length ∧
      ∀ p ∈ m, ∃ w, List.lookup p.1 m' = some w ∧ p.2.same w = true := by
  rw [same_iff]
  constructor
  · rintro ⟨⟩
    exact ⟨_, rfl, ‹_›, ‹_›⟩
  · rintro ⟨m', rfl, hlength, h⟩
    exact .map hlength h

theorem forall₂_replace {v w : Value} (h : ∀ c, v.same c = w.same c) (before after : List Value) :
    ∀ cs, List.Forall₂ (fun a c => a.same c = true) (before ++ v :: after) cs ↔
      List.Forall₂ (fun a c => a.same c = true) (before ++ w :: after) cs := by
  induction before with
  | nil =>
    intro cs
    rw [List.nil_append, List.nil_append, List.forall₂_cons_left_iff, List.forall₂_cons_left_iff]
    simp only [h]
  | cons b before ih =>
    intro cs
    rw [List.cons_append, List.cons_append, List.forall₂_cons_left_iff, List.forall₂_cons_left_iff]
    simp only [ih]

/-- What a value equals does not depend on the order of its entries. -/
theorem Reordered.same_left (h : Reordered a b) : ∀ c : Value, a.same c = b.same c := by
  induction h with
  | refl => exact fun c => rfl
  | trans _ _ ih ih' => exact fun c => (ih c).trans (ih' c)
  | entries h =>
    intro c
    rw [Bool.eq_iff_iff, same_map_iff, same_map_iff]
    simp only [h.length_eq, h.mem_iff]
  | item before after _ ih =>
    intro c
    rw [Bool.eq_iff_iff, same_list_iff, same_list_iff]
    simp only [forall₂_replace ih]
  | value before k after _ ih =>
    intro c
    rw [Bool.eq_iff_iff, same_map_iff, same_map_iff]
    simp only [List.length_append, List.length_cons, List.forall_mem_append, List.forall_mem_cons, ih]

theorem same_congr {a a' b b' : Value} (ha : a.DistinctKeys) (hb : b.DistinctKeys) (h : Reordered a a')
    (h' : Reordered b b') : a.same b = a'.same b' :=
  calc a.same b = a'.same b := h.same_left b
    _ = b.same a' := same_comm (h.distinctKeys ha) hb
    _ = b'.same a' := h'.same_left a'
    _ = a'.same b' := same_comm (h'.distinctKeys hb) (h.distinctKeys ha)

/-- Equality is a partial equivalence of the values in which no map has a key twice, at every depth: it is
symmetric and transitive, a value equals itself exactly if all floats within it do, and neither side
depends on the order in which the entries of any map were inserted. -/
theorem partialEquivalence_same :
    (∀ a b : Value, a.DistinctKeys → b.DistinctKeys → a.same b = true → b.same a = true) ∧
      (∀ a b c : Value, a.same b = true → b.same c = true → a.same c = true) ∧
      (∀ v : Value, v.DistinctKeys → (v.same v = true ↔ ∀ x, Within (.float x) v → x.same x = true)) ∧
      ∀ a a' b b' : Value, a.DistinctKeys → b.DistinctKeys → Reordered a a' → Reordered b b' →
        a.same b = a'.same b' :=
  ⟨fun _ _ => same_symm, fun _ _ _ => same_trans, fun _ => same_self_iff, fun _ _ _ _ => same_congr⟩

/-- A place: its name, and a list with its position, a map within the map. -/
def place (latitude : Binary64) : Value :=
  .map [("name", .str "a"), ("at", .list [.map [("lat", .float latitude), ("long", .null)]])]

/-- The same with the entries of both maps the other way round. -/
def turned (latitude : Binary64) : Value :=
  .map [("at", .list [.map [("long", .null), ("lat", .float latitude)]]), ("name", .str "a")]

theorem distinctKeys_place (latitude : Binary64) : (place latitude).DistinctKeys := by
  have hname : (str "a").DistinctKeys := distinctKeys_iff.2 ⟨nofun, nofun⟩
  have hnumber : (float latitude).DistinctKeys := distinctKeys_iff.2 ⟨nofun, nofun⟩
  have hnull : null.DistinctKeys := distinctKeys_iff.2 ⟨nofun, nofun⟩
  simp [place, distinctKeys_map_iff, distinctKeys_list_iff, Entries.keys, hname, hnumber, hnull]

theorem reordered_place (latitude : Binary64) : Reordered (place latitude) (turned latitude) := by
  have hposition : Reordered (.map [("lat", .float latitude), ("long", .null)])
      (.map [("long", .null), ("lat", .float latitude)]) := .entries (.swap _ _ _)
  exact .trans (.value [("name", .str "a")] "at" [] (.item [] [] hposition)) (.entries (.swap _ _ _))

/-- The two zeros make equal places, in either order of the entries, and a place without a number for
its latitude is not equal to itself. -/
theorem partialEquivalence_place :
    (turned ⟨0⟩).same (place ⟨0x8000000000000000⟩) = true ∧
      (place ⟨0x8000000000000000⟩).same (turned ⟨0⟩) = true ∧
      (place ⟨0⟩).same (place ⟨0⟩) = true ∧
      (place ⟨0x7ff8000000000000⟩).same (place ⟨0x7ff8000000000000⟩) = false := by
  obtain ⟨hsymm, htrans, hself, hreordered⟩ := partialEquivalence_same
  have hplace := distinctKeys_place
  have hturned (latitude : Binary64) : (turned latitude).DistinctKeys :=
    (reordered_place latitude).distinctKeys (hplace latitude)
  have hzeros : (place ⟨0⟩).same (place ⟨0x8000000000000000⟩) = true := by decide +kernel
  have hfirst : (turned ⟨0⟩).same (place ⟨0x8000000000000000⟩) = true := by
    rw [← hreordered _ _ _ _ (hplace _) (hplace _) (reordered_place ⟨0⟩) (.refl _)]
    exact hzeros
  have hsecond := hsymm _ _ (hturned _) (hplace _) hfirst
  refine ⟨hfirst, hsecond, htrans _ _ _ hzeros (hsymm _ _ (hplace _) (hplace _) hzeros), ?_⟩
  rw [← Bool.not_eq_true, hself _ (hplace _)]
  intro h
  have hwithin : Within (.float ⟨0x7ff8000000000000⟩) (place ⟨0x7ff8000000000000⟩) :=
    .child (.tail _ (.head _)) (.child (.head _) (.child (.head _) (.self _)))
  have hsame := h _ hwithin
  rw [Binary64.same_self] at hsame
  revert hsame
  decide +kernel

end QueryMethods.Value
