/-
References by name. Read from left to right, the sigils of a query text are each followed by a name
that goes as far as it can; these names are the keys of the parameters, in the order of the map and
none of them twice, and the keys stand for the operands of the condition, in the order of the
condition.
-/
import QueryMethods.Proofs.Filter.Operands
import QueryMethods.Proofs.Grammar.Clean

namespace QueryMethods

/-! ## References in a text -/

/-- The references of a text from left to right, each a sigil and the longest name after it. A sigil
without a name after it counts, too. -/
def references (sigil : Char) : List Char → List String
  | [] => []
  | c :: r =>
    if c = sigil then
      String.ofList (c :: r.takeWhile Params.isNameChar) ::
        references sigil (r.dropWhile Params.isNameChar)
    else references sigil r
termination_by s => s.length
decreasing_by
  · have := (List.dropWhile_sublist (l := r) Params.isNameChar).length_le
    simp only [List.length_cons]
    omega
  · simp

theorem references_text {sigil : Char} {s : List Char} (h : sigil ∉ s) (r : List Char) :
    references sigil (s ++ r) = references sigil r := by
  induction s with
  | nil => rfl
  | cons c s ih =>
    obtain ⟨hc, hs⟩ := not_or.1 (mt List.mem_cons.2 h)
    rw [List.cons_append, references, if_neg (Ne.symm hc), ih hs]

theorem references_name {sigil : Char} {name r : List Char}
    (hname : ∀ c ∈ name, Params.isNameChar c) (htake : r.takeWhile Params.isNameChar = [])
    (hdrop : r.dropWhile Params.isNameChar = r) :
    references sigil (sigil :: (name ++ r)) = String.ofList (sigil :: name) :: references sigil r := by
  rw [references, if_pos rfl, List.takeWhile_append_of_pos hname,
    List.dropWhile_append_of_pos hname, htake, hdrop, List.append_nil]

/-- A text that is one reference with a sigil or has none, and the references in it. -/
inductive Mentions (sigil : Char) (text : String) : List String → Prop
  | nothing (htext : sigil ∉ text.toList) : Mentions sigil text []
  | name {name : List Char} (htext : text.toList = sigil :: name)
      (hname : ∀ c ∈ name, Params.isNameChar c) : Mentions sigil text [text]

theorem Mentions.of_prefixed {sigil : String} {c : Char} (hc : sigil.toList = [c]) {name : String}
    (hname : ∀ c ∈ name.toList, Params.isNameChar c) : Mentions c (sigil ++ name) [sigil ++ name] := by
  refine .name ?_ hname
  rw [String.toList_append, hc]
  rfl

/-! ## References in a rendered template -/

/-- The references in a piece, given those of slots and of columns. -/
def Piece.mentions (ofSlot ofColumn : String → List String) : Piece → List String
  | .text _ => []
  | .aliased column => ofColumn column
  | .slot name _ => ofSlot name

namespace Template

variable {refers : Char → Bool} {sigil : Char} {t : Template} {ofSlot ofColumn : String → List String}

theorem mentions_slots (name : String → String) (t : Template) :
    t.flatMap (Piece.mentions (fun hint => [name hint]) fun _ => []) =
      (t.slots.map Prod.fst).map name := by
  induction t with
  | nil => rfl
  | cons p t ih => cases p <;> simp [Piece.mentions, ih]

theorem mentions_columns (name : String → String) (t : Template) :
    t.flatMap (Piece.mentions (fun _ => []) fun column => [name column]) = t.columns.map name := by
  induction t with
  | nil => rfl
  | cons p t ih => cases p <;> simp [Piece.mentions, ih]

variable (slot column : String → String)

theorem references_mentions {text : String} {found : List String} (h : Mentions sigil text found)
    (hopens : Opens t) :
    references sigil (text.toList ++ (render slot column t).toList) =
      found ++ references sigil (render slot column t).toList := by
  cases h with
  | nothing htext => exact references_text htext _
  | @name name htext hname =>
    obtain ⟨htake, hdrop⟩ := takeWhile_render slot column hopens
    rw [htext, List.cons_append, references_name hname htake hdrop, ← htext, String.ofList_toList]
    rfl

/-- The references in a rendered template are those of its slots and columns, as its texts have no
sigil and no name runs on into them. -/
theorem references_render (hclean : t.Clean refers) (hsigil : refers sigil = true)
    (hslot : ∀ name v, .slot name v ∈ t → Mentions sigil (slot name) (ofSlot name))
    (hcolumn : ∀ name, .aliased name ∈ t → Mentions sigil (column name) (ofColumn name)) :
    references sigil (render slot column t).toList = t.flatMap (Piece.mentions ofSlot ofColumn) := by
  induction t with
  | nil => simp [render, references]
  | cons p t ih =>
    have hrest (hc : Clean refers t) :
        references sigil (render slot column t).toList =
          t.flatMap (Piece.mentions ofSlot ofColumn) :=
      ih hc (fun name v h => hslot name v (List.mem_cons_of_mem p h))
        fun name h => hcolumn name (List.mem_cons_of_mem p h)
    rw [List.flatMap_cons]
    cases p with
    | text s =>
      obtain ⟨hsilent, hc⟩ := hclean
      have hs : sigil ∉ s.toList := fun hmem => by
        rw [hsilent sigil hmem] at hsigil
        cases hsigil
      rw [render_text, String.toList_append, references_text hs, hrest hc]
      rfl
    | aliased name =>
      obtain ⟨-, hopens, hc⟩ := hclean
      have hname := hcolumn name List.mem_cons_self
      rw [render_aliased, String.toList_append, references_mentions slot column hname hopens,
        hrest hc]
      rfl
    | slot name v =>
      obtain ⟨hopens, hc⟩ := hclean
      have hname := hslot name v List.mem_cons_self
      rw [render_slot, String.toList_append, references_mentions slot column hname hopens, hrest hc]
      rfl

end Template

/-! ## Named parameters -/

/-- A query text with named parameters that stand for given values. -/
structure Params.BoundByName (sigil : Char) (query : String) (entries : Entries Value)
    (values : List Value) : Prop where
  /-- The references of the text are to the keys, in the order of the map. -/
  references : references sigil query.toList = entries.keys.map (String.singleton sigil ++ ·)
  /-- No value was put in the place of another. -/
  nodup : entries.keys.Nodup
  identifiers : ∀ key ∈ entries.keys, Placeholder.IsIdentifier key
  lookup : (entries.keys.map fun key => entries.lookup key) = values.map some

theorem Marking.bound_fill {sigil : String} {c : Char} (hc : sigil.toList = [c]) (hne : c ≠ '#')
    {t : Template} (hclean : t.Clean (refers (.named sigil))) (projection : List Template) :
    ∃ query entries, fill (.named sigil) t projection = .text query (.named entries) ∧
      Params.BoundByName c query entries t.values := by
  have hsigil : refers (.named sigil) c = true := by
    rw [refers, hc, beq_self_eq_true]
  have hcolumns : t.columns = [] := by
    refine Template.columns_of_clean hclean ?_
    rw [refers, hc]
    simpa using hne
  have hnodup := Template.nodup_slotNames t []
  refine ⟨_, _, fill_named sigil t projection, ?_, hnodup, fun key hkey => ?_, ?_⟩
  · have hclean : (t.allot Placeholder.fresh []).Clean (refers (.named sigil)) :=
      (Template.clean_allot t []).2 hclean
    have hsingleton : String.singleton c = sigil := by
      rw [← String.toList_inj, String.toList_singleton, hc]
    rw [hsingleton, Template.references_render _ _ hclean hsigil, Template.mentions_slots]
    · rfl
    · intro name v hmem
      exact .of_prefixed hc (Template.isNameChar_of_mem_slots (Template.mem_slots hmem))
    · intro name hmem
      -- The sigil is not that of aliases, so no column is aliased.
      have := Template.mem_columns hmem
      rw [Template.columns_allot, hcolumns] at this
      cases this
  · exact Template.isIdentifier_of_mem_slotNames hkey
  · rw [Entries.map_lookup_keys hnodup]
    exact congrArg (List.map some) (Template.values_allot Placeholder.fresh t [])

/-- The sigil of a dialect with named parameters, where it has one. -/
def Dialect.sigil? : Dialect → Option Char
  | .atNamed | .searchIndex => some '@'
  | .dollarNamed => some '$'
  | .relationalNamed => some ':'
  | _ => none

namespace Grammar

variable {d : Dialect} {sigil : Char} {c : Condition} {t : Template}

/-- Where no field has the sigil, all that a sigil begins is a reference. -/
theorem clean_named (hd : d.sigil? = some sigil)
    (hfields : ∀ k ∈ c.comparisons, sigil ∉ k.field.toList)
    (h : d.grammar.template false c = .ok t) : t.Clean d.marking.refers := by
  have hq := d.quiet_refers
  have hsilent : ∀ k ∈ c.comparisons, Silent d.marking.refers k.field := by
    intro k hk x hx
    have hne : sigil ≠ x := by
      rintro rfl
      exact hfields k hk hx
    cases d with
    | atNamed | dollarNamed | relationalNamed | searchIndex =>
      cases hd
      simpa [Dialect.marking, Marking.refers] using hne
    | _ => cases hd
  cases d with
  | atNamed => exact clean_template hq rfl rfl (clean_atNamed hq (hq.silent rfl)) hsilent h
  | dollarNamed => exact clean_template hq rfl rfl (clean_dollarNamed hq (hq.silent rfl)) hsilent h
  | relationalNamed => exact clean_template hq rfl rfl (clean_relationalNamed hq) hsilent h
  | searchIndex => exact clean_template hq rfl rfl (clean_searchIndex hq rfl) hsilent h
  | _ => cases hd

end Grammar

namespace Condition

/-- A dialect with named parameters binds every operand of a condition to the reference in its place,
if the sigil of the dialect is in no field; letters, digits, underscores and dots are no sigils. -/
theorem bound_toFilter {d : Dialect} {sigil : Char} (hd : d.sigil? = some sigil) {c : Condition}
    (hfields : ∀ k ∈ c.comparisons, sigil ∉ k.field.toList) {projection : List String} {f : Filter}
    (hf : c.toFilter d projection = .ok f) :
    ∃ query entries, f = .text query (.named entries) ∧
      Params.BoundByName sigil query entries (c.values d) := by
  obtain ⟨t, ht, rfl⟩ := ok_of_map hf
  have hclean := Grammar.clean_named hd hfields ht
  rw [← Grammar.values_template ht]
  cases d with
  | atNamed | searchIndex =>
    cases hd
    exact Marking.bound_fill (rfl : "@".toList = ['@']) (by decide) hclean _
  | dollarNamed =>
    cases hd
    exact Marking.bound_fill (rfl : "$".toList = ['$']) (by decide) hclean _
  | relationalNamed =>
    cases hd
    exact Marking.bound_fill (rfl : ":".toList = [':']) (by decide) hclean _
  | _ => cases hd

/-- Fields whose placeholders are near to each other. -/
def crowded : Condition :=
  .junction .and [.compare "age" .equal (.int 1), .compare "age" .greaterThan (.int 2),
    .compare "age_1" .like (.str "A_a%"), .between "age" (.int 3) (.int 4),
    .junction .or [.compare "age_lo" .oneOf (.list [.str "x", .null]),
      .not (.junction .and [.compare "a.b" .equal .null, .compare "a_b" .equal (.bool true)])]]

theorem bound_crowded :
    Dialect.sigil? .searchIndex = some '@' ∧ (∀ k ∈ crowded.comparisons, '@' ∉ k.field.toList) ∧
      ∃ f, crowded.toFilter .searchIndex [] = .ok f ∧
        ∃ query entries, f = .text query (.named entries) ∧
          Params.BoundByName '@' query entries (crowded.values .searchIndex) := by
  have hfields : ∀ k ∈ crowded.comparisons, '@' ∉ k.field.toList := by
    simp [crowded, comparisons, comparisonsAll, compare, between]
  exact ⟨rfl, hfields, _, rfl, bound_toFilter (d := .searchIndex) rfl hfields rfl⟩

end Condition

end QueryMethods
