/-
Spellings: the words of a name run together, all but the first with a capital, or put between
underscores. Reading a spelled name gives its words back in either style, and parsing it is parsing
the words.

Words are plain here: a lowercase letter and at least one more letter or digit, so that no capital
of a camel name stands beside another one.
-/
import QueryMethods.Name.Plan
import QueryMethods.Proofs.Name.Words
import QueryMethods.Proofs.Outcome

namespace QueryMethods.Name

/-! ## Spelling -/

/-- A lowercase letter followed by lowercase letters and digits, of which there is one at least. -/
def isPlainWord (w : String) : Bool :=
  match w.toList with
  | c :: r => c.isLower && !r.isEmpty && r.all isSmall
  | [] => false

/-- The word with a capital. -/
def capital (w : String) : String :=
  match w.toList with
  | c :: r => String.ofList (c.toUpper :: r)
  | [] => ""

/-- How a style writes a word that is not the first of a name. -/
def glyph : Style → String → String
  | .camel, w => capital w
  | .snake, w => w

/-- Words as a name: in camel style with a capital on each but the first, in snake style with
underscores between them. -/
def spell : Style → List String → String
  | .camel, [] => ""
  | .camel, w :: r => w ++ String.join (r.map capital)
  | .snake, ws => "_".intercalate ws

/-! ## Characters of plain words -/

theorem capital_spec {c : Char} (h : c.isLower) :
    c.toUpper.toLower = c ∧ c.toUpper.isUpper = true ∧ c.toUpper.isAlphanum = true ∧
      isSmall c.toUpper = false ∧ c.toUpper ≠ '_' := by
  have hall : ∀ c ∈ smallChars, c.isLower → c.toUpper.toLower = c ∧ c.toUpper.isUpper = true ∧
      c.toUpper.isAlphanum = true ∧ isSmall c.toUpper = false ∧ c.toUpper ≠ '_' :=
    List.all_iff_forall_prop.1 (by decide)
  exact hall c (mem_smallChars (isSmall_of_isLower h)) h

/-- A plain word as its first letter and the rest. -/
theorem isPlainWord_cases {w : String} (h : isPlainWord w) :
    ∃ c r, w.toList = c :: r ∧ c.isLower ∧ r ≠ [] ∧ ∀ x ∈ r, isSmall x := by
  unfold isPlainWord at h
  split at h
  · rename_i c r hw
    simp only [Bool.and_eq_true, Bool.not_eq_true', List.isEmpty_eq_false_iff, List.all_eq_true] at h
    exact ⟨c, r, hw, h.1.1, h.1.2, h.2⟩
  · cases h

theorem map_toLower {r : List Char} (h : ∀ x ∈ r, isSmall x) : r.map Char.toLower = r := by
  rw [List.map_congr_left fun x hx => (small_spec (h x hx)).1, List.map_id'']
  exact fun _ => rfl

theorem toList_toLower (w : String) : w.toLower.toList = w.toList.map Char.toLower :=
  String.toList_map

theorem toLower_eq_self {w : String} (h : isPlainWord w) : w.toLower = w := by
  obtain ⟨c, r, hw, hc, -, hr⟩ := isPlainWord_cases h
  rw [← String.toList_inj, toList_toLower, hw]
  exact map_toLower (List.forall_mem_cons.2 ⟨isSmall_of_isLower hc, hr⟩)

theorem toLower_capital {w : String} (h : isPlainWord w) : (capital w).toLower = w := by
  obtain ⟨c, r, hw, hc, -, hr⟩ := isPlainWord_cases h
  rw [← String.toList_inj, toList_toLower, capital, hw]
  simp only [String.toList_ofList, List.map_cons, (capital_spec hc).1, map_toLower hr]

theorem toLower_glyph (style : Style) {w : String} (h : isPlainWord w) :
    (glyph style w).toLower = w := by
  cases style with
  | camel => exact toLower_capital h
  | snake => exact toLower_eq_self h

theorem glyph_cases (style : Style) {w : String} (h : isPlainWord w) :
    ∃ c r, (glyph style w).toList = c :: r ∧ c.isAlphanum = true ∧ c ≠ '_' ∧ r ≠ [] ∧
      (∀ x ∈ r, isSmall x) ∧ (style = .camel → isSmall c = false) := by
  obtain ⟨c, r, hw, hc, hne, hr⟩ := isPlainWord_cases h
  cases style with
  | camel =>
    obtain ⟨-, -, halnum, hsmall, hund⟩ := capital_spec hc
    exact ⟨c.toUpper, r, by rw [glyph, capital, hw, String.toList_ofList], halnum, hund, hne, hr,
      fun _ => hsmall⟩
  | snake =>
    obtain ⟨-, -, halnum, hund⟩ := small_spec (isSmall_of_isLower hc)
    exact ⟨c, r, hw, halnum, hund, hne, hr, fun hf => by cases hf⟩

theorem ne_underscore {w : String} (h : isPlainWord w) {x : Char} (hx : x ∈ w.toList) : x ≠ '_' := by
  obtain ⟨c, r, hw, hc, -, hr⟩ := isPlainWord_cases h
  rw [hw] at hx
  rcases List.mem_cons.1 hx with rfl | hx
  · exact (small_spec (isSmall_of_isLower hc)).2.2.2
  · exact (small_spec (hr x hx)).2.2.2

theorem glyph_ne_underscore (style : Style) {w : String} (h : isPlainWord w) {x : Char}
    (hx : x ∈ (glyph style w).toList) : x ≠ '_' := by
  obtain ⟨c, r, hw, -, hc, -, hr, -⟩ := glyph_cases style h
  rw [hw] at hx
  rcases List.mem_cons.1 hx with rfl | hx
  · exact hc
  · exact (small_spec (hr x hx)).2.2.2

/-! ## The text of a spelled name -/

/-- What a style puts before each word but the first. -/
def joint : Style → List Char
  | .camel => []
  | .snake => ['_']

/-- The words of a name after the first. -/
def continued (style : Style) (ws : List String) : List Char :=
  ws.flatMap fun w => joint style ++ (glyph style w).toList

theorem toList_spell (style : Style) (w : String) (r : List String) :
    (spell style (w :: r)).toList = w.toList ++ continued style r := by
  cases style with
  | camel =>
    simp [spell, continued, joint, glyph, String.toList_join, List.flatMap_map]
  | snake =>
    rw [spell, String.toList_intercalate]
    induction r generalizing w with
    | nil => simp [continued, List.intercalate_singleton]
    | cons v r ih =>
      rw [List.map_cons, List.map_cons, List.intercalate_cons_cons, ← List.map_cons, ih v]
      simp [continued, joint, glyph]

/-- A word that is continued ends where it should. -/
theorem head_continued (style : Style) {ws : List String} (h : ∀ w ∈ ws, isPlainWord w) (c : Char)
    (hc : (continued style ws).head? = some c) : isSmall c = false := by
  cases ws with
  | nil => cases hc
  | cons w ws =>
    obtain ⟨c', r, hw, -, -, -, -, hcamel⟩ := glyph_cases style (h w List.mem_cons_self)
    rw [continued, List.flatMap_cons, hw] at hc
    cases style with
    | camel => cases hc; exact hcamel rfl
    | snake => cases hc; decide

/-! ## Reading words -/

theorem isWord_glyph (style : Style) {w : String} (h : isPlainWord w) (after : List Char) :
    IsWord after (glyph style w).toList := by
  obtain ⟨c, r, hw, hc, -, hr⟩ := isPlainWord_cases h
  cases style with
  | camel =>
    rw [glyph, capital, hw, String.toList_ofList]
    exact .capital (capital_spec hc).2.1 hr
  | snake =>
    rw [glyph, hw]
    exact .small (List.cons_ne_nil c r) (List.forall_mem_cons.2 ⟨isSmall_of_isLower hc, hr⟩)

theorem endsBefore_glyph (style style' : Style) {w : String} {ws : List String} (h : isPlainWord w)
    (hws : ∀ v ∈ ws, isPlainWord v) : EndsBefore (continued style' ws) (glyph style w).toList where
  small := head_continued style' hws
  capital hall := by
    -- The second character is a small one.
    obtain ⟨c, r, hw, -, -, hne, hr, -⟩ := glyph_cases style h
    obtain ⟨x, hx⟩ := List.exists_mem_of_ne_nil r hne
    have hupper := hall x (hw ▸ List.mem_cons_of_mem c hx)
    rw [(small_spec (hr x hx)).2.1] at hupper
    cases hupper

/-- The words after the first stand as they are written. -/
theorem laid_continued (style : Style) {ws : List String} (h : ∀ w ∈ ws, isPlainWord w)
    (position : Nat) :
    ∃ ts, Laid position ts (continued style ws) ∧ ts.map Word.text = ws.map (glyph style) := by
  induction ws generalizing position with
  | nil => exact ⟨[], .nil nofun, rfl⟩
  | cons w ws ih =>
    obtain ⟨hw, hws⟩ := List.forall_mem_cons.1 h
    have hus : ∀ x ∈ joint style, x = '_' := by cases style <;> simp [joint]
    obtain ⟨ts, hts, htext⟩ := ih hws (position + (joint style).length + (glyph style w).toList.length)
    refine ⟨⟨position + (joint style).length, glyph style w⟩ :: ts, ?_, ?_⟩
    · rw [continued, List.flatMap_cons, List.append_assoc]
      exact .cons hus rfl (isWord_glyph style hw _) (endsBefore_glyph style style hw hws) hts
    · rw [List.map_cons, List.map_cons, htext]

/-- The words of a spelled name are the words it was spelled from. -/
theorem words_spell (style : Style) {w : String} {r : List String} (hw : isPlainWord w)
    (hr : ∀ v ∈ r, isPlainWord v) :
    ∃ first rest, words (spell style (w :: r)) = .ok (first :: rest) ∧ first.text = w ∧
      rest.map Word.text = r.map (glyph style) := by
  obtain ⟨ts, hts, htext⟩ := laid_continued style hr w.toList.length
  refine ⟨⟨0, w⟩, ts, words_eq_ok_iff_laid.2 ⟨?_, List.cons_ne_nil _ _⟩, rfl, htext⟩
  rw [toList_spell, ← List.nil_append (w.toList ++ continued style r)]
  rw [← Nat.zero_add w.toList.length] at hts
  exact .cons nofun rfl (isWord_glyph .snake hw _) (endsBefore_glyph .snake style hw hr) hts

/-- A name of two words at least shows its style. -/
theorem style_spell (style : Style) {w : String} {r : List String} (hw : isPlainWord w)
    (hr : ∀ v ∈ r, isPlainWord v) (hne : r ≠ []) : Name.style (spell style (w :: r)) = style := by
  have hund : '_' ∈ (spell style (w :: r)).toList ↔ style = .snake := by
    rw [toList_spell, List.mem_append]
    cases style with
    | camel =>
      constructor
      · rintro (h | h)
        · exact absurd rfl (ne_underscore hw h)
        · obtain ⟨v, hv, hmem⟩ := List.mem_flatMap.1 h
          exact absurd rfl (glyph_ne_underscore .camel (hr v hv) hmem)
      · rintro ⟨⟩
    | snake =>
      constructor
      · intro _
        rfl
      · intro _
        right
        cases r with
        | nil => exact absurd rfl hne
        | cons v r => exact List.mem_cons_self
  rw [Name.style, Scanner.ofName]
  cases style <;> simp [hund]

end QueryMethods.Name
