/-
The symbols of a filter: the characters of its text, with each reference replaced by what it refers
to. A reference is a sigil and the longest name after it, to be looked up in the parameters, or a
question mark, which takes the next positional value. Following the references of a filled template
gives the template back, as long as its own texts have no sigil and no name runs on into them.
-/
import QueryMethods.Proofs.Filter.Allotment

namespace QueryMethods

/-! ## Symbols -/

/-- What a text is made of once its references are followed. -/
inductive Symbol where
  | char (c : Char)
  | column (name : String)
  | value (v : Value)

namespace Symbol

/-- A text as the symbols of its characters. -/
def ofText (s : String) : List Symbol :=
  s.toList.map .char

/-- Follows the references by name. What a sigil finds is given name by name. -/
def follow (find? : Char → Option (String → Option Symbol)) : List Char → Option (List Symbol)
  | [] => some []
  | c :: r =>
    match find? c with
    | none => (.char c :: ·) <$> follow find? r
    | some find =>
      match find (String.ofList (r.takeWhile Params.isNameChar)) with
      | none => none
      | some s => (s :: ·) <$> follow find? (r.dropWhile Params.isNameChar)
termination_by s => s.length
decreasing_by
  · simp
  · have := (List.dropWhile_sublist (l := r) Params.isNameChar).length_le
    simp only [List.length_cons]
    omega

/-- Puts the values in the places of the question marks, of which there are as many. -/
def fillMarks (vs : List Value) : List Char → Option (List Symbol)
  | [] => if vs.isEmpty then some [] else none
  | c :: r =>
    if c = '?' then
      match vs.head? with
      | none => none
      | some v => (.value v :: ·) <$> fillMarks vs.tail r
    else (.char c :: ·) <$> fillMarks vs r

end Symbol

namespace Marking

/-- The characters that begin a reference. -/
def refers : Marking → Char → Bool
  | .named sigil, c => sigil.toList == [c]
  | .positional, c => c == '?'
  | .tables, c => c == '#' || c == ':'

/-- What the sigils of named parameters find. -/
def findNamed? (sigil : String) (entries : Entries Value) (c : Char) :
    Option (String → Option Symbol) :=
  if sigil.toList == [c] then some fun name => .value <$> entries.lookup name else none

/-- What the sigils of an item store's filter find. -/
def findItem? (f : ItemFilter) (c : Char) : Option (String → Option Symbol) :=
  if c = '#' then some fun name => .column <$> f.names.lookup ("#" ++ name)
  else if c = ':' then some fun name => .value <$> f.values.lookup (":" ++ name)
  else none

/-- The symbols of a filter that was marked in this way. -/
def symbols? : Marking → Filter → Option (List Symbol)
  | .named sigil, .text query (.named entries) =>
    Symbol.follow (findNamed? sigil entries) query.toList
  | .positional, .text query (.positional values) => Symbol.fillMarks values query.toList
  | .tables, .item f => Symbol.follow (findItem? f) f.filter.toList
  | _, _ => none

end Marking

/-! ## Templates -/

/-- The symbols of a piece, in which a slot is its value. -/
def Piece.symbols : Piece → List Symbol
  | .text s => Symbol.ofText s
  | .aliased column => [.column column]
  | .slot _ v => [.value v]

namespace Template

/-- The symbols of a template, piece by piece. -/
def symbols (t : Template) : List Symbol :=
  t.flatMap Piece.symbols

@[simp] theorem symbols_nil : symbols [] = [] := rfl

@[simp] theorem symbols_cons (p : Piece) (t : Template) : symbols (p :: t) = p.symbols ++ symbols t :=
  rfl

@[simp] theorem symbols_append (t u : Template) : symbols (t ++ u) = symbols t ++ symbols u :=
  List.flatMap_append

/-- A template before which a name ends. -/
def Opens : Template → Prop
  | [] => True
  | .text s :: t =>
    match s.toList with
    | [] => Opens t
    | c :: _ => Params.isNameChar c = false
  | _ => False

theorem opens_text {s : String} {c : Char} {r : List Char} (hs : s.toList = c :: r)
    (hc : Params.isNameChar c = false) (t : Template) : Opens (.text s :: t) := by
  rw [Opens, hs]
  exact hc

/-- The texts of the template have no character that begins a reference, and every reference is at
the end or followed by a text before which its name ends. Columns are aliased only where aliases are
references. -/
def Clean (refers : Char → Bool) : Template → Prop
  | [] => True
  | .text s :: t => (∀ c ∈ s.toList, refers c = false) ∧ Clean refers t
  | .aliased _ :: t => refers '#' = true ∧ Opens t ∧ Clean refers t
  | .slot _ _ :: t => Opens t ∧ Clean refers t

theorem opens_append {t u : Template} (h : Opens t) (hu : Opens u) : Opens (t ++ u) := by
  induction t with
  | nil => exact hu
  | cons p t ih =>
    cases p with
    | text s =>
      rw [List.cons_append, Opens]
      rw [Opens] at h
      cases hs : s.toList with
      | nil => rw [hs] at h; exact ih h
      | cons c r => rw [hs] at h; exact h
    | _ => exact h.elim

theorem clean_append {refers : Char → Bool} {t u : Template} (h : Clean refers t)
    (hu : Clean refers u) (hopens : Opens u) : Clean refers (t ++ u) := by
  induction t with
  | nil => exact hu
  | cons p t ih =>
    cases p with
    | text s => exact ⟨h.1, ih h.2⟩
    | aliased column => exact ⟨h.1, opens_append h.2.1 hopens, ih h.2.2⟩
    | slot name v => exact ⟨opens_append h.1 hopens, ih h.2⟩

theorem columns_of_clean {refers : Char → Bool} {t : Template} (h : Clean refers t)
    (hrefers : refers '#' = false) : t.columns = [] := by
  induction t with
  | nil => rfl
  | cons p t ih =>
    cases p with
    | text s => exact ih h.2
    | aliased column =>
      rw [h.1] at hrefers
      cases hrefers
    | slot name v => exact ih h.2

/-! ## Allotment -/

variable {choose : List String → String → String}

theorem symbols_allot (t : Template) : ∀ taken, (t.allot choose taken).symbols = t.symbols := by
  induction t with
  | nil => intro taken; rfl
  | cons p t ih => intro taken; cases p <;> simp [allot, Piece.symbols, ih]

theorem opens_allot (t : Template) (taken : List String) : Opens (t.allot choose taken) ↔ Opens t := by
  induction t with
  | nil => exact Iff.rfl
  | cons p t ih =>
    cases p with
    | text s =>
      rw [allot, Opens, Opens]
      · cases s.toList with
        | nil => exact ih
        | cons c r => exact Iff.rfl
      · intro name v h
        cases h
    | _ => exact Iff.rfl

theorem clean_allot {refers : Char → Bool} (t : Template) : ∀ taken,
    Clean refers (t.allot choose taken) ↔ Clean refers t := by
  induction t with
  | nil => intro taken; exact Iff.rfl
  | cons p t ih =>
    intro taken
    cases p with
    | text s => exact and_congr_right' (ih taken)
    | aliased column => exact and_congr_right' (and_congr (opens_allot t taken) (ih taken))
    | slot name v => exact and_congr (opens_allot t _) (ih _)

/-! ## Rendered templates -/

variable (slot column : String → String) {t : Template}

theorem toList_render (p : Piece) (t : Template) :
    (render slot column (p :: t)).toList =
      (render slot column [p]).toList ++ (render slot column t).toList := by
  simp [render, String.toList_join]

/-- No name runs on into what a template that opens becomes. -/
theorem takeWhile_render (h : Opens t) :
    (render slot column t).toList.takeWhile Params.isNameChar = [] ∧
      (render slot column t).toList.dropWhile Params.isNameChar = (render slot column t).toList := by
  induction t with
  | nil => exact ⟨rfl, rfl⟩
  | cons p t ih =>
    cases p with
    | text s =>
      have htext : (render slot column [.text s]).toList = s.toList := by simp [render]
      rw [toList_render, htext]
      rw [Opens] at h
      cases hs : s.toList with
      | nil => rw [hs] at h; exact ih h
      | cons c r => rw [hs] at h; simp [h]
    | _ => exact h.elim

/-- A text that refers to a symbol: a sigil, name characters and nothing else. -/
def Refers (find? : Char → Option (String → Option Symbol)) (text : String) (s : Symbol) : Prop :=
  ∃ sigil find name, text.toList = sigil :: name ∧ find? sigil = some find ∧
    (∀ c ∈ name, Params.isNameChar c) ∧ find (String.ofList name) = some s

theorem follow_reference {find? : Char → Option (String → Option Symbol)} {text : String} {s : Symbol}
    (h : Refers find? text s) (hopens : Opens t) :
    Symbol.follow find? (text.toList ++ (render slot column t).toList) =
      (s :: ·) <$> Symbol.follow find? (render slot column t).toList := by
  obtain ⟨sigil, find, name, htext, hfind, hname, hs⟩ := h
  obtain ⟨htake, hdrop⟩ := takeWhile_render slot column hopens
  rw [htext, List.cons_append, Symbol.follow, hfind]
  simp only [List.takeWhile_append_of_pos hname, List.dropWhile_append_of_pos hname, htake, hdrop,
    List.append_nil, hs]

theorem follow_text {find? : Char → Option (String → Option Symbol)} {cs : List Char}
    (h : ∀ c ∈ cs, find? c = none) (r : List Char) :
    Symbol.follow find? (cs ++ r) = (cs.map .char ++ ·) <$> Symbol.follow find? r := by
  induction cs with
  | nil => cases h : Symbol.follow find? r <;> simp [h]
  | cons c cs ih =>
    rw [List.cons_append, Symbol.follow, h c List.mem_cons_self,
      ih fun x hx => h x (List.mem_cons_of_mem c hx)]
    cases Symbol.follow find? r <;> rfl

/-- Following the references of a rendered template gives its symbols. -/
theorem follow_render {find? : Char → Option (String → Option Symbol)}
    (hclean : Clean (fun c => (find? c).isSome) t)
    (hslot : ∀ name v, .slot name v ∈ t → Refers find? (slot name) (.value v))
    (hcolumn : ∀ name, .aliased name ∈ t → Refers find? (column name) (.column name)) :
    Symbol.follow find? (render slot column t).toList = some t.symbols := by
  induction t with
  | nil => simp [render, Symbol.follow]
  | cons p t ih =>
    have hrest (hc : Clean (fun c => (find? c).isSome) t) :
        Symbol.follow find? (render slot column t).toList = some (symbols t) :=
      ih hc (fun name v h => hslot name v (List.mem_cons_of_mem p h))
        fun name h => hcolumn name (List.mem_cons_of_mem p h)
    rw [toList_render]
    -- A text is gone through character by character; an alias or a slot is one reference.
    cases p with
    | text s =>
      obtain ⟨hs, hc⟩ := hclean
      have hnone : ∀ c ∈ s.toList, find? c = none := fun c h =>
        Option.isSome_eq_false_iff.1 (hs c h) |> Option.isNone_iff_eq_none.1
      simp only [render, List.map_cons, List.map_nil, String.toList_join, List.flatMap_cons,
        List.flatMap_nil, List.append_nil] at hrest ⊢
      rw [follow_text hnone, hrest hc]
      rfl
    | aliased name =>
      obtain ⟨-, hopens, hc⟩ := hclean
      have := follow_reference slot column (hcolumn name List.mem_cons_self) hopens
      rw [hrest hc] at this
      simpa [render, String.toList_join, Piece.symbols] using this
    | slot name v =>
      obtain ⟨hopens, hc⟩ := hclean
      have := follow_reference slot column (hslot name v List.mem_cons_self) hopens
      rw [hrest hc] at this
      simpa [render, String.toList_join, Piece.symbols] using this

theorem fillMarks_text {vs : List Value} {cs : List Char} (h : ∀ c ∈ cs, (c == '?') = false)
    (r : List Char) : Symbol.fillMarks vs (cs ++ r) = (cs.map .char ++ ·) <$> Symbol.fillMarks vs r := by
  induction cs with
  | nil => cases h : Symbol.fillMarks vs r <;> simp [h]
  | cons c cs ih =>
    have hc : c ≠ '?' := fun heq => by simpa [heq] using h c List.mem_cons_self
    rw [List.cons_append, Symbol.fillMarks, if_neg hc, ih fun x hx => h x (List.mem_cons_of_mem c hx)]
    cases Symbol.fillMarks vs r <;> rfl

/-- Filling in the values of a rendered template gives its symbols. -/
theorem fillMarks_render (hclean : Clean (fun c => c == '?') t) :
    Symbol.fillMarks (t.slots.map Prod.snd) (render (fun _ => "?") id t).toList =
      some t.symbols := by
  induction t with
  | nil => rfl
  | cons p t ih =>
    rw [toList_render]
    cases p with
    | text s =>
      simp only [render, List.map_cons, List.map_nil, String.toList_join, List.flatMap_cons,
        List.flatMap_nil, List.append_nil] at ih ⊢
      rw [fillMarks_text hclean.1, slots_text, ih hclean.2]
      rfl
    | aliased name => cases hclean.1
    | slot name v =>
      have hmark : (render (fun _ => "?") id [.slot name v]).toList = ['?'] := by
        simp [render]
      rw [hmark, List.cons_append, slots_slot, List.map_cons, Symbol.fillMarks, if_pos rfl]
      simp only [List.head?_cons, List.tail_cons, List.nil_append, ih hclean.2]
      rfl

end Template

/-! ## Filters -/

namespace Marking

/-- Sigils are found where references begin. -/
theorem isSome_findNamed? (sigil : String) (entries : Entries Value) :
    (fun c => (findNamed? sigil entries c).isSome) = refers (.named sigil) := by
  funext c
  unfold findNamed? refers
  by_cases h : sigil.toList == [c]
  · rw [if_pos h]; exact h.symm
  · rw [if_neg h]; exact (Bool.eq_false_iff.2 h).symm

theorem isSome_findItem? (f : ItemFilter) : (fun c => (findItem? f c).isSome) = refers .tables := by
  funext c
  unfold findItem? refers
  by_cases hnumber : c = '#'
  · rw [if_pos hnumber, hnumber]; rfl
  · by_cases hcolon : c = ':'
    · rw [if_neg hnumber, if_pos hcolon, hcolon]; rfl
    · simp [hnumber, hcolon]

theorem refers_named {sigil name : String} {c : Char} {entries : Entries Value} {v : Value}
    (hc : sigil.toList = [c]) (hname : ∀ c ∈ name.toList, Params.isNameChar c)
    (hv : entries.lookup name = some v) :
    Template.Refers (findNamed? sigil entries) (sigil ++ name) (.value v) := by
  refine ⟨c, fun name => .value <$> entries.lookup name, name.toList, ?_, ?_, hname, ?_⟩
  · rw [String.toList_append, hc]; rfl
  · rw [findNamed?, hc, beq_self_eq_true]; rfl
  · rw [String.ofList_toList]
    show Symbol.value <$> entries.lookup name = _
    rw [hv]; rfl

theorem refers_value {f : ItemFilter} {name : String} {v : Value}
    (hname : ∀ c ∈ name.toList, Params.isNameChar c) (hv : f.values.lookup (":" ++ name) = some v) :
    Template.Refers (findItem? f) (":" ++ name) (.value v) := by
  refine ⟨':', _, name.toList, ?_, rfl, hname, ?_⟩
  · rw [String.toList_append]; rfl
  · rw [String.ofList_toList]
    show Symbol.value <$> f.values.lookup (":" ++ name) = _
    rw [hv]; rfl

theorem refers_column {f : ItemFilter} {name column : String}
    (hname : ∀ c ∈ name.toList, Params.isNameChar c)
    (hcolumn : f.names.lookup ("#" ++ name) = some column) :
    Template.Refers (findItem? f) ("#" ++ name) (.column column) := by
  refine ⟨'#', _, name.toList, ?_, rfl, hname, ?_⟩
  · rw [String.toList_append]; rfl
  · rw [String.ofList_toList]
    show Symbol.column <$> f.names.lookup ("#" ++ name) = _
    rw [hcolumn]; rfl

/-- The symbols of a filled template are those of the template, if every name has one character in
front, which is not that of aliases. -/
theorem symbols?_fill {m : Marking} {t : Template} (projection : List Template)
    (hclean : t.Clean m.refers)
    (hsigil : ∀ sigil, m = .named sigil → ∃ c, sigil.toList = [c] ∧ c ≠ '#') :
    m.symbols? (m.fill t projection) = some t.symbols := by
  cases m with
  | named sigil =>
    obtain ⟨c, hc, hne⟩ := hsigil sigil rfl
    -- The sigil is not that of aliases, so no column is aliased.
    have hcolumns : t.columns = [] := by
      apply Template.columns_of_clean hclean
      rw [refers, hc]
      simpa using hne
    rw [fill_named]
    simp only [symbols?]
    rw [Template.follow_render, Template.symbols_allot]
    · rw [isSome_findNamed?, Template.clean_allot]
      exact hclean
    · intro name v hmem
      have hslot := Template.mem_slots hmem
      exact refers_named hc (Template.isNameChar_of_mem_slots hslot)
        (Entries.lookup_of_mem (Template.nodup_slotNames t []) hslot)
    · intro name hmem
      have := Template.mem_columns hmem
      rw [Template.columns_allot, hcolumns] at this
      cases this
  | positional => exact Template.fillMarks_render hclean
  | tables =>
    rw [fill_tables]
    simp only [symbols?]
    rw [Template.follow_render, Template.symbols_allot]
    · rw [isSome_findItem?, Template.clean_allot]
      exact hclean
    · intro name v hmem
      have hslot := Template.mem_slots hmem
      refine refers_value (Template.isNameChar_of_mem_slots hslot) (Entries.lookup_of_mem ?_ ?_)
      · have := nodup_map_append ":" (Template.nodup_slotNames t [])
        simpa [Entries.keys, Function.comp_def] using this
      · exact List.mem_map.2 ⟨_, hslot, rfl⟩
    · intro column hmem
      have hcolumn : column ∈ t.columns ++ projection.flatMap Template.columns := by
        have := Template.mem_columns hmem
        rw [Template.columns_allot] at this
        exact List.mem_append_left _ this
      obtain ⟨name, halias, hname, hback⟩ := alias_spec hcolumn
      rw [halias]
      exact refers_column hname hback

end Marking

end QueryMethods
