/-
Queries with their operands inline. The query text of a search index is the condition written out
with a reference in the place of each operand; rendered inline it is the condition written out with
the literal of the operand there, a pattern between slashes as the body of a regular expression and
all else as a term. Read as a query string, it shows each operand as the one term that it is, and
each pattern as one regular expression, between the same signs as ever.
-/
import QueryMethods.Proofs.Filter.Operands
import QueryMethods.Proofs.Filter.Splicing
import QueryMethods.Proofs.Reading.Fields
import QueryMethods.Proofs.Reading.Marks
import QueryMethods.Proofs.Text.QueryString

namespace QueryMethods

/-! ## Fragments of a query -/

/-- A character, an operand, or a pattern between slashes. -/
inductive Fragment where
  | char (c : Char)
  | operand (v : Value)
  | pattern (p : String)

namespace Fragment

/-- A text as the fragments of its characters. -/
def ofText (s : String) : List Fragment :=
  s.toList.map .char

/-- The value that stands for the fragment. -/
def value? : Fragment → Option Value
  | .char _ => none
  | .operand v => some v
  | .pattern p => some (.str p)

/-- The literal of the fragment; that of a pattern is the body of a regular expression. -/
def literal? : Fragment → Option (List Char)
  | .char _ => none
  | .operand v => some v.literal.toList
  | .pattern p => some (Value.str p).regexLiteral.toList

/-- The signs that the fragment is read as. -/
def signs : Fragment → List Sign
  | .char c => [.char c]
  | .operand v => v.signs
  | .pattern p => [.regex p]

/-- The text of fragments, with the given texts in the places of operands and patterns from left to
right. -/
def write : List (List Char) → List Fragment → List Char
  | _, [] => []
  | texts, .char c :: r => c :: write texts r
  | texts, .operand _ :: r => texts.headD [] ++ write texts.tail r
  | texts, .pattern _ :: r => '/' :: (texts.headD [] ++ '/' :: write texts.tail r)

end Fragment

open Fragment in
/-- The fragments of a comparison. A pattern is a regular expression, which finds the fields with a part that
the pattern stands for (`Regex.read?_unanchored` with `Regex.finds_unanchored_iff`). -/
def Comparison.sought (k : Comparison) : List Fragment :=
  ofText k.field ++ ofText ":" ++
  match k.op, k.operand with
  | _, .range lo hi => ofText "[" ++ .operand lo :: (ofText " TO " ++ .operand hi :: ofText "]")
  | .greaterThan, .value v => ofText "\x7b" ++ .operand v :: ofText " TO *\x7d"
  | .greaterEqual, .value v => ofText "[" ++ .operand v :: ofText " TO *]"
  | .lessThan, .value v => ofText "\x7b* TO " ++ .operand v :: ofText "\x7d"
  | .lessEqual, .value v => ofText "[* TO " ++ .operand v :: ofText "]"
  | .oneOf, .value v =>
    ofText "(" ++ (ofText " OR ").intercalate ((v.items?.getD []).map fun item => [.operand item])
      ++ ofText ")"
  | .like, .value v => [.pattern (PatternStyle.unanchored.write v.text?)]
  | _, .value v => [.operand v]

namespace Condition

mutual

/-- The fragments of a condition; a junction in a junction stands in parentheses. -/
def sought (nested : Bool) : Condition → List Fragment
  | .comparison k => k.sought
  | .junction j cs =>
    let inner := (Fragment.ofText (" " ++ j.name ++ " ")).intercalate (soughts cs)
    if nested then Fragment.ofText "(" ++ inner ++ Fragment.ofText ")" else inner
  | .not c => Fragment.ofText "NOT (" ++ sought false c ++ Fragment.ofText ")"

/-- The fragments of each of a junction's children. -/
def soughts : List Condition → List (List Fragment)
  | [] => []
  | c :: cs => sought true c :: soughts cs

end

theorem soughts_eq_map (cs : List Condition) : soughts cs = cs.map (sought true) := by
  induction cs with
  | nil => rfl
  | cons c cs ih => rw [soughts, ih, List.map_cons]

end Condition

/-! ## Clean fragments -/

namespace Fragment

/-- The characters that begin references, phrases and regular expressions. -/
def openers : List Char := ['@', '"', '/']

/-- A text without such characters. -/
def isFree (s : String) : Bool :=
  s.toList.all fun c => !openers.contains c

/-- Fragments before which a name ends. -/
def Opens : List Fragment → Prop
  | [] => True
  | .char c :: _ => Params.isNameChar c = false
  | _ => False

/-- No character is a delimiter or begins a reference, every name has its end after it, and every
pattern is a regular expression that goes between slashes. -/
def Clean : List Fragment → Prop
  | [] => True
  | .char c :: r => c ∉ openers ∧ Clean r
  | .operand _ :: r => Opens r ∧ Clean r
  | .pattern p :: r => Sign.IsBody p.toList ∧ Opens r ∧ Clean r

variable {ps qs : List Fragment}

theorem Opens.append (h : Opens ps) (hq : Opens qs) : Opens (ps ++ qs) := by
  cases ps with
  | nil => exact hq
  | cons p ps => cases p <;> exact h

theorem Clean.append (h : Clean ps) (hq : Clean qs) (ho : Opens qs) : Clean (ps ++ qs) := by
  induction ps with
  | nil => exact hq
  | cons p ps ih =>
    cases p with
    | char c => exact ⟨h.1, ih h.2⟩
    | operand v => exact ⟨h.1.append ho, ih h.2⟩
    | pattern p => exact ⟨h.1, h.2.1.append ho, ih h.2.2⟩

/-- A text without delimiters and references may stand before any fragments. -/
theorem Clean.text {s : String} (h : isFree s) (hq : Clean qs) : Clean (ofText s ++ qs) := by
  unfold ofText
  unfold isFree at h
  generalize s.toList = cs at h ⊢
  induction cs with
  | nil => exact hq
  | cons c cs ih =>
    rw [List.all_cons, Bool.and_eq_true] at h
    exact ⟨by simpa using h.1, ih h.2⟩

theorem clean_ofText {s : String} (h : isFree s) : Clean (ofText s) := by
  have hclean : Clean (ofText s ++ []) := Clean.text h trivial
  rwa [List.append_nil] at hclean

theorem opens_text {s : String} {c : Char} {r : List Char} (hs : s.toList = c :: r)
    (hc : Params.isNameChar c = false) (qs : List Fragment) : Opens (ofText s ++ qs) := by
  rw [ofText, hs]
  exact hc

theorem clean_intercalate {s : String} (hs : isFree s)
    (ho : ∀ qs, Opens (ofText s ++ qs)) {groups : List (List Fragment)} (h : ∀ ps ∈ groups, Clean ps) :
    Clean ((ofText s).intercalate groups) := by
  induction groups with
  | nil => trivial
  | cons ps groups ih =>
    obtain ⟨hps, hgroups⟩ := List.forall_mem_cons.1 h
    cases groups with
    | nil =>
      rw [List.intercalate_singleton]
      exact hps
    | cons qs groups =>
      rw [List.intercalate_cons_cons, List.append_assoc]
      exact hps.append ((ih hgroups).text hs) (ho _)

/-- Fragments between two texts. -/
theorem Clean.between {s s' : String} (h : Clean ps) (hs : isFree s) (hs' : isFree s')
    (ho : Opens (ofText s')) :
    Clean (ofText s ++ ps ++ ofText s') := by
  rw [List.append_assoc]
  exact (h.append (clean_ofText hs') ho).text hs

/-- An operand between two texts. -/
theorem clean_operand {s s' : String} (v : Value) (hs : isFree s) (hs' : isFree s')
    (ho : Opens (ofText s')) : Clean (ofText s ++ .operand v :: ofText s') :=
  Clean.text hs ⟨ho, clean_ofText hs'⟩

end Fragment

/-- The fragments of a comparison are clean if its field is a name. -/
theorem Comparison.clean_sought {k : Comparison} (hfield : ∀ c ∈ k.field.toList, isFieldChar c) :
    Fragment.Clean k.sought := by
  have hloud : Fragment.openers.all loudChars.contains = true := by decide
  have hname : Fragment.isFree k.field := by
    refine List.all_eq_true.2 fun c hc => ?_
    have hquiet := not_mem_loudChars (hfield c hc)
    have hnot : c ∉ Fragment.openers := fun h => hquiet (by simpa using List.all_eq_true.1 hloud c h)
    simpa using hnot
  unfold sought
  rw [List.append_assoc]
  refine Fragment.Clean.text hname (Fragment.Clean.text rfl ?_)
  obtain ⟨field, op, operand⟩ := k
  cases operand with
  | range lo hi =>
    refine Fragment.Clean.text rfl ⟨rfl, Fragment.Clean.text rfl ⟨rfl, ?_⟩⟩
    exact Fragment.clean_ofText rfl
  | value v =>
    cases op with
    | equal | between => exact ⟨trivial, trivial⟩
    | greaterThan => exact Fragment.clean_operand v rfl rfl rfl
    | greaterEqual => exact Fragment.clean_operand v rfl rfl rfl
    | lessThan => exact Fragment.clean_operand v rfl rfl rfl
    | lessEqual => exact Fragment.clean_operand v rfl rfl rfl
    | like => exact ⟨Sign.isBody_write v.text?, trivial, trivial⟩
    | oneOf =>
      have hitems : Fragment.Clean ((Fragment.ofText " OR ").intercalate
          ((v.items?.getD []).map fun item => [.operand item])) := by
        refine Fragment.clean_intercalate (s := " OR ") rfl (fun _ => rfl) fun ps hps => ?_
        obtain ⟨item, -, rfl⟩ := List.mem_map.1 hps
        exact ⟨trivial, trivial⟩
      exact hitems.between rfl rfl rfl

namespace Condition

mutual

/-- The fragments of a condition are clean if its fields are names. -/
theorem clean_sought : ∀ (nested : Bool) (c : Condition),
    (∀ k ∈ c.comparisons, ∀ ch ∈ k.field.toList, isFieldChar ch) → Fragment.Clean (c.sought nested)
  | nested, .comparison k, h => Comparison.clean_sought (h k List.mem_cons_self)
  | nested, .junction j cs, h => by
    have hinner : Fragment.Clean ((Fragment.ofText (" " ++ j.name ++ " ")).intercalate (soughts cs)) := by
      refine Fragment.clean_intercalate ?_ (fun _ => ?_) (clean_soughts cs h)
      · cases j <;> rfl
      · cases j <;> rfl
    rw [sought]
    split
    · exact hinner.between rfl rfl rfl
    · exact hinner
  | nested, .not c, h => (clean_sought false c h).between rfl rfl rfl

theorem clean_soughts : ∀ cs : List Condition,
    (∀ k ∈ comparisonsAll cs, ∀ ch ∈ k.field.toList, isFieldChar ch) →
      ∀ ps ∈ soughts cs, Fragment.Clean ps
  | [], _ => nofun
  | c :: cs, h => List.forall_mem_cons.2
    ⟨clean_sought true c fun k hk => h k (List.mem_append_left _ hk),
      clean_soughts cs fun k hk => h k (List.mem_append_right _ hk)⟩

end

end Condition

/-! ## Texts of fragments -/

namespace Fragment

/-- The fragments read as their signs when each has its literal in its place. -/
theorem reads_write {ps : List Fragment} (h : Clean ps) :
    Sign.Reads (write (ps.filterMap literal?) ps) (ps.flatMap signs) := by
  induction ps with
  | nil => exact Sign.reads_nil
  | cons p ps ih =>
    cases p with
    | char c =>
      refine (Sign.reads_char ⟨?_, ?_⟩).append (ih h.2) <;> rintro rfl
      · exact h.1 (by decide)
      · exact h.1 (by decide)
    | operand v => exact (Value.reads_literal v).append (ih h.2)
    | pattern p =>
      have hregex := (Sign.reads_regex h.1).append (ih h.2.2)
      rw [List.cons_append, List.cons_append, List.append_assoc] at hregex
      exact hregex

/-- What stands for a fragment in a template: a value, with slashes around it for a pattern. -/
def symbols : Fragment → List Symbol
  | .char c => [.char c]
  | .operand v => [.value v]
  | .pattern p => [.char '/', .value (.str p), .char '/']

theorem symbols_ofText (s : String) : (ofText s).flatMap symbols = Symbol.ofText s := by
  rw [ofText, List.flatMap_map]
  exact (List.map_eq_flatMap ..).symm

theorem values_symbols (ps : List Fragment) :
    (ps.flatMap symbols).filterMap Symbol.value? = ps.filterMap value? := by
  induction ps with
  | nil => rfl
  | cons p ps ih =>
    rw [List.flatMap_cons, List.filterMap_append, ih]
    cases p <;> rfl

end Fragment

/-- The text of symbols, with the given texts in the places of values from left to right. -/
def Symbol.write : List (List Char) → List Symbol → List Char
  | _, [] => []
  | texts, .char c :: r => c :: write texts r
  | texts, .column name :: r => name.toList ++ write texts r
  | texts, .value _ :: r => texts.headD [] ++ write texts.tail r

theorem Symbol.write_ofText (s : String) (texts : List (List Char)) (ss : List Symbol) :
    write texts (ofText s ++ ss) = s.toList ++ write texts ss := by
  unfold ofText
  induction s.toList with
  | nil => rfl
  | cons c cs ih => exact congrArg (c :: ·) ih

theorem Symbol.write_symbols (ps : List Fragment) : ∀ texts,
    write texts (ps.flatMap Fragment.symbols) = Fragment.write texts ps := by
  induction ps with
  | nil => intro texts; rfl
  | cons p ps ih => intro texts; cases p <;> simp [Fragment.symbols, write, Fragment.write, ih]

namespace Template

theorem toList_render_slots (slot : String → String) (t : Template) :
    (t.render slot id).toList =
      Symbol.write (t.slots.map fun p => (slot p.1).toList) t.symbols := by
  induction t with
  | nil => rfl
  | cons p t ih =>
    cases p with
    | text s =>
      rw [render_text, String.toList_append, ih, symbols_cons, Piece.symbols, Symbol.write_ofText]
      rfl
    | aliased column =>
      rw [render_aliased, String.toList_append, ih]
      rfl
    | slot name v =>
      rw [render_slot, String.toList_append, ih]
      rfl

theorem values_symbols (t : Template) : t.symbols.filterMap Symbol.value? = t.values := by
  induction t with
  | nil => rfl
  | cons p t ih =>
    rw [symbols_cons, List.filterMap_append, ih]
    cases p with
    | text s =>
      rw [Piece.symbols, Symbol.ofText, List.filterMap_map]
      show List.filterMap (fun _ => none) s.toList ++ _ = _
      rw [List.filterMap_none]
      rfl
    | aliased column => rfl
    | slot name v => rfl

end Template

/-! ## Inline rendering -/

/-- A reference with an entry gives way to its literal: the body of a regular expression between
slashes, a term elsewhere. -/
theorem Params.inlineChars_reference {entries : Entries Value} {name : String} {v : Value}
    (hname : Placeholder.IsIdentifier name) (hv : entries.lookup name = some v) {r : List Char}
    (hr : ∀ c, r.head? = some c → isNameChar c = false) (before : Option Char) :
    inlineChars entries before ('@' :: (name.toList ++ r)) =
      (if before == some '/' && r.head? == some '/' then v.regexLiteral else v.literal).toList ++
        inlineChars entries (('@' :: name.toList).getLast?) r := by
  have hnonempty : name.toList.isEmpty = false := by
    obtain ⟨c, cs, hhead, -⟩ := hname.head
    rw [hhead]
    rfl
  rw [inlineChars_name hname.chars hr]
  simp only [reference, hnonempty, String.ofList_toList, hv]
  rfl

namespace Fragment

/-- Before the text of clean fragments that open, a name ends and no slash follows it. -/
theorem head?_write {ps : List Fragment} (h : Clean ps) (ho : Opens ps) (texts : List (List Char)) :
    ∀ c, (write texts ps).head? = some c → Params.isNameChar c = false ∧ c ≠ '/' := by
  intro c hc
  cases ps with
  | nil => cases hc
  | cons p ps =>
    cases p with
    | char x =>
      cases hc
      refine ⟨ho, ?_⟩
      rintro rfl
      exact h.1 (by decide)
    | _ => exact ho.elim

/-- Rendering the references to the values of clean fragments gives the fragments with their literals. -/
theorem inlineChars_write {entries : Entries Value} {ps : List Fragment} (h : Clean ps) :
    ∀ (es : Entries Value) (before : Option Char), es.map Prod.snd = ps.filterMap value? →
      (∀ e ∈ es, entries.lookup e.1 = some e.2 ∧ Placeholder.IsIdentifier e.1) →
      Params.inlineChars entries before (write (es.map fun e => '@' :: e.1.toList) ps) =
        write (ps.filterMap literal?) ps := by
  induction ps with
  | nil => intro es before _ _; simp [write, Params.inlineChars_nil]
  | cons p ps ih =>
    intro es before hvalues hes
    cases p with
    | char c =>
      have hat : c ≠ '@' := by
        rintro rfl
        exact h.1 (by decide)
      rw [write, Params.inlineChars_char hat, ih h.2 es _ hvalues hes]
      rfl
    | operand v =>
      obtain ⟨⟨key, v'⟩, es, rfl, hv, hrest⟩ := List.map_eq_cons_iff.1 hvalues
      cases hv
      obtain ⟨⟨hlookup, hkey⟩, hes⟩ := List.forall_mem_cons.1 hes
      have hhead := head?_write h.2 h.1 (es.map fun e => '@' :: e.1.toList)
      -- What comes after the name is no slash, so the reference stands in no regular expression.
      have hslash : ((write (es.map fun e => '@' :: e.1.toList) ps).head? == some '/') = false := by
        rw [beq_eq_false_iff_ne]
        exact fun hc => (hhead _ hc).2 rfl
      rw [List.map_cons, write, List.headD_cons, List.tail_cons, List.cons_append,
        Params.inlineChars_reference hkey hlookup fun c hc => (hhead c hc).1]
      rw [hslash, Bool.and_false, ih h.2 es _ hrest hes]
      rfl
    | pattern p =>
      obtain ⟨⟨key, v'⟩, es, rfl, hv, hrest⟩ := List.map_eq_cons_iff.1 hvalues
      cases hv
      obtain ⟨⟨hlookup, hkey⟩, hes⟩ := List.forall_mem_cons.1 hes
      have hends : ∀ c, ('/' :: write (es.map fun e => '@' :: e.1.toList) ps).head? = some c →
          Params.isNameChar c = false := by
        intro c hc
        cases hc
        rfl
      have hslash : '/' ≠ '@' := by decide
      have hreference := Params.inlineChars_reference hkey hlookup hends (some '/')
      rw [if_pos (by simp), Params.inlineChars_char hslash, ih h.2.2 es _ hrest hes] at hreference
      rw [List.map_cons, write, List.headD_cons, List.tail_cons, Params.inlineChars_char hslash,
        List.cons_append, hreference]
      rfl

end Fragment

/-! ## Templates -/

namespace Template

theorem symbols_separated (separator : String) (parts : List Template) :
    (separated separator parts).symbols =
      (Symbol.ofText separator).intercalate (parts.map symbols) := by
  have hseparator : [Piece.text separator].flatMap Piece.symbols = Symbol.ofText separator := by
    rw [List.flatMap_singleton]
    rfl
  rw [separated, symbols, flatMap_intercalate, hseparator]
  rfl

theorem symbols_grouped (parentheses : Bool) (t : Template) :
    (grouped parentheses t).symbols =
      if parentheses then Symbol.ofText "(" ++ t.symbols ++ Symbol.ofText ")" else t.symbols := by
  cases parentheses with
  | false => rfl
  | true =>
    rw [grouped, if_pos rfl, if_pos rfl, symbols_append, symbols_cons]
    rfl

end Template

namespace Grammar

open Template

variable {k : Comparison} {t : Template}

/-- The template of a comparison has the fragments of the comparison. -/
theorem symbols_searchComparison (h : searchComparison k = .ok t) :
    t.symbols = k.sought.flatMap Fragment.symbols := by
  have hclause (field before after : String) (v : Value) :
      (searchClause field before v after).symbols =
        (Fragment.ofText field ++ Fragment.ofText ":" ++
          (Fragment.ofText before ++ .operand v :: Fragment.ofText after)).flatMap Fragment.symbols := by
    simp [searchClause, Piece.symbols, Symbol.ofText_append, Fragment.symbols_ofText, Fragment.symbols]
  obtain ⟨field, op, operand⟩ := k
  cases operand with
  | range lo hi =>
    cases op with
    | between =>
      cases h
      have hopening : Symbol.ofText ":[" = Symbol.ofText ":" ++ Symbol.ofText "[" := rfl
      simp [Comparison.sought, low, high, Piece.symbols, Symbol.ofText_append, Fragment.symbols_ofText,
        Fragment.symbols, hopening]
    | _ => cases h
  | value v =>
    cases op with
    | between => cases h
    | equal => cases h; exact hclause field "" "" v
    | greaterThan => cases h; exact hclause field "\x7b" " TO *\x7d" v
    | greaterEqual => cases h; exact hclause field "[" " TO *]" v
    | lessThan => cases h; exact hclause field "\x7b* TO " "\x7d" v
    | lessEqual => cases h; exact hclause field "[* TO " "]" v
    | like =>
      obtain ⟨pattern, hpattern, h⟩ := ok_of_bind h
      cases h
      have hslash : Symbol.ofText "/" = [.char '/'] := rfl
      rw [Value.pattern_eq hpattern]
      simp [Comparison.sought, searchClause, Piece.symbols, Symbol.ofText_append, Fragment.symbols_ofText,
        Fragment.symbols, hslash]
    | oneOf =>
      obtain ⟨items, hitems, h⟩ := ok_of_bind h
      cases h
      obtain ⟨rfl, -⟩ := Value.ok_of_requireItems hitems
      have hslots : (separated " OR " (items.map fun item => [.slot field item])).symbols =
          ((Fragment.ofText " OR ").intercalate (items.map fun item => [.operand item])).flatMap
            Fragment.symbols := by
        rw [symbols_separated, flatMap_intercalate, Fragment.symbols_ofText, List.map_map, List.map_map]
        rfl
      have hopening : Symbol.ofText ":(" = Symbol.ofText ":" ++ Symbol.ofText "(" := rfl
      simp [Comparison.sought, Piece.symbols, Symbol.ofText_append, Fragment.symbols_ofText, Value.items?,
        hslots, hopening]

/-- The template of a condition has the fragments of the condition. -/
theorem symbols_template {nested : Bool} {c : Condition}
    (h : searchIndex.template nested c = .ok t) :
    t.symbols = (c.sought nested).flatMap Fragment.symbols := by
  have hkeeps : searchIndex.Keeps (fun _ => True) fun nested c t =>
      t.symbols = (c.sought nested).flatMap Fragment.symbols := by
    refine ⟨fun _ h => symbols_searchComparison h, fun {nested j cs ts} h => ?_,
      fun {nested c t} h => ?_⟩
    · have hparts : ts.map symbols = (Condition.soughts cs).map (List.flatMap Fragment.symbols) := by
        rw [Condition.soughts_eq_map]
        induction h with
        | nil => rfl
        | cons hfirst _ ih => rw [List.map_cons, List.map_cons, List.map_cons, hfirst, ih]
      have hinner := flatMap_intercalate Fragment.symbols (Fragment.ofText (" " ++ j.name ++ " "))
        (Condition.soughts cs)
      rw [Fragment.symbols_ofText, ← hparts] at hinner
      show (infixJunction j nested ts).symbols = _
      rw [infixJunction, symbols_grouped, symbols_separated, Condition.sought, ← hinner]
      cases nested with
      | false => rfl
      | true => simp [Fragment.symbols_ofText]
    · show (negationBefore t).symbols = _
      rw [Condition.sought]
      simp [negationBefore, Piece.symbols, Fragment.symbols_ofText, h]
  exact hkeeps.template nested c t (fun _ _ => trivial) h

end Grammar

/-! ## Filters -/

/-- A query text and its parameters, given the fragments of the condition that they stand for. -/
structure Params.Inlines (query : String) (entries : Entries Value) (fragments : List Fragment) : Prop where
  /-- The parameters are the operands, patterns as they are handed over, in their order. -/
  values : entries.map Prod.snd = fragments.filterMap Fragment.value?
  /-- The query text is the fragments with the references in their places. -/
  references : query.toList = Fragment.write (entries.keys.map fun key => '@' :: key.toList) fragments
  /-- Rendered inline it is the fragments with the literals in their places. -/
  literals : ((Params.named entries).spliceInto query).toList =
    Fragment.write (fragments.filterMap Fragment.literal?) fragments
  /-- Read as a query string this is, sign by sign, what the fragments are read as. -/
  read : Sign.scan none ((Params.named entries).spliceInto query).toList =
    some (fragments.flatMap Fragment.signs)
  /-- Each operand is read as one term. -/
  terms : ∀ v, .operand v ∈ fragments → IsTerm v.signs

theorem Marking.inlines_fill {t : Template} {fragments : List Fragment} (hclean : Fragment.Clean fragments)
    (ht : t.symbols = fragments.flatMap Fragment.symbols) (projection : List Template) :
    ∃ query entries, fill (.named "@") t projection = .text query (.named entries) ∧
      Params.Inlines query entries fragments := by
  have hvalues : (t.allot Placeholder.fresh []).slots.map Prod.snd = fragments.filterMap Fragment.value? := by
    have hallotted := Template.values_symbols (t.allot Placeholder.fresh [])
    rw [Template.symbols_allot, ht, Fragment.values_symbols] at hallotted
    exact hallotted.symm
  have hreferences : ((t.allot Placeholder.fresh []).render ("@" ++ ·) id).toList =
      Fragment.write ((t.allot Placeholder.fresh []).slots.map fun e => '@' :: e.1.toList) fragments := by
    rw [Template.toList_render_slots, Template.symbols_allot, ht, Symbol.write_symbols]
    simp only [String.toList_append]
    rfl
  have hentries : ∀ e ∈ (t.allot Placeholder.fresh []).slots,
      (t.allot Placeholder.fresh []).slots.lookup e.1 = some e.2 ∧ Placeholder.IsIdentifier e.1 := by
    intro e he
    exact ⟨Entries.lookup_of_mem (Template.nodup_slotNames t []) he,
      Template.isIdentifier_of_mem_slotNames (List.mem_map.2 ⟨e, he, rfl⟩)⟩
  have hliterals : ((Params.named (t.allot Placeholder.fresh []).slots).spliceInto
      ((t.allot Placeholder.fresh []).render ("@" ++ ·) id)).toList =
        Fragment.write (fragments.filterMap Fragment.literal?) fragments := by
    rw [Params.toList_spliceInto, hreferences]
    exact Fragment.inlineChars_write hclean _ none hvalues hentries
  refine ⟨_, _, fill_named "@" t projection, hvalues, ?_, hliterals, ?_, fun v _ => v.isTerm_signs⟩
  · rw [hreferences, Entries.keys, List.map_map]
    rfl
  · rw [hliterals]
    have hread := Fragment.reads_write hclean []
    rw [List.append_nil] at hread
    rw [hread]
    exact congrArg some (List.append_nil _)

namespace Condition

/-- Whatever its operands are, a condition over names that is rendered inline for a search index is the
condition written out with a literal in the place of each reference, and what reads the literals back
finds each operand as one term and each pattern as one regular expression: none of them ends early, and
none takes anything along that comes after it. -/
theorem inlines_toFilter {c : Condition}
    (hfields : ∀ k ∈ c.comparisons, ∀ ch ∈ k.field.toList, isFieldChar ch)
    {projection : List String} {f : Filter} (hf : c.toFilter .searchIndex projection = .ok f) :
    ∃ query entries, f = .text query (.named entries) ∧
      Params.Inlines query entries (c.sought false) := by
  obtain ⟨t, ht, rfl⟩ := ok_of_map hf
  exact Marking.inlines_fill (clean_sought false c hfields) (Grammar.symbols_template ht) _

/-- Operands with delimiters, references and connectives in their texts. -/
def unruly : Condition :=
  .junction .or [.compare "a.title" .equal (.str "\"@title\\ /x/ OR (\""),
    .not (.compare "title" .like (.str "%/@a\"_\\")),
    .junction .and [.compare "tags" .oneOf (.list [.list [.str "\"", .null, .list []], .str "@tags_1/"]),
      .between "n" (.int (-1)) (.map [("k", .str "'\"\\")])],
    .compare "b_1" .like .null]

theorem inlines_unruly :
    (∀ k ∈ unruly.comparisons, ∀ ch ∈ k.field.toList, isFieldChar ch) ∧
      ∃ f, unruly.toFilter .searchIndex ["a"] = .ok f ∧
        ∃ query entries, f = .text query (.named entries) ∧
          Params.Inlines query entries (unruly.sought false) := by
  have hfields : ∀ k ∈ unruly.comparisons, ∀ ch ∈ k.field.toList, isFieldChar ch := by
    simp [unruly, comparisons, comparisonsAll, compare, between, isFieldChar]
  exact ⟨hfields, _, rfl, inlines_toFilter hfields rfl⟩

end Condition

end QueryMethods
