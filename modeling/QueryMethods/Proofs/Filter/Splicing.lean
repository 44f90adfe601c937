/-
References in a text. A text is cut at its references in one way only, and whether a reference stands in
a regular expression is seen from the characters of the text next to it. Rendered inline, each part gives
way to what it stands for on its own: what was written before a reference ends in a slash just where the
text does, since no literal outside of a regular expression ends in one, and a literal in a regular
expression is followed by one.
-/
import Mathlib.Data.List.Basic
import Mathlib.Data.List.TakeWhile
import QueryMethods.Filter.Inline
import QueryMethods.Proofs.Text.QueryString

namespace QueryMethods

/-! ## The ends of literals -/

theorem IsWord.getLast?_ne {s : String} (h : IsWord s) : ∃ c, s.toList.getLast? = some c ∧ c ≠ '/' := by
  have hne : s.toList ≠ [] := fun hnil => h.ne_empty (String.toList_inj.1 hnil)
  refine ⟨_, List.getLast?_eq_some_getLast hne, fun hc => ?_⟩
  have hword := List.all_eq_true.1 h.chars _ (List.getLast_mem hne)
  rw [hc] at hword
  cases hword

namespace Value

/-- A literal is not empty and does not end in a slash. -/
theorem getLast?_literal (v : Value) : ∃ c, v.literal.toList.getLast? = some c ∧ c ≠ '/' := by
  have hphrase (s : String) : ∃ c, (Text.phrase s).toList.getLast? = some c ∧ c ≠ '/' := by
    refine ⟨'"', ?_, by decide⟩
    rw [Text.phrase, String.toList_append]
    exact List.getLast?_concat
  cases v with
  | str s => exact hphrase s
  | date d => exact hphrase d.render
  | map entries => exact hphrase _
  | list items =>
    refine ⟨')', ?_, by decide⟩
    rw [literal, String.toList_append]
    exact List.getLast?_concat
  | null => exact isWord_null.getLast?_ne
  | bool b => exact (isWord_bool b).getLast?_ne
  | int n => exact (isWord_intDigits n.toInt).getLast?_ne
  | float x => exact (isWord_float x).getLast?_ne

end Value

namespace Params

/-! ## Parts of a text -/

/-- A character outside of references, or a reference by name, in a regular expression or not. -/
inductive Part where
  | char (c : Char)
  | reference (inRegex : Bool) (name : List Char)
  deriving DecidableEq

namespace Part

/-- The part as it stands in the text. -/
def text : Part → List Char
  | .char c => [c]
  | .reference _ name => '@' :: name

/-- The name of a reference. -/
def name? : Part → Option String
  | .char _ => none
  | .reference _ name => some (String.ofList name)

/-- What is written for the part. -/
def write (entries : Entries Value) : Part → List Char
  | .char c => [c]
  | .reference inRegex name => Params.reference entries inRegex name

/-- A part is written alike under any entries that agree on its name. -/
theorem write_congr {entries entries' : Entries Value} {p : Part}
    (h : ∀ name, p.name? = some name → entries.lookup name = entries'.lookup name) :
    p.write entries = p.write entries' := by
  cases p with
  | char c => rfl
  | reference inRegex name =>
    rw [write, write, Params.reference, Params.reference, h _ rfl]

/-- A reference with an entry gives way to a literal of its value, in a regular expression to the one that
stands between slashes. -/
theorem write_of_named {entries : Entries Value} {name : List Char} {v : Value} (hname : name ≠ [])
    (hv : entries.lookup (String.ofList name) = some v) (inRegex : Bool) :
    (reference inRegex name).write entries = (if inRegex then v.regexLiteral else v.literal).toList := by
  rw [write, Params.reference, List.isEmpty_eq_false_iff.2 hname, if_neg Bool.false_ne_true, hv]

/-- A part without an entry stays as it is. -/
theorem write_of_unnamed {entries : Entries Value} {p : Part}
    (h : ∀ name, p.name? = some name → name ≠ "" → entries.lookup name = none) :
    p.write entries = p.text := by
  cases p with
  | char c => rfl
  | reference inRegex name =>
    rw [write, Params.reference]
    cases name with
    | nil => rfl
    | cons c name =>
      have hne : String.ofList (c :: name) ≠ "" := fun hempty => by
        have := congrArg String.toList hempty
        rw [String.toList_ofList] at this
        cases this
      rw [List.isEmpty_cons, if_neg Bool.false_ne_true, h _ rfl hne]
      rfl

end Part

/-- The parts of a text, given the character before it. A reference is an at sign and all the name
characters that come after it; it stands in a regular expression if there is a slash right before the at
sign and one right after the name. -/
inductive Cut : Option Char → List Char → List Part → Prop
  | nil {before : Option Char} : Cut before [] []
  | char {before : Option Char} {c : Char} {r : List Char} {ps : List Part} (hc : c ≠ '@')
      (h : Cut (some c) r ps) : Cut before (c :: r) (.char c :: ps)
  | reference {before : Option Char} {name r : List Char} {inRegex : Bool} {ps : List Part}
      (hname : ∀ c ∈ name, isNameChar c) (hend : ∀ c, r.head? = some c → isNameChar c = false)
      (hregex : inRegex = true ↔ before = some '/' ∧ r.head? = some '/')
      (h : Cut ('@' :: name).getLast? r ps) : Cut before ('@' :: (name ++ r)) (.reference inRegex name :: ps)

/-- The parts of a text, computed from left to right. -/
def parts (before : Option Char) : List Char → List Part
  | [] => []
  | c :: r =>
    if c = '@' then
      let name := r.takeWhile isNameChar
      let rest := r.dropWhile isNameChar
      .reference (before == some '/' && rest.head? == some '/') name :: parts ((c :: name).getLast?) rest
    else .char c :: parts (some c) r
termination_by s => s.length
decreasing_by
  · have := (List.dropWhile_sublist (l := r) isNameChar).length_le
    simp only [List.length_cons]
    omega
  · simp

/-- The name that a text begins with is made of name characters, and no more of them come after it. -/
theorem name_spec (r : List Char) :
    r.takeWhile isNameChar ++ r.dropWhile isNameChar = r ∧
      (∀ c ∈ r.takeWhile isNameChar, isNameChar c) ∧
      ∀ c, (r.dropWhile isNameChar).head? = some c → isNameChar c = false := by
  refine ⟨List.takeWhile_append_dropWhile, fun c hc => List.mem_takeWhile_imp hc, fun c hc => ?_⟩
  have hhead := List.head?_dropWhile_not isNameChar r
  rw [hc] at hhead
  exact hhead

section

variable {before : Option Char} {s r : List Char} {ps : List Part}

theorem parts_char {c : Char} (hc : c ≠ '@') :
    parts before (c :: r) = .char c :: parts (some c) r := by
  rw [parts, if_neg hc]

theorem parts_reference {name : List Char} (hname : ∀ c ∈ name, isNameChar c)
    (hend : ∀ c, r.head? = some c → isNameChar c = false) :
    parts before ('@' :: (name ++ r)) =
      .reference (before == some '/' && r.head? == some '/') name ::
        parts ('@' :: name).getLast? r := by
  have hends : r.takeWhile isNameChar = [] ∧ r.dropWhile isNameChar = r := by
    cases r with
    | nil => exact ⟨rfl, rfl⟩
    | cons c r => simp [hend c rfl]
  rw [parts, if_pos rfl]
  simp only [List.takeWhile_append_of_pos hname, List.dropWhile_append_of_pos hname, hends, List.append_nil]

theorem cut_parts (before : Option Char) (s : List Char) : Cut before s (parts before s) := by
  fun_induction parts before s with
  | case1 before => exact .nil
  | case2 before r name rest ih =>
    obtain ⟨hsplit, hname, hend⟩ : name ++ rest = r ∧ (∀ c ∈ name, isNameChar c) ∧
      ∀ c, rest.head? = some c → isNameChar c = false := name_spec r
    rw [← hsplit]
    exact .reference hname hend (by simp) ih
  | case3 before c r hc ih => exact .char hc ih

/-- A text is cut in one way. -/
theorem cut_iff : Cut before s ps ↔ ps = parts before s := by
  constructor
  · intro h
    induction h with
    | nil => rw [parts]
    | char hc _ ih => rw [parts_char hc, ih]
    | @reference before name r inRegex ps hname hend hregex _ ih =>
      have hflag : inRegex = (before == some '/' && r.head? == some '/') :=
        Bool.eq_iff_iff.2 (by simpa using hregex)
      rw [parts_reference hname hend, hflag, ih]
  · rintro rfl
    exact cut_parts before s

theorem flatMap_text_parts (before : Option Char) (s : List Char) :
    (parts before s).flatMap Part.text = s := by
  have h := cut_parts before s
  generalize parts before s = ps at h
  induction h with
  | nil => rfl
  | char _ _ ih => exact congrArg _ ih
  | reference _ _ _ _ ih => exact congrArg (_ ++ ·) ih

end

/-! ## Rendering part by part -/

/-- Each part of a text written on its own, given the character before the text. -/
def inlineChars (entries : Entries Value) (before : Option Char) (s : List Char) : List Char :=
  (parts before s).flatMap (Part.write entries)

section

variable {entries : Entries Value} {before : Option Char} {r : List Char}

theorem inlineChars_nil : inlineChars entries before [] = [] := by
  rw [inlineChars, parts]
  rfl

theorem inlineChars_char {c : Char} (hc : c ≠ '@') (entries : Entries Value) (before : Option Char)
    (r : List Char) : inlineChars entries before (c :: r) = c :: inlineChars entries (some c) r := by
  rw [inlineChars, parts_char hc]
  rfl

theorem inlineChars_name {name : List Char} (hname : ∀ c ∈ name, isNameChar c)
    (hend : ∀ c, r.head? = some c → isNameChar c = false) :
    inlineChars entries before ('@' :: (name ++ r)) =
      reference entries (before == some '/' && r.head? == some '/') name ++
        inlineChars entries ('@' :: name).getLast? r := by
  rw [inlineChars, parts_reference hname hend]
  rfl

theorem getLast?_name {name : List Char} (hname : ∀ c ∈ name, isNameChar c) :
    ∃ c, ('@' :: name).getLast? = some c ∧ c ≠ '/' := by
  refine ⟨_, List.getLast?_eq_some_getLast (List.cons_ne_nil '@' name), fun hc => ?_⟩
  rcases List.mem_cons.1 (hc ▸ List.getLast_mem (List.cons_ne_nil '@' name)) with h | h
  · cases h
  · cases hname _ h

/-- What is written for a reference outside of regular expressions is not empty and does not end in a
slash. -/
theorem getLast?_reference {name : List Char} (hname : ∀ c ∈ name, isNameChar c)
    (entries : Entries Value) : ∃ c, (reference entries false name).getLast? = some c ∧ c ≠ '/' := by
  rw [reference]
  split
  · rename_i v _
    exact v.getLast?_literal
  · exact getLast?_name hname

/-- Writing on after some text is writing the parts on their own: before a reference that could stand in a
regular expression, the text that was written ends in a slash if the text that was read does. -/
theorem inlineAfter_eq (entries : Entries Value) (written s : List Char) (before : Option Char)
    (hslash : s.head? = some '@' → (written.head? = some '/' ↔ before = some '/')) :
    inlineAfter entries written s = written.reverse ++ inlineChars entries before s := by
  fun_induction inlineAfter entries written s generalizing before with
  | case1 written => rw [inlineChars_nil, List.append_nil]
  | case2 written r name rest inRegex ih =>
    obtain ⟨hsplit, hname, hend⟩ : name ++ rest = r ∧ (∀ c ∈ name, isNameChar c) ∧
      ∀ c, rest.head? = some c → isNameChar c = false := name_spec r
    have hflag : inRegex = (before == some '/' && rest.head? == some '/') := by
      have hbefore : (written.head? == some '/') = (before == some '/') :=
        Bool.eq_iff_iff.2 (by simpa using hslash rfl)
      exact congrArg (· && _) hbefore
    rw [← hsplit, inlineChars_name hname hend, ← hflag, ih ('@' :: name).getLast? fun hat => ?_,
      List.reverse_append, List.reverse_reverse, List.append_assoc]
    -- An at sign comes next, so no slash does, and the reference was not in a regular expression.
    have hplain : inRegex = false := by
      rw [hflag, hat]
      exact Bool.and_false _
    obtain ⟨c, hc, hne⟩ := getLast?_reference hname entries
    obtain ⟨d, hd, hne'⟩ := getLast?_name hname
    rw [hplain, List.head?_append, List.head?_reverse, hc, hd, Option.some_or]
    exact iff_of_false (fun h => hne (Option.some_inj.1 h)) fun h => hne' (Option.some_inj.1 h)
  | case3 written c r hc ih =>
    rw [ih (some c) fun _ => Iff.rfl, inlineChars_char hc, List.reverse_cons, List.append_assoc]
    rfl

end

theorem toList_spliceInto (entries : Entries Value) (text : String) :
    ((named entries).spliceInto text).toList = inlineChars entries none text.toList := by
  rw [spliceInto, String.toList_ofList, inlineAfter_eq entries [] text.toList none fun _ => Iff.rfl]
  rfl

/-- A text that is rendered inline is cut into parts, in the one way that there is and whatever the
parameters are, and the parts are written one after the other. A reference with an entry gives way to the
literal of its value, in a regular expression to the bare one, and any other part stays as it is. So what
is written for a part is up to the entry that it names and to no other, and a text that names none is left
as it is. -/
theorem splices_parts (text : String) :
    ∃ ps, Cut none text.toList ps ∧ (∀ qs, Cut none text.toList qs → qs = ps) ∧
      ps.flatMap Part.text = text.toList ∧
      ∀ entries : Entries Value,
        (named entries).spliceInto text = String.ofList (ps.flatMap (Part.write entries)) ∧
        (∀ inRegex name v, .reference inRegex name ∈ ps → name ≠ [] →
          entries.lookup (String.ofList name) = some v →
            Part.write entries (.reference inRegex name) =
              (if inRegex then v.regexLiteral else v.literal).toList) ∧
        (∀ p ∈ ps, (∀ name, p.name? = some name → name ≠ "" → entries.lookup name = none) →
          p.write entries = p.text) ∧
        (∀ p ∈ ps, ∀ key v, p.name? ≠ some key →
          p.write (entries.insert key v) = p.write entries) ∧
        ((∀ p ∈ ps, ∀ name, p.name? = some name → name ≠ "" → entries.lookup name = none) →
          (named entries).spliceInto text = text) := by
  have hsplice (entries : Entries Value) : (named entries).spliceInto text =
      String.ofList ((parts none text.toList).flatMap (Part.write entries)) := by
    rw [← String.toList_inj, toList_spliceInto, String.toList_ofList, inlineChars]
  refine ⟨parts none text.toList, cut_parts _ _, fun qs => cut_iff.1, flatMap_text_parts _ _,
    fun entries => ⟨hsplice entries, fun inRegex name v _ hname hv => ?named, fun p _ hnone => ?copied,
      fun p _ key v hkey => ?other, fun hnone => ?unnamed⟩⟩
  case named => exact Part.write_of_named hname hv inRegex
  case copied => exact Part.write_of_unnamed hnone
  case other =>
    refine Part.write_congr fun name hname => ?_
    have hne : name ≠ key := fun heq => hkey (heq ▸ hname)
    rw [Entries.lookup_insert, if_neg hne]
  case unnamed =>
    have hcopy : ∀ p ∈ parts none text.toList, p.write entries = p.text :=
      fun p hp => Part.write_of_unnamed (hnone p hp)
    rw [hsplice, List.flatMap_congr hcopy, flatMap_text_parts, String.ofList_toList]

/-- Of two references to one name only the second stands in a regular expression, a value looks like a
reference, and the last name has no entry. -/
theorem splices_references :
    let ps : List Part := [.char '/', .reference false ['a'], .reference false ['b'], .char '/',
      .reference true ['b'], .char '/', .reference false ['c']]
    Cut none "/@a@b/@b/@c".toList ps ∧
      (named [("a", .str "x/"), ("b", .str "@a")]).spliceInto "/@a@b/@b/@c" =
        "/\"x/\"\"@a\"/@a/@c" := by
  intro ps
  have hcut : Cut none "/@a@b/@b/@c".toList ps := by
    rw [cut_iff]
    decide +kernel
  obtain ⟨ps', -, hunique, -, hparts⟩ := splices_parts "/@a@b/@b/@c"
  obtain rfl : ps = ps' := hunique ps hcut
  obtain ⟨hsplice, hnamed, hcopied, -⟩ := hparts [("a", .str "x/"), ("b", .str "@a")]
  have ha := hnamed false ['a'] (.str "x/") (by simp [ps]) (List.cons_ne_nil _ _) rfl
  have hb := hnamed false ['b'] (.str "@a") (by simp [ps]) (List.cons_ne_nil _ _) rfl
  have hregex := hnamed true ['b'] (.str "@a") (by simp [ps]) (List.cons_ne_nil _ _) rfl
  have hslash := hcopied (.char '/') (by simp [ps]) nofun
  have hc := hcopied (.reference false ['c']) (by simp [ps]) fun name hname _ => by cases hname; rfl
  refine ⟨hcut, hsplice.trans ?_⟩
  simp only [ps, List.flatMap_cons, List.flatMap_nil, ha, hb, hc, hregex, hslash]
  decide +kernel

end Params

end QueryMethods
