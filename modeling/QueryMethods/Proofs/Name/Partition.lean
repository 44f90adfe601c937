/-
Lexing partitions a name. Its bytes are those of letters, digits and underscores, or else the first byte of
any other kind is reported; the words are stretches of it, one after the other, that leave nothing but
underscores out.
-/
import Mathlib.Logic.Function.Iterate
import QueryMethods.Proofs.Name.Words

namespace QueryMethods.Name

/-! ## Bytes -/

/-- The bytes of a name, by which positions are counted. -/
def bytes (name : String) : List UInt8 :=
  name.toUTF8.data.toList

/-- The bytes of ASCII letters, digits and the underscore. -/
def isNameByte (b : UInt8) : Bool :=
  'a'.toUInt8 ≤ b && b ≤ 'z'.toUInt8 || 'A'.toUInt8 ≤ b && b ≤ 'Z'.toUInt8 ||
    '0'.toUInt8 ≤ b && b ≤ '9'.toUInt8 || b == '_'.toUInt8

theorem bytes_eq (name : String) : bytes name = name.toList.flatMap String.utf8EncodeChar := by
  have h := String.toByteArray_ofList (l := name.toList)
  rw [String.ofList_toList] at h
  rw [bytes, String.toUTF8_eq_toByteArray, h, List.utf8Encode, List.data_toByteArray]

theorem length_bytes (name : String) : (bytes name).length = name.utf8ByteSize := by
  rfl

section

variable {c : Char}

theorem utf8EncodeChar_of_lt (h : c.toNat < 128) : String.utf8EncodeChar c = [c.toUInt8] :=
  String.utf8EncodeChar_eq_singleton (Char.utf8Size_eq_one_iff.2 (Nat.le_of_lt_succ h))

theorem lt_of_isAlphanum (h : c.isAlphanum ∨ c = '_') : c.toNat < 128 := by
  rcases h with h | rfl
  · rcases isAlphanum_iff.1 h with h | h
    · have hle : c.val ≤ 'Z'.val := (of_decide_eq_true h).2
      exact Nat.lt_of_le_of_lt hle (by decide)
    · have hall : ∀ c ∈ smallChars, c.toNat < 128 := List.all_iff_forall_prop.1 (by decide)
      exact hall c (mem_smallChars h)
  · decide

/-- On ASCII characters, a byte is as good as the character. -/
theorem isNameByte_toUInt8 (h : c.toNat < 128) :
    (isNameByte c.toUInt8 ↔ c.isAlphanum ∨ c = '_') ∧ (c.toUInt8 = '_'.toUInt8 ↔ c = '_') := by
  have hall : ∀ n < 128, (isNameByte (Char.ofNat n).toUInt8 ↔
      (Char.ofNat n).isAlphanum ∨ Char.ofNat n = '_') ∧
      ((Char.ofNat n).toUInt8 = '_'.toUInt8 ↔ Char.ofNat n = '_') := by decide
  have := hall c.toNat h
  rwa [Char.ofNat_toNat] at this

/-- A character that is of no word has a first byte that is of none. -/
theorem utf8EncodeChar_of_other (hc : ¬(c.isAlphanum ∨ c = '_')) :
    ∃ b bs, String.utf8EncodeChar c = b :: bs ∧ isNameByte b = false := by
  by_cases h : c.toNat < 128
  · refine ⟨c.toUInt8, [], utf8EncodeChar_of_lt h, ?_⟩
    rwa [Bool.eq_false_iff, Ne, (isNameByte_toUInt8 h).1]
  · -- The first byte of several is a high one.
    have hhigh : ∀ n < 64, isNameByte (UInt8.ofNat (n + 192)) = false := by decide
    have hval : ¬c.val.toNat ≤ 127 := fun hle => h (Nat.lt_succ_of_le hle)
    rw [String.utf8EncodeChar]
    simp only [hval, if_false]
    split
    · exact ⟨_, _, rfl, hhigh _ (by omega)⟩
    split
    · exact ⟨_, _, rfl, hhigh _ (by omega)⟩
    · exact ⟨_, _, rfl, hhigh _ (by omega)⟩

end

theorem flatMap_of_isNameText {s : List Char} (h : IsNameText s) :
    s.flatMap String.utf8EncodeChar = s.map Char.toUInt8 := by
  induction s with
  | nil => rfl
  | cons c s ih =>
    obtain ⟨hc, hs⟩ := List.forall_mem_cons.1 h
    rw [List.flatMap_cons, utf8EncodeChar_of_lt (lt_of_isAlphanum hc), ih hs]
    rfl

section

variable {name : String}

theorem bytes_of_isNameText (h : IsNameText name.toList) : bytes name = name.toList.map Char.toUInt8 := by
  rw [bytes_eq, flatMap_of_isNameText h]

theorem utf8ByteSize_of_isNameText (h : IsNameText name.toList) : name.utf8ByteSize = name.toList.length := by
  rw [← length_bytes, bytes_of_isNameText h, List.length_map]

theorem isNameByte_of_isNameText {s : List Char} (h : IsNameText s) :
    ∀ b ∈ s.map Char.toUInt8, isNameByte b :=
  List.forall_mem_map.2 fun c hc => (isNameByte_toUInt8 (lt_of_isAlphanum (h c hc))).1.2 (h c hc)

theorem forall_isNameByte_iff : (∀ b ∈ bytes name, isNameByte b) ↔ IsNameText name.toList := by
  constructor
  · intro hall c hc
    by_contra hother
    obtain ⟨b, bs, hencode, hb⟩ := utf8EncodeChar_of_other hother
    have hmem : b ∈ bytes name := by
      rw [bytes_eq, List.mem_flatMap]
      exact ⟨c, hc, hencode ▸ List.mem_cons_self⟩
    rw [hall b hmem] at hb
    cases hb
  · exact fun h => bytes_of_isNameText h ▸ isNameByte_of_isNameText h

theorem forall_underscore_iff :
    (∀ b ∈ bytes name, b = '_'.toUInt8) ↔ ∀ c ∈ name.toList, c = '_' := by
  constructor
  · intro hall
    have htext : IsNameText name.toList := forall_isNameByte_iff.1 fun b hb => hall b hb ▸ rfl
    rw [bytes_of_isNameText htext, List.forall_mem_map] at hall
    exact fun c hc => (isNameByte_toUInt8 (lt_of_isAlphanum (htext c hc))).2.1 (hall c hc)
  · intro hall
    rw [bytes_of_isNameText fun c hc => .inr (hall c hc), List.forall_mem_map]
    exact fun c hc => hall c hc ▸ rfl

/-- The first byte of no word is at the first character of no word. -/
theorem findIdx?_bytes {before after : List Char} {c : Char} (hname : name.toList = before ++ c :: after)
    (hbefore : IsNameText before) (hc : ¬(c.isAlphanum ∨ c = '_')) :
    (bytes name).findIdx? (!isNameByte ·) = some before.length := by
  obtain ⟨b, bs, hencode, hb⟩ := utf8EncodeChar_of_other hc
  have hnone : (before.map Char.toUInt8).findIdx? (!isNameByte ·) = none :=
    List.findIdx?_eq_none_iff.2 fun b hb => by rw [isNameByte_of_isNameText hbefore b hb]; rfl
  rw [bytes_eq, hname, List.flatMap_append, flatMap_of_isNameText hbefore, List.findIdx?_append, hnone,
    List.flatMap_cons, hencode, List.cons_append, List.findIdx?_cons, hb, List.length_map]
  simp

end

/-! ## Stretches of a name -/

/-- The byte after a word. -/
def Word.stop (w : Word) : Nat :=
  w.start + w.text.utf8ByteSize

/-- The words are stretches of the name, which do not begin or end inside a character, one after the other.
Each is a word before what comes after it and takes all that belongs to it, and together they are all of the
name but the underscores. -/
structure Partition (name : String) (ws : List Word) : Prop where
  ne_empty : ∀ w ∈ ws, w.text ≠ ""
  slice : ∀ w ∈ ws, ∃ before after : String, name = before ++ w.text ++ after ∧
    before.utf8ByteSize = w.start ∧ IsWord after.toList w.text.toList ∧
    EndsBefore after.toList w.text.toList
  ordered : ws.Pairwise (·.stop ≤ ·.start)
  texts : String.join (ws.map Word.text) = String.ofList (name.toList.filter (· != '_'))
  between : ∀ i b, (bytes name)[i]? = some b → (∀ w ∈ ws, ¬(w.start ≤ i ∧ i < w.stop)) →
    b = '_'.toUInt8

/-- The characters of a word are a byte each. -/
theorem IsWord.stop_eq {after : List Char} {w : Word} (h : IsWord after w.text.toList) :
    w.stop = w.start + w.text.toList.length :=
  congrArg (w.start + ·) (utf8ByteSize_of_isNameText h.isText.isNameText)

namespace Laid

variable {position : Nat} {ws : List Word} {text : List Char}

theorem slice (h : Laid position ws text) : ∀ w ∈ ws, ∃ before after,
    text = before ++ (w.text.toList ++ after) ∧ w.start = position + before.length ∧
      IsWord after w.text.toList ∧ EndsBefore after w.text.toList := by
  induction h with
  | nil hus => exact nofun
  | @cons position us after w ws hus hstart hword hend h ih =>
    refine List.forall_mem_cons.2 ⟨⟨us, after, rfl, hstart, hword, hend⟩, fun v hv => ?_⟩
    obtain ⟨before, after', rfl, hv, hform⟩ := ih v hv
    refine ⟨us ++ (w.text.toList ++ before), after', ?_, ?_, hform⟩
    · rw [List.append_assoc, List.append_assoc]
    · rw [hv, hstart, List.length_append, List.length_append, Nat.add_assoc, Nat.add_assoc]

theorem ordered (h : Laid position ws text) : ws.Pairwise (·.stop ≤ ·.start) := by
  induction h with
  | nil hus => exact .nil
  | @cons position us after w ws hus hstart hword hend h ih =>
    refine .cons (fun v hv => ?_) ih
    obtain ⟨before, -, -, hv, -⟩ := h.slice v hv
    rw [hword.stop_eq, hv]
    exact Nat.le_add_right _ _

/-- A character that is in no word is an underscore. -/
theorem between (h : Laid position ws text) : ∀ i c, text[i]? = some c →
    (∀ w ∈ ws, ¬(w.start ≤ position + i ∧ position + i < w.stop)) → c = '_' := by
  induction h with
  | nil hus => exact fun i c hi _ => hus c (List.mem_of_getElem? hi)
  | @cons position us after w ws hus hstart hword hend h ih =>
    intro i c hi hout
    obtain ⟨hw, hws⟩ := List.forall_mem_cons.1 hout
    rw [hword.stop_eq, hstart] at hw
    by_cases hbefore : i < us.length
    · rw [List.getElem?_append_left hbefore] at hi
      exact hus c (List.mem_of_getElem? hi)
    -- The place is not in the word either, so the character is one of those after it.
    have hle : us.length + w.text.toList.length ≤ i := by omega
    rw [← List.append_assoc, List.getElem?_append_right (by rwa [List.length_append]),
      List.length_append] at hi
    refine ih (i - (us.length + w.text.toList.length)) c hi ?_
    have hplace : w.start + w.text.toList.length + (i - (us.length + w.text.toList.length)) =
        position + i := by omega
    rwa [hplace]

end Laid

/-- Words that stand in a name are a partition of it. -/
theorem Laid.partition {name : String} {ws : List Word} (h : Laid 0 ws name.toList) :
    Partition name ws where
  ne_empty w hw htext := (h.isText w hw).ne_nil (by rw [htext]; rfl)
  slice w hw := by
    obtain ⟨before, after, hname, hstart, hform⟩ := h.slice w hw
    have hbefore : IsNameText before := fun c hc =>
      h.isNameText c (hname ▸ List.mem_append_left _ hc)
    refine ⟨String.ofList before, String.ofList after, ?_, ?_, ?_⟩
    · rw [← String.toList_inj, hname, String.toList_append, String.toList_append, String.toList_ofList,
        String.toList_ofList, List.append_assoc]
    · rw [utf8ByteSize_of_isNameText (by rwa [String.toList_ofList]), String.toList_ofList, hstart,
        Nat.zero_add]
    · rwa [String.toList_ofList]
  ordered := h.ordered
  texts := by
    rw [← String.toList_inj, String.toList_join, List.flatMap_map, h.flatMap_text, String.toList_ofList]
  between i b hi hout := by
    rw [bytes_of_isNameText h.isNameText, List.getElem?_map, Option.map_eq_some_iff] at hi
    obtain ⟨c, hc, rfl⟩ := hi
    rw [h.between i c hc (by rwa [Nat.zero_add])]

/-! ## Lexing -/

/-- Reading words ends after as many steps as there are characters at most. -/
theorem Scanner.exists_iterate_next (s : Scanner) :
    ∃ n ≤ s.rest.length, ∀ w, ((·.next.2)^[n] s).next.1 ≠ .ok (some w) := by
  fun_induction words s with
  | case1 s e he => exact ⟨0, Nat.zero_le _, fun w h => by cases he.symm.trans h⟩
  | case2 s hn => exact ⟨0, Nat.zero_le _, fun w h => by cases hn.symm.trans h⟩
  | case3 s w hw ih =>
    obtain ⟨n, hn, hend⟩ := ih
    exact ⟨n + 1, Nat.succ_le_of_lt (Nat.lt_of_le_of_lt hn (length_next hw)), hend⟩

/-- A name has words if each of its bytes is that of a letter, a digit or an underscore and one is not an
underscore. Otherwise the first byte of any other kind is reported or, if there is none, that there are no
words. The words are a partition of the name, and reading them ends. -/
theorem partition_words (name : String) :
    ((∃ ws, words name = .ok ws) ↔
        (∀ b ∈ bytes name, isNameByte b) ∧ ∃ b ∈ bytes name, b ≠ '_'.toUInt8) ∧
      (∀ i, words name = .error (.unexpectedCharacter i) ↔
        (bytes name).findIdx? (!isNameByte ·) = some i) ∧
      (words name = .error .noWords ↔ name = "" ∨ ∀ b ∈ bytes name, b = '_'.toUInt8) ∧
      (∀ ws, words name = .ok ws → ws ≠ [] ∧ Partition name ws) ∧
      ∃ n ≤ name.length, ∀ w, ((·.next.2)^[n] (Scanner.ofName name)).next.1 ≠ .ok (some w) := by
  have hnone (h : IsNameText name.toList) : (bytes name).findIdx? (!isNameByte ·) = none :=
    List.findIdx?_eq_none_iff.2 fun b hb => by rw [forall_isNameByte_iff.2 h b hb]; rfl
  refine ⟨?found, fun i => ?other, ?none, fun ws h => ?partition, ?ends⟩
  case found =>
    have hsome : (∃ b ∈ bytes name, b ≠ '_'.toUInt8) ↔ ∃ c ∈ name.toList, c ≠ '_' := by
      have := not_congr (@forall_underscore_iff name)
      rwa [not_forall₂, not_forall₂, exists_congr fun b => exists_prop,
        exists_congr fun c => exists_prop] at this
    rw [exists_words_iff, forall_isNameByte_iff, hsome]
  case other =>
    obtain ⟨ws, hws, -, hlaid⟩ | ⟨he, hus⟩ | ⟨before, c, after, hname, hbefore, hc, he⟩ := words_cases name
    · rw [hws, hnone hlaid.isNameText]
      exact iff_of_false nofun nofun
    · rw [he, hnone fun c hc => .inr (hus c hc)]
      exact iff_of_false nofun nofun
    · rw [he, findIdx?_bytes hname hbefore hc]
      simp
  case none =>
    have hunderscores : (name = "" ∨ ∀ b ∈ bytes name, b = '_'.toUInt8) ↔ ∀ c ∈ name.toList, c = '_' := by
      rw [forall_underscore_iff, or_iff_right_iff_imp]
      rintro rfl
      exact nofun
    rw [hunderscores]
    obtain ⟨ws, hws, hne, hlaid⟩ | ⟨he, hus⟩ | ⟨before, c, after, hname, -, hc, he⟩ := words_cases name
    · rw [hws, ← hlaid.eq_nil_iff]
      exact iff_of_false nofun hne
    · exact iff_of_true he hus
    · rw [he]
      refine iff_of_false nofun fun hus => hc (.inr (hus c ?_))
      rw [hname]
      exact List.mem_append_right _ List.mem_cons_self
  case partition =>
    obtain ⟨hlaid, hne⟩ := words_eq_ok_iff_laid.1 h
    exact ⟨hne, hlaid.partition⟩
  case ends =>
    obtain ⟨n, hn, hend⟩ := (Scanner.ofName name).exists_iterate_next
    exact ⟨n, String.length_toList (s := name) ▸ hn, hend⟩

/-- The last capital before a lowercase letter begins a word, and a digit goes on with capitals. -/
theorem partition_acronyms : ∃ ws, words "getHTTPStatus__ID2x_" = .ok ws ∧
    ws = [⟨0, "get"⟩, ⟨3, "HTTP"⟩, ⟨7, "Status"⟩, ⟨15, "ID2x"⟩] ∧ Partition "getHTTPStatus__ID2x_" ws :=
  have h : words "getHTTPStatus__ID2x_" =
      .ok [⟨0, "get"⟩, ⟨3, "HTTP"⟩, ⟨7, "Status"⟩, ⟨15, "ID2x"⟩] := by decide +kernel
  ⟨_, h, rfl, ((partition_words _).2.2.2.1 _ h).2⟩

example : words "get_Ä" = .error (.unexpectedCharacter 4) := by decide +kernel

end QueryMethods.Name
