/-
Redaction by what a text is made of. Stretches without quotes stay as they are, and of a quoted
literal only that there was one is left, so texts that differ inside of their literals cannot be told
apart any more. A literal in which a backslash covers a line feed is none for redaction: its opening
quote is kept like any other character, and with it what it was to hide.
-/
import Mathlib.Data.List.Forall2
import QueryMethods.Text.Redaction

namespace QueryMethods.Text

/-! ## Literals -/

/-- What stands between two quotes: characters other than the quote and the backslash, and
backslashes each with a character that it may cover. -/
inductive IsBody (covers : Char → Prop) (quote : Char) : List Char → Prop
  | nil : IsBody covers quote []
  | plain {c : Char} {s : List Char} (hquote : c ≠ quote) (hback : c ≠ '\\')
      (hs : IsBody covers quote s) : IsBody covers quote (c :: s)
  | covered {c : Char} {s : List Char} (hc : covers c) (hs : IsBody covers quote s) :
      IsBody covers quote ('\\' :: c :: s)

/-- The two characters that literals stand between. -/
def IsQuote (c : Char) : Prop := c = '\'' ∨ c = '"'

instance (c : Char) : Decidable (IsQuote c) := inferInstanceAs (Decidable (_ ∨ _))

theorem IsQuote.ne_backslash {c : Char} (h : IsQuote c) : c ≠ '\\' := by
  rcases h with rfl | rfl <;> decide

variable {quote : Char} {s rest : List Char}

theorem afterLiteral?_body (hquote : quote ≠ '\\') (h : IsBody (· ≠ '\n') quote s) :
    afterLiteral? quote (s ++ quote :: rest) = some rest := by
  induction h with
  | nil => simp [afterLiteral?, hquote]
  | plain hc hback _ ih => simp [afterLiteral?, hc, hback, ih]
  | covered hc _ ih => simp [afterLiteral?, hc, ih]

/-! ## Stretches of a text -/

/-- A stretch of a text: characters of which none is a quote, or a literal between two quotes. -/
inductive Stretch where
  | plain (s : List Char)
  | literal (quote : Char) (body : List Char)

namespace Stretch

/-- The stretch is what it is to be, with literals in which a backslash covers these characters. -/
def IsProper (covers : Char → Prop) : Stretch → Prop
  | .plain s => ∀ c ∈ s, ¬IsQuote c
  | .literal quote body => IsQuote quote ∧ IsBody covers quote body

/-- The characters of a stretch. -/
def text : Stretch → List Char
  | .plain s => s
  | .literal quote body => quote :: body ++ [quote]

/-- What is left of a stretch when its literal is hidden. -/
def redacted : Stretch → List Char
  | .plain s => s
  | .literal _ _ => ['\'', '?', '\'']

/-- Both stretches are the same characters, or both are literals. -/
inductive Alike : Stretch → Stretch → Prop
  | plain (s : List Char) : Alike (.plain s) (.plain s)
  | literal (quote quote' : Char) (body body' : List Char) :
      Alike (.literal quote body) (.literal quote' body')

theorem redacted_eq {a b : Stretch} (h : Alike a b) : a.redacted = b.redacted := by
  cases h <;> rfl

end Stretch

/-! ## One character or literal -/

section Step

variable {c : Char} {r : List Char}

theorem redactChars_char (hc : ¬IsQuote c) : redactChars (c :: r) = c :: redactChars r := by
  rw [redactChars]
  exact if_neg hc

theorem redactChars_literal (hc : IsQuote c) (hrest : afterLiteral? c r = some rest) :
    redactChars (c :: r) = ['\'', '?', '\''] ++ redactChars rest := by
  rw [redactChars]
  refine (if_pos hc).trans ?_
  split
  · rename_i rest' h
    rw [hrest] at h
    cases h
    rfl
  · rename_i h
    rw [hrest] at h
    cases h

/-- A quote that opens no literal is kept, and the next character is looked at. -/
theorem redactChars_quote (hc : IsQuote c) (hrest : afterLiteral? c r = none) :
    redactChars (c :: r) = c :: redactChars r := by
  rw [redactChars]
  refine (if_pos hc).trans ?_
  split
  · rename_i rest' h
    rw [hrest] at h
    cases h
  · rfl

end Step

/-! ## Redacted texts -/

theorem redactChars_plain (h : ∀ c ∈ s, ¬IsQuote c) (r : List Char) :
    redactChars (s ++ r) = s ++ redactChars r := by
  induction s with
  | nil => rfl
  | cons c s ih =>
    obtain ⟨hc, hs⟩ := List.forall_mem_cons.1 h
    rw [List.cons_append, redactChars_char hc, ih hs, List.cons_append]

theorem redactChars_stretches {ss : List Stretch} (h : ∀ a ∈ ss, a.IsProper (· ≠ '\n')) :
    redactChars (ss.flatMap Stretch.text) = ss.flatMap Stretch.redacted := by
  induction ss with
  | nil => rw [List.flatMap_nil, redactChars]; rfl
  | cons a ss ih =>
    obtain ⟨ha, hss⟩ := List.forall_mem_cons.1 h
    rw [List.flatMap_cons, List.flatMap_cons, ← ih hss]
    cases a with
    | plain s => exact redactChars_plain ha _
    | literal quote body =>
      obtain ⟨hquote, hbody⟩ := ha
      have hrest : afterLiteral? quote (body ++ quote :: ss.flatMap Stretch.text) =
          some (ss.flatMap Stretch.text) :=
        afterLiteral?_body hquote.ne_backslash hbody
      rw [Stretch.text, List.cons_append, List.cons_append, List.append_assoc, List.singleton_append,
        redactChars_literal hquote hrest]
      rfl

/-- The text that is made of stretches. -/
def ofStretches (ss : List Stretch) : String :=
  String.ofList (ss.flatMap Stretch.text)

/-- Redaction leaves what is between the literals as it is and hides the literals, as long as no
backslash in them covers a line feed; texts that differ in their literals only become one text. -/
theorem redact_ofStretches {ss : List Stretch} (h : ∀ a ∈ ss, a.IsProper (· ≠ '\n')) :
    redact (ofStretches ss) = String.ofList (ss.flatMap Stretch.redacted) ∧
      ∀ ss', (∀ a ∈ ss', a.IsProper (· ≠ '\n')) → List.Forall₂ Stretch.Alike ss ss' →
        redact (ofStretches ss) = redact (ofStretches ss') := by
  have hredact {ss : List Stretch} (h : ∀ a ∈ ss, a.IsProper (· ≠ '\n')) :
      redact (ofStretches ss) = String.ofList (ss.flatMap Stretch.redacted) := by
    rw [redact, ofStretches, String.toList_ofList, redactChars_stretches h]
  refine ⟨hredact h, fun ss' h' halike => ?_⟩
  rw [hredact h, hredact h']
  congr 1
  clear h h'
  induction halike with
  | nil => rfl
  | cons ha _ ih => rw [List.flatMap_cons, List.flatMap_cons, Stretch.redacted_eq ha, ih]

/-- Quotes within quotes, a covered quote, a covered backslash at the end, and literals with nothing in
them or between them. -/
def nested : List Stretch :=
  [.plain ['a', ' '], .literal '\'' ['x', '"', '\\', '\'', '\n'], .literal '"' ['\'', '\\', '\\'],
    .literal '\'' [], .plain ['\\', 'b']]

theorem redact_nested :
    (∀ a ∈ nested, a.IsProper (· ≠ '\n')) ∧
      redact (ofStretches nested) = String.ofList (nested.flatMap Stretch.redacted) ∧
        ∀ ss', (∀ a ∈ ss', a.IsProper (· ≠ '\n')) → List.Forall₂ Stretch.Alike nested ss' →
          redact (ofStretches nested) = redact (ofStretches ss') := by
  have hsingle : IsBody (· ≠ '\n') '\'' ['x', '"', '\\', '\'', '\n'] :=
    .plain (by decide) (by decide) <| .plain (by decide) (by decide) <| .covered (by decide) <|
      .plain (by decide) (by decide) .nil
  have hdouble : IsBody (· ≠ '\n') '"' ['\'', '\\', '\\'] :=
    .plain (by decide) (by decide) <| .covered (by decide) .nil
  have hproper : ∀ a ∈ nested, a.IsProper (· ≠ '\n') := by
    simp [nested, Stretch.IsProper, IsQuote, hsingle, hdouble, IsBody.nil]
  exact ⟨hproper, redact_ofStretches hproper⟩

/-- A literal in which a backslash covers a line feed is not hidden. -/
theorem redact_covered_feed :
    (∀ a ∈ [Stretch.literal '\'' ['\\', '\n']], a.IsProper fun _ => True) ∧
      redact (ofStretches [.literal '\'' ['\\', '\n']]) = "'\\\n'" ∧
        redact (ofStretches [.literal '\'' ['\\', '\n']]) ≠
          String.ofList ([Stretch.literal '\'' ['\\', '\n']].flatMap Stretch.redacted) := by
  have hproper : (Stretch.literal '\'' ['\\', '\n']).IsProper fun _ => True :=
    ⟨.inl rfl, .covered trivial .nil⟩
  have hredact : redact (ofStretches [.literal '\'' ['\\', '\n']]) = "'\\\n'" := by
    -- The first quote opens no literal, and neither does the last one.
    have hchars : redactChars ['\'', '\\', '\n', '\''] = ['\'', '\\', '\n', '\''] := by
      rw [redactChars_quote (.inl rfl) rfl, redactChars_char (by decide), redactChars_char (by decide),
        redactChars_quote (.inl rfl) rfl, redactChars]
    rw [redact, ofStretches, String.toList_ofList]
    exact congrArg String.ofList hchars
  refine ⟨List.forall_mem_singleton.2 hproper, hredact, ?_⟩
  rw [hredact]
  decide

end QueryMethods.Text
