/-
The reading of a tree. A grammar is legible if its comparisons are read back as factors and it has
the common infix forms for junctions and negations; then a condition is read back as a factor where
it is nested and as a sum where it is not, with the truth of the condition.
-/
import QueryMethods.Proofs.Grammar.Clean

namespace QueryMethods

variable {refers : Char → Bool} {clause : ClauseReader} {truth truth' : (Comparison → Bool) → Bool}

/-! ## Templates of a kind -/

/-- A template whose references can be followed and whose tokens are of a kind. -/
structure Template.Tells (refers : Char → Bool) (kind : List Token → Prop) (t : Template) : Prop where
  clean : t.Clean refers
  tokens : kind (Symbol.tokens t.symbols)

namespace Template

variable {t u : Template}

theorem Tells.isSum (h : Tells refers (clause.IsFactor truth) t) :
    Tells refers (clause.IsSum truth) t :=
  ⟨h.clean, h.tokens.isSum⟩

/-- The tokens of templates with a connective between them. -/
theorem tokens_and (t u : Template) :
    Symbol.tokens (symbols (t ++ .text " AND " :: u)) =
      Symbol.tokens t.symbols ++ .word "AND" :: Symbol.tokens u.symbols := by
  rw [symbols_append]
  exact Symbol.tokens_append (e := .char ' ') rfl t.symbols (Symbol.ofText "AND " ++ u.symbols)

theorem tokens_or (t u : Template) :
    Symbol.tokens (symbols (t ++ .text " OR " :: u)) =
      Symbol.tokens t.symbols ++ .word "OR" :: Symbol.tokens u.symbols := by
  rw [symbols_append]
  exact Symbol.tokens_append (e := .char ' ') rfl t.symbols (Symbol.ofText "OR " ++ u.symbols)

theorem Tells.and (hq : Quiet refers) (h : Tells refers (clause.IsFactor truth) t)
    (h' : Tells refers (clause.IsFactor truth') u) :
    Tells refers (clause.IsFactor fun holds => truth holds && truth' holds)
      (t ++ .text " AND " :: u) where
  clean := clean_append h.clean ⟨hq.silent rfl, h'.clean⟩ (opens_text rfl rfl _)
  tokens := by rw [tokens_and]; exact h.tokens.and h'.tokens

theorem Tells.or (hq : Quiet refers) (h : Tells refers (clause.IsSum truth) t)
    (h' : Tells refers (clause.IsSum truth') u) :
    Tells refers (clause.IsSum fun holds => truth holds || truth' holds)
      (t ++ .text " OR " :: u) where
  clean := clean_append h.clean ⟨hq.silent rfl, h'.clean⟩ (opens_text rfl rfl _)
  tokens := by rw [tokens_or]; exact h.tokens.or h'.tokens

theorem tokens_closed (ss : List Symbol) :
    Symbol.tokens (ss ++ Symbol.ofText ")") = Symbol.tokens ss ++ [.mark ')'] :=
  Symbol.tokens_append (e := .char ')') rfl ss []

theorem Tells.grouped (hq : Quiet refers) (h : Tells refers (clause.IsSum truth) t) :
    Tells refers (clause.IsFactor truth) (grouped true t) where
  clean := clean_grouped hq true h.clean
  tokens := by
    have htokens : Symbol.tokens (symbols (Template.grouped true t)) =
        .mark '(' :: Symbol.tokens t.symbols ++ [.mark ')'] := by
      show Symbol.tokens (Symbol.ofText "(" ++ symbols (t ++ [.text ")"])) = _
      rw [symbols_append]
      show .mark '(' :: Symbol.tokens (t.symbols ++ Symbol.ofText ")") = _
      rw [tokens_closed, List.cons_append]
    rw [htokens]
    exact h.tokens.group

theorem Tells.negationBefore (hq : Quiet refers) (h : Tells refers (clause.IsSum truth) t) :
    Tells refers (clause.IsFactor fun holds => !truth holds) (negationBefore t) where
  clean := Grammar.clean_negationBefore hq h.clean
  tokens := by
    have htokens : Symbol.tokens (symbols (QueryMethods.negationBefore t)) =
        .word "NOT" :: .mark '(' :: Symbol.tokens t.symbols ++ [.mark ')'] := by
      show Symbol.tokens (Symbol.ofText "NOT (" ++ symbols (t ++ [.text ")"])) = _
      rw [symbols_append]
      show .word "NOT" :: .mark '(' :: Symbol.tokens (t.symbols ++ Symbol.ofText ")") = _
      rw [tokens_closed, List.cons_append, List.cons_append]
    rw [htokens]
    exact h.tokens.negation

/-! ## Joined texts -/

theorem opens_append_left {u u' : Template} (h : Opens u → Opens u') :
    Opens (t ++ u) → Opens (t ++ u') := by
  induction t with
  | nil => exact h
  | cons p t ih =>
    cases p with
    | text s =>
      rw [List.cons_append, List.cons_append, Opens, Opens]
      cases s.toList with
      | nil => exact ih
      | cons c r => exact id
    | _ => exact False.elim

theorem clean_append_left {u u' : Template} (hopens : Opens u → Opens u')
    (h : Clean refers u → Clean refers u') : Clean refers (t ++ u) → Clean refers (t ++ u') := by
  induction t with
  | nil => exact h
  | cons p t ih =>
    cases p with
    | text s => exact And.imp_right ih
    | aliased column => exact And.imp_right (And.imp (opens_append_left hopens) ih)
    | slot name v => exact And.imp (opens_append_left hopens) ih

/-- Two texts may be put together. -/
theorem Tells.joined {kind : List Token → Prop} {s s' : String} (t : Template) {u : Template}
    (h : Tells refers kind (t ++ .text s :: .text s' :: u)) :
    Tells refers kind (t ++ .text (s ++ s') :: u) where
  clean := by
    refine clean_append_left (fun hopens => ?_) ?_ h.clean
    · rw [Opens] at hopens
      rw [Opens, String.toList_append]
      cases hs : s.toList with
      | nil => rw [hs] at hopens; exact hopens
      | cons c r => rw [hs] at hopens; exact hopens
    · rintro ⟨hs, hs', hu⟩
      exact ⟨Silent.append hs hs', hu⟩
  tokens := by
    have hsymbols : symbols (t ++ .text (s ++ s') :: u) =
        symbols (t ++ .text s :: .text s' :: u) := by
      simp [Piece.symbols, Symbol.ofText_append]
    rw [hsymbols]
    exact h.tokens

end Template

/-! ## Conditions -/

namespace Grammar

/-- A grammar with the common infix forms whose comparisons on given fields are read back as factors,
each with the truth of the formula that it says. -/
structure Legible (g : Grammar) (refers : Char → Bool) (clause : ClauseReader)
    (said : Comparison → Formula Comparison) (field : String → Prop) : Prop where
  quiet : Quiet refers
  comparison : ∀ {k t}, field k.field → g.comparison k = .ok t →
    t.Tells refers (clause.IsFactor fun holds => (said k).eval holds)
  junction : g.junction = infixJunction
  negation : g.negation = negationBefore

variable {g : Grammar} {said : Comparison → Formula Comparison} {field : String → Prop}

/-- The truth of a condition whose comparisons say formulas. -/
def truthOf (said : Comparison → Formula Comparison) (c : Condition) (holds : Comparison → Bool) : Bool :=
  c.eval fun k => (said k).eval holds

/-- Templates of conditions that are all factors. -/
def TellAll (refers : Char → Bool) (clause : ClauseReader) (said : Comparison → Formula Comparison) :
    List Condition → List Template → Prop :=
  List.Forall₂ fun c t => t.Tells refers (clause.IsFactor (truthOf said c))

theorem tells_conjunction (hq : Quiet refers) {cs : List Condition} {ts : List Template}
    (h : TellAll refers clause said cs ts) (hne : cs ≠ []) :
    (Template.separated " AND " ts).Tells refers
      (clause.IsFactor (truthOf said (.junction .and cs))) := by
  induction h with
  | nil => exact absurd rfl hne
  | @cons c t cs ts hc hcs ih =>
    cases hcs with
    | nil =>
      have htruth : truthOf said (.junction .and [c]) = truthOf said c := by
        funext holds
        simp [truthOf, Condition.eval, Condition.evals, Junction.combine]
      rw [htruth]
      rw [Template.separated_singleton]
      exact hc
    | cons hc' hcs' =>
      rw [Template.separated_cons_cons]
      exact hc.and hq (ih (by simp))

theorem tells_disjunction (hq : Quiet refers) {cs : List Condition} {ts : List Template}
    (h : TellAll refers clause said cs ts) (hne : cs ≠ []) :
    (Template.separated " OR " ts).Tells refers
      (clause.IsSum (truthOf said (.junction .or cs))) := by
  induction h with
  | nil => exact absurd rfl hne
  | @cons c t cs ts hc hcs ih =>
    cases hcs with
    | nil =>
      have htruth : truthOf said (.junction .or [c]) = truthOf said c := by
        funext holds
        simp [truthOf, Condition.eval, Condition.evals, Junction.combine]
      rw [htruth]
      rw [Template.separated_singleton]
      exact hc.isSum
    | cons hc' hcs' =>
      rw [Template.separated_cons_cons]
      exact hc.isSum.or hq (ih (by simp))

/-- A junction is a sum without its parentheses and a factor with them. -/
theorem tells_junction (hq : Quiet refers) (j : Junction) {cs : List Condition} {ts : List Template}
    (h : TellAll refers clause said cs ts) (hne : cs ≠ []) :
    (infixJunction j false ts).Tells refers (clause.IsSum (truthOf said (.junction j cs))) ∧
      (infixJunction j true ts).Tells refers (clause.IsFactor (truthOf said (.junction j cs))) := by
  have hsum : (infixJunction j false ts).Tells refers
      (clause.IsSum (truthOf said (.junction j cs))) := by
    cases j with
    | and => exact (tells_conjunction hq h hne).isSum
    | or => exact tells_disjunction hq h hne
  exact ⟨hsum, hsum.grouped hq⟩

mutual

/-- A condition in a junction is read as a factor, any other as a sum. -/
theorem tells_template (hg : g.Legible refers clause said field) :
    ∀ (c : Condition), c.Full → (∀ k ∈ c.comparisons, field k.field) →
      (∀ t, g.template false c = .ok t → t.Tells refers (clause.IsSum (truthOf said c))) ∧
        ∀ t, g.template true c = .ok t → t.Tells refers (clause.IsFactor (truthOf said c))
  | .comparison k, _, hfield => by
    have hk (t : Template) (ht : g.comparison k = .ok t) :
        t.Tells refers (clause.IsFactor (truthOf said (.comparison k))) :=
      hg.comparison (hfield k List.mem_cons_self) ht
    constructor
    · intro t ht
      rw [template] at ht
      exact (hk t ht).isSum
    · intro t ht
      rw [template] at ht
      exact hk t ht
  | .junction j cs, hfull, hfield => by
    have hchildren (nested : Bool) (t : Template) (ht : g.template nested (.junction j cs) = .ok t) :
        ∃ ts, t = infixJunction j nested ts ∧ TellAll refers clause said cs ts := by
      rw [template] at ht
      split at ht
      · obtain ⟨ts, hts, rfl⟩ := ok_of_map ht
        exact ⟨ts, by rw [hg.junction], tells_templates hg cs hfull.2 hfield ts hts⟩
      · cases ht
    constructor
    · intro t ht
      obtain ⟨ts, rfl, hts⟩ := hchildren false t ht
      exact (tells_junction hg.quiet j hts hfull.1).1
    · intro t ht
      obtain ⟨ts, rfl, hts⟩ := hchildren true t ht
      exact (tells_junction hg.quiet j hts hfull.1).2
  | .not c, hfull, hfield => by
    -- A negation has parentheses of its own, so what is in it is not nested, wherever it stands.
    have hinner (nested : Bool) (t : Template) (ht : g.template nested (.not c) = .ok t) :
        t.Tells refers (clause.IsFactor (truthOf said (.not c))) := by
      rw [template] at ht
      split at ht
      · obtain ⟨u, hu, rfl⟩ := ok_of_map ht
        rw [hg.negation]
        exact ((tells_template hg c hfull hfield).1 u hu).negationBefore hg.quiet
      · cases ht
    constructor
    · intro t ht
      exact (hinner false t ht).isSum
    · exact hinner true

theorem tells_templates (hg : g.Legible refers clause said field) :
    ∀ (cs : List Condition), Condition.FullAll cs →
      (∀ k ∈ Condition.comparisonsAll cs, field k.field) →
        ∀ ts, g.templates cs = .ok ts → TellAll refers clause said cs ts
  | [], _, _, ts, hts => by
    rw [templates] at hts
    cases hts
    exact List.Forall₂.nil
  | c :: cs, hfull, hfield, ts, hts => by
    rw [templates] at hts
    obtain ⟨t, ht, hts⟩ := ok_of_bind hts
    obtain ⟨r, hr, hts⟩ := ok_of_bind hts
    cases hts
    have hfirst := fun k hk => hfield k (List.mem_append_left _ hk)
    have hothers := fun k hk => hfield k (List.mem_append_right _ hk)
    exact List.Forall₂.cons ((tells_template hg c hfull.1 hfirst).2 t ht)
      (tells_templates hg cs hfull.2 hothers r hr)

end

end Grammar

end QueryMethods
