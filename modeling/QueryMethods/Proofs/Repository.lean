/-
The life of a repository. A table of methods has each name once, where it first came, with the last method
that was given under it. Once all methods of the table were validated, no call fails for a declaration
unless it names a method that was never given: what an invocation checks of a declaration, validation has
checked before.
-/
import QueryMethods.Proofs.Entries
import QueryMethods.Proofs.Invocation.Requests
import QueryMethods.Repository

namespace QueryMethods

/-! ## Tables -/

/-- The last of the methods that has the name. -/
def lastNamed? (methods : List Method) (name : String) : Option Method :=
  methods.findRev? (·.name == name)

theorem lookup_methodTable (methods : List Method) (name : String) :
    (methodTable methods).lookup name = lastNamed? methods name := by
  rw [methodTable, Entries.lookup_ofList, List.findRev?_eq_find?_reverse, ← List.map_reverse,
    List.find?_map, Option.map_map, lastNamed?, List.findRev?_eq_find?_reverse]
  exact Option.map_id'

theorem keys_methodTable (methods : List Method) :
    (methodTable methods).keys = (methods.map Method.name).eraseDups := by
  rw [methodTable, Entries.keys_ofList, List.map_map]
  rfl

theorem lastNamed?_eq_none_iff {methods : List Method} {name : String} :
    lastNamed? methods name = none ↔ name ∉ methods.map Method.name := by
  rw [lastNamed?, List.findRev?_eq_find?_reverse, List.find?_eq_none]
  simp

/-! ## Validated methods -/

theorem validateAll_eq_ok_iff {methods : List Method} :
    validateAll methods = .ok () ↔ ∀ m ∈ methods, m.validate = .ok () := by
  induction methods with
  | nil => exact ⟨fun _ => nofun, fun _ => rfl⟩
  | cons m methods ih =>
    rw [List.forall_mem_cons, ← ih, validateAll]
    constructor
    · intro h
      obtain ⟨_, hm, h⟩ := ok_of_bind h
      exact ⟨hm, h⟩
    · rintro ⟨hm, h⟩
      rw [hm]
      exact h

namespace Settings

variable {s : Settings} {m : Method} {args : List Value} {e : DeclarationError}

/-- No invocation of a method that was validated is refused for its declaration. -/
theorem prepare_ne_declaration (h : m.validate = .ok ()) :
    s.prepare m args ≠ .error (.declaration e) := by
  intro hprepare
  rcases prepare_eq_declaration_iff.1 hprepare with horigin | ⟨-, hnames⟩
  · obtain ⟨e', he'⟩ := Method.validate_of_origin horigin
    rw [h] at he'
    cases he'
  · have he := Method.validate_of_checkBindings hnames
    rw [h] at he
    cases he

variable {α : Type} [BEq α] {store : Store α} {earlier : List Request}

theorem result_invoke_ne_declaration (h : m.validate = .ok ()) :
    (s.invoke store earlier m args).result ≠ .error (.declaration e) := by
  unfold invoke
  cases hprepare : s.prepare m args with
  | error e' =>
    intro he
    cases he
    exact prepare_ne_declaration h hprepare
  | ok p => exact fun he => Invocation.not_isRefusal_ask he trivial

end Settings

/-! ## Calls one after the other -/

namespace Repository

/-- An invocation by name, with its arguments. -/
structure Call where
  name : String
  args : List Value

variable {α : Type}

/-- The invocations that calls make one after the other, on a store that has been asked some earlier
requests. -/
def run [BEq α] (r : Repository) (store : Store α) : List Request → List Call → List (Invocation α)
  | _, [] => []
  | earlier, c :: cs =>
    let i := r.call store earlier c.name c.args
    i :: r.run store (earlier ++ i.requests) cs

/-- Each of the calls made one after the other gives an invocation of which the same is true, given the
requests that were made before it. -/
inductive Along (P : List Request → Call → Invocation α → Prop) :
    List Request → List Call → List (Invocation α) → Prop
  | nil (earlier : List Request) : Along P earlier [] []
  | cons {earlier : List Request} {c : Call} {cs : List Call} {i : Invocation α}
      {is : List (Invocation α)} (h : P earlier c i) (hs : Along P (earlier ++ i.requests) cs is) :
      Along P earlier (c :: cs) (i :: is)

theorem along_run [BEq α] {r : Repository} {store : Store α}
    {P : List Request → Call → Invocation α → Prop}
    (h : ∀ earlier c, P earlier c (r.call store earlier c.name c.args)) (cs : List Call) :
    ∀ earlier, Along P earlier cs (r.run store earlier cs) := by
  induction cs with
  | nil => exact fun earlier => .nil earlier
  | cons c cs ih => exact fun earlier => .cons (h earlier c) (ih _)

/-- The invocation that a call gives is that of the last method given under its name. It fails for a
declaration exactly if there is none, and then because of that. -/
structure Serves [BEq α] (s : Settings) (methods : List Method) (store : Store α)
    (earlier : List Request) (c : Call) (i : Invocation α) : Prop where
  declaration : ∀ e, i.result = .error (.declaration e) ↔
    c.name ∉ methods.map Method.name ∧ e = .unknownMethod c.name
  unlisted : c.name ∉ methods.map Method.name → i.requests = []
  listed : ∀ m, lastNamed? methods c.name = some m → i = s.invoke store earlier m c.args

variable {s : Settings} {methods : List Method} {r : Repository}

/-- What a repository is that was made with validation: its settings and its table, of which every method
was validated. -/
theorem ofTable_validated {table : Entries Method} (hs : s.eagerValidation = true)
    (h : ofTable s table = .ok r) :
    r = ⟨s, table⟩ ∧ ∀ name m, table.lookup name = some m → m.validate = .ok () := by
  rw [ofTable, if_pos hs] at h
  split at h
  · rename_i hall
    cases h
    refine ⟨rfl, fun name m hm => validateAll_eq_ok_iff.1 hall m ?_⟩
    exact List.mem_map_of_mem (Entries.mem_of_lookup hm)
  · cases h

theorem serves_call [BEq α] (hs : s.eagerValidation = true)
    (h : ofTable s (methodTable methods) = .ok r) (store : Store α) (earlier : List Request) (c : Call) :
    Serves s methods store earlier c (r.call store earlier c.name c.args) := by
  obtain ⟨rfl, hvalid⟩ := ofTable_validated hs h
  simp only [lookup_methodTable] at hvalid
  have hlookup : (methodTable methods).lookup c.name = lastNamed? methods c.name :=
    lookup_methodTable methods c.name
  unfold call method
  rw [hlookup]
  cases hlast : lastNamed? methods c.name with
  | none =>
    have hunlisted := lastNamed?_eq_none_iff.1 hlast
    refine ⟨fun e => ⟨fun he => ?_, ?_⟩, fun _ => rfl, fun m hm => by cases hlast.symm.trans hm⟩
    · cases he
      exact ⟨hunlisted, rfl⟩
    · rintro ⟨-, rfl⟩
      rfl
  | some m =>
    have hlisted : ¬c.name ∉ methods.map Method.name := by
      rw [← lastNamed?_eq_none_iff, hlast]
      exact Option.some_ne_none m
    refine ⟨fun e => iff_of_false ?_ fun h => hlisted h.1, fun h => absurd h hlisted, fun m' hm' => ?_⟩
    · exact Settings.result_invoke_ne_declaration (hvalid c.name m hlast)
    · cases hlast.symm.trans hm'
      rfl

/-- A repository that was made with validation serves every name that was given, in the order in which the
names first came, with the last method given under it, and it does not matter whether the methods were
given or resolved. Whatever is called later on whatever store, in any order and with any arguments, a call
fails for a declaration only if it names no method. -/
theorem serves_run (hs : s.eagerValidation = true) (h : ofTable s (methodTable methods) = .ok r) :
    r.methods.keys = (methods.map Method.name).eraseDups ∧
      (∀ name, r.methods.lookup name = lastNamed? methods name) ∧
      (∀ (ρ : Type) (resolve : ρ → Except DeclarationError Method) (sources : List ρ),
        sources.mapM resolve = .ok methods → resolving s resolve sources = .ok r) ∧
      ∀ (α : Type) [BEq α] (store : Store α) (earlier : List Request) (cs : List Call),
        Along (Serves s methods store) earlier cs (r.run store earlier cs) := by
  obtain ⟨hr, -⟩ := ofTable_validated hs h
  refine ⟨?_, fun name => ?_, fun ρ resolve sources hsources => ?_, fun α _ store earlier cs => ?_⟩
  · rw [hr]
    exact keys_methodTable methods
  · rw [hr]
    exact lookup_methodTable methods name
  · rw [resolving, hsources]
    exact h
  · exact along_run (serves_call hs h store) cs earlier

/-- Methods of which the first, which is no query, is replaced by the last. -/
def replaced : List Method :=
  [{ name := "fetchAll", returns := .orderedList },
    { name := "findByName", parameters := [some "name"], returns := .orderedList },
    { name := "fetchAll", returns := .orderedList, query := some "FOR p IN Person RETURN p" }]

/-- The method that was replaced is neither validated nor served. -/
theorem serves_replaced :
    ofTable {} (methodTable replaced) = .ok ⟨{}, methodTable replaced⟩ ∧
      (methodTable replaced).keys = ["fetchAll", "findByName"] ∧
      ∃ i i', run ⟨{}, methodTable replaced⟩ (fun _ _ => .ok .done : Store Unit) []
          [⟨"fetchAll", []⟩, ⟨"fetchOne", []⟩] = [i, i'] ∧
        (∀ e, i.result ≠ .error (.declaration e)) ∧
        i'.result = .error (.declaration (.unknownMethod "fetchOne")) := by
  have hvalid : validateAll ((methodTable replaced).map Prod.snd) = .ok () := by decide +kernel
  have h : ofTable {} (methodTable replaced) = .ok ⟨{}, methodTable replaced⟩ := by
    rw [ofTable, hvalid]
    rfl
  obtain ⟨hkeys, -, -, hserves⟩ := serves_run rfl h
  refine ⟨h, hkeys.trans (by decide), _, _, rfl, ?_⟩
  cases hserves Unit (fun _ _ => .ok .done) [] [⟨"fetchAll", []⟩, ⟨"fetchOne", []⟩] with
  | cons hfirst hrest =>
    cases hrest with
    | cons hsecond _ =>
      refine ⟨fun e he => ?_, (hsecond.declaration _).2 ⟨by decide, rfl⟩⟩
      exact ((hfirst.declaration e).1 he).1 (by decide)

end Repository

end QueryMethods
