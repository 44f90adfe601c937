/-
Repositories: methods under their names, checked when the repository is made or on first use.
-/
import QueryMethods.Invocation
namespace QueryMethods

/-- Checks methods in order and stops at the first that cannot be used. -/
def validateAll : List Method → Except DeclarationError Unit
  | [] => .ok ()
  | m :: r => do
    m.validate
    validateAll r

/-- Methods under their names; of two with one name the later one counts, in the earlier place. -/
def methodTable (methods : List Method) : Entries Method :=
  Entries.ofList (methods.map fun m => (m.name, m))

/-- Methods under their names, with the settings of their invocations. -/
structure Repository where
  settings : Settings
  methods : Entries Method

namespace Repository

/-- A repository over a table of methods. -/
def ofTable (s : Settings) (methods : Entries Method) : Except Failure Repository :=
  if s.eagerValidation then
    match validateAll (methods.map Prod.snd) with
    | .ok () => .ok ⟨s, methods⟩
    | .error e => .error (.declaration e)
  else .ok ⟨s, methods⟩

/-- A repository over methods that are resolved first, one by one. -/
def resolving {ρ : Type} (s : Settings) (resolve : ρ → Except DeclarationError Method)
    (sources : List ρ) : Except Failure Repository :=
  match sources.mapM resolve with
  | .ok methods => ofTable s (methodTable methods)
  | .error e => .error (.declaration e)

/-- The method of a name, which must be declared. -/
def method (r : Repository) (name : String) : Except DeclarationError Method :=
  match r.methods.lookup name with
  | some m => .ok m
  | none => .error (.unknownMethod name)

/-- Calls a method by name on a store that has been asked some earlier requests. -/
def call {α : Type} [BEq α] (r : Repository) (store : Store α) (earlier : List Request)
    (name : String) (args : List Value) : Invocation α :=
  match r.method name with
  | .error e => .refused (.declaration e)
  | .ok m => r.settings.invoke store earlier m args

end Repository

end QueryMethods
