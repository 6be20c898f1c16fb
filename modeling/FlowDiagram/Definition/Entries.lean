/-!
# Entries in order

Named entries are kept in the order in which the names first appeared. Writing a name
again replaces its value in place.
-/

namespace FlowDiagram.Definition

/-- Named values in the order of first appearance. -/
abbrev Entries (α : Type) := List (String × α)

namespace Entries

variable {α : Type}

def write (name : String) (value : α) : Entries α → Entries α
  | [] => [(name, value)]
  | (n, v) :: rest => if n = name then (n, value) :: rest else (n, v) :: write name value rest

/-- The entries that result from writing a list in order. -/
def ofList (entries : List (String × α)) : Entries α :=
  entries.foldl (fun es (n, v) => write n v es) []

def names (es : Entries α) : List String := es.map (·.1)

def get? (es : Entries α) (name : String) : Option α := es.lookup name

/-- The entries with some names, in the order of the names. -/
def among (names : List String) (es : Entries α) : Entries α :=
  names.filterMap fun name => (es.get? name).map (name, ·)

/-- The entries with other names. -/
def outside (names : List String) (es : Entries α) : Entries α :=
  es.filter fun (name, _) => !names.contains name

/-- Writing a present name moves nothing, and a new one goes to the end. -/
theorem names_write (name : String) (value : α) (es : Entries α) :
    names (write name value es) = if name ∈ names es then names es else names es ++ [name] := by
  induction es with
  | nil => simp [write, names]
  | cons e rest ih =>
    obtain ⟨n, v⟩ := e
    simp only [write]
    by_cases h : n = name
    · subst h
      simp [names]
    · rw [if_neg h]
      have h' : ¬name = n := fun e => h e.symm
      simp only [names, List.map_cons, List.mem_cons, h', false_or] at ih ⊢
      rw [ih]
      by_cases m : name ∈ rest.map fun e => e.1 <;> simp [m]

end Entries

end FlowDiagram.Definition
