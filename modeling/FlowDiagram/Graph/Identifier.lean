/-!
# Identifiers

A key is qualified by the identifier of the group around it. Different paths may lead to
the same text; an identifier that is taken gets the first number, from two on, that makes
it free.
-/

namespace FlowDiagram.Graph

/-- A key inside a group. Without a group around it the key stands alone. -/
def qualify (group key : String) : String := if group.isEmpty then key else group ++ "_" ++ key

/-- The name of an edge by its ends and its label. -/
def edgeName (source target : String) (label : Option String) : String :=
  source ++ "-" ++ target ++ "-" ++ ((label.filter (!·.isEmpty)).getD "default")

def numbered (name : String) (n : Nat) : String := name ++ "_" ++ toString n

/-- The first number from `n` on with which a name is free, looking at most at so many
numbers. -/
def firstFree (taken : List String) (name : String) : Nat → Nat → Nat
  | 0, n => n
  | tries + 1, n =>
    if numbered name n ∈ taken then firstFree taken name tries (n + 1) else n

/-- The identifier that a name gets when others are taken. -/
def claim (taken : List String) (name : String) : String :=
  if name ∈ taken then numbered name (firstFree taken name taken.length 2) else name

/-- The identifiers that names get one after the other. -/
def claimAll : List String → List String → List String
  | _, [] => []
  | taken, name :: rest =>
    let id := claim taken name
    id :: claimAll (id :: taken) rest

end FlowDiagram.Graph
