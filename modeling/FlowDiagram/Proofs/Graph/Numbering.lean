import FlowDiagram.Proofs.Graph.Naming
import Mathlib.Data.List.Chain
import Mathlib.Logic.Relation
import Mathlib.Order.Bounds.Basic
/-!
# The search for a free identifier

A search tries a name, and as long as what it tried is taken, the name with the next number. The
identifiers that it tries all differ, so there are not more `Round`s than taken identifiers
(`length_le_of_rounds`). What `claim` gives is where the rounds end (`claims_iff`): the name
itself, or the name with the least number that is free.

What one claim takes, the later ones have to pass over. So a whole sequence of names is claimed
(`claimsAll_iff`), whether or not some of them look like numbered ones. Edges with identifiers
that differ have nothing to pass over, which is why identifying them again changes nothing.
-/

namespace FlowDiagram.Graph

open Relation

variable {taken taken' names ids : List String} {name id : String} {n : Nat}

/-- What a search looks at: an identifier, and the number to try after it. -/
structure Attempt where
  id : String
  next : Nat

/-- A search begins with the name as it is. -/
def Attempt.first (name : String) : Attempt := ⟨name, 2⟩

/-- One round of a search: where an identifier is taken, the name is tried with the next number. -/
inductive Round (taken : List String) (name : String) : Attempt → Attempt → Prop
  | next {id : String} {n : Nat} (used : id ∈ taken) :
      Round taken name ⟨id, n⟩ ⟨numbered name n, n + 1⟩

/-- A name gets the identifier at which the rounds of a search end. It is taken from then on. -/
inductive Claims (taken : List String) (name : String) : String → List String → Prop
  | found {id : String} {n : Nat}
      (search : ReflTransGen (Round taken name) (.first name) ⟨id, n⟩) (free : id ∉ taken) :
      Claims taken name id (id :: taken)

/-- Names get their identifiers one after the other. -/
inductive ClaimsAll : List String → List String → List String → List String → Prop
  | nil {taken : List String} : ClaimsAll taken [] [] taken
  | cons {taken between taken' names ids : List String} {name id : String}
      (first : Claims taken name id between) (later : ClaimsAll between names ids taken') :
      ClaimsAll taken (name :: names) (id :: ids) taken'

/-! ## Rounds -/

theorem numbered_ne (name : String) (n : Nat) : numbered name n ≠ name := by
  intro same
  have length := congrArg String.length same
  have bar : "_".length = 1 := rfl
  rw [numbered, String.length_append, String.length_append, bar] at length
  omega

theorem Round.used {a b : Attempt} (round : Round taken name a b) : a.id ∈ taken := by
  cases round
  assumption

theorem Round.unique : Relator.RightUnique (Round taken name) := by
  rintro a b c ⟨-⟩ ⟨-⟩
  rfl

/-- After the first round a search tries one number after the other. -/
theorem ids_of_rounds {a : Attempt} {run : List Attempt}
    (rounds : (a :: run).IsChain (Round taken name)) :
    run.map Attempt.id = (List.range' a.next run.length).map (numbered name) := by
  induction run generalizing a with
  | nil => rfl
  | cons b rest ih =>
      obtain ⟨⟨used⟩, later⟩ := List.isChain_cons_cons.mp rounds
      rw [List.map_cons, ih later, List.length_cons, List.range'_succ, List.map_cons]

/-- Whatever is tried before the last round is taken. -/
theorem used_of_rounds {a : Attempt} {run : List Attempt}
    (rounds : (a :: run).IsChain (Round taken name)) :
    ((a :: run).map Attempt.id).dropLast ⊆ taken := by
  induction run generalizing a with
  | nil => exact List.nil_subset _
  | cons b rest ih =>
      obtain ⟨round, later⟩ := List.isChain_cons_cons.mp rounds
      exact List.cons_subset.mpr ⟨round.used, ih later⟩

/-- A search has not more rounds than there are taken identifiers. -/
theorem length_le_of_rounds {run : List Attempt}
    (rounds : (Attempt.first name :: run).IsChain (Round taken name)) :
    run.length ≤ taken.length := by
  -- All that is tried differs, and all of it but the last is taken.
  have differ : ((Attempt.first name :: run).map Attempt.id).Nodup := by
    rw [List.map_cons, ids_of_rounds rounds]
    refine List.nodup_cons.mpr ⟨?_, List.Nodup.map (numbered_injective name) List.nodup_range'⟩
    intro again
    obtain ⟨n, -, same⟩ := List.mem_map.mp again
    exact numbered_ne name n same
  have short := (differ.sublist (List.dropLast_sublist _)).length_le_of_subset
    (used_of_rounds rounds)
  rwa [List.length_dropLast, List.length_map, List.length_cons, Nat.add_sub_cancel] at short

/-- While numbers are taken, the rounds go on through them. -/
theorem rounds_to_numbered (used : name ∈ taken) (from_two : 2 ≤ n)
    (passed : ∀ i, 2 ≤ i → i < n → numbered name i ∈ taken) :
    ReflTransGen (Round taken name) (.first name) ⟨numbered name n, n + 1⟩ := by
  induction n, from_two using Nat.le_induction with
  | base => exact .single (.next used)
  | succ n from_two ih =>
      have before := ih fun i low high => passed i low (Nat.lt_succ_of_lt high)
      exact before.tail (.next (passed n from_two (Nat.lt_succ_self n)))

/-! ## Claims -/

theorem le_firstFree (taken : List String) (name : String) (tries n : Nat) :
    n ≤ firstFree taken name tries n := by
  induction tries generalizing n with
  | zero => exact Nat.le_refl n
  | succ tries ih =>
      rw [firstFree]
      split
      · exact Nat.le_of_succ_le (ih (n + 1))
      · exact Nat.le_refl n

/-- A name that is taken gets the least number from two on that makes it free. -/
theorem exists_least_of_mem (used : name ∈ taken) :
    ∃ n, IsLeast { n | 2 ≤ n ∧ numbered name n ∉ taken } n ∧
      claim taken name = numbered name n := by
  refine ⟨firstFree taken name taken.length 2, ⟨⟨le_firstFree _ _ _ _, ?_⟩, ?_⟩, if_pos used⟩
  · exact numbered_firstFree_not_mem taken name 2
  · rintro n ⟨from_two, free⟩
    exact Nat.not_lt.mp fun before => free (mem_of_lt_firstFree from_two before)

/-- The rounds of a search lead to what `claim` gives. -/
theorem rounds_to_claim (taken : List String) (name : String) :
    ∃ n, ReflTransGen (Round taken name) (.first name) ⟨claim taken name, n⟩ := by
  by_cases used : name ∈ taken
  · obtain ⟨n, ⟨⟨from_two, -⟩, least⟩, claimed⟩ := exists_least_of_mem used
    refine ⟨n + 1, claimed ▸ rounds_to_numbered used from_two fun i low high => ?_⟩
    exact by_contra fun free => absurd (least ⟨low, free⟩) (Nat.not_le.mpr high)
  · rw [claim_of_not_mem used]
    exact ⟨2, .refl⟩

/-- Where a search ends, another one with the same rounds ends too. -/
theorem end_unique {a b : Attempt} (search : ReflTransGen (Round taken name) (.first name) a)
    (search' : ReflTransGen (Round taken name) (.first name) b) (free : a.id ∉ taken)
    (free' : b.id ∉ taken) : a = b := by
  have stays : ∀ {a b : Attempt}, a.id ∉ taken → ReflTransGen (Round taken name) a b → a = b := by
    intro a b free path
    obtain same | ⟨c, round, -⟩ := path.cases_head
    · exact same
    · exact absurd round.used free
  obtain path | path := ReflTransGen.total_of_right_unique Round.unique search search'
  · exact stays free path
  · exact (stays free' path).symm

theorem claims_claim (taken : List String) (name : String) :
    Claims taken name (claim taken name) (claim taken name :: taken) := by
  obtain ⟨n, search⟩ := rounds_to_claim taken name
  exact .found search (claim_not_mem taken name)

/-- A search ends at what `claim` gives and nowhere else, and only that is taken in addition. -/
theorem claims_iff :
    Claims taken name id taken' ↔ id = claim taken name ∧ taken' = id :: taken := by
  constructor
  · rintro ⟨search, free⟩
    obtain ⟨n, search'⟩ := rounds_to_claim taken name
    have same := end_unique search search' free (claim_not_mem taken name)
    exact ⟨congrArg Attempt.id same, rfl⟩
  · rintro ⟨rfl, rfl⟩
    exact claims_claim taken name

/-- A sequence of names gets what `claimAll` gives, and only that is taken in addition. -/
theorem claimsAll_iff :
    ClaimsAll taken names ids taken' ↔
      ids = claimAll taken names ∧ taken' = ids.reverse ++ taken := by
  constructor
  · intro claims
    induction claims with
    | nil => exact ⟨rfl, rfl⟩
    | cons first later ih =>
        obtain ⟨rfl, rfl⟩ := claims_iff.mp first
        obtain ⟨rfl, rfl⟩ := ih
        exact ⟨rfl, by simp⟩
  · rintro ⟨rfl, rfl⟩
    induction names generalizing taken with
    | nil => exact .nil
    | cons name rest ih =>
        rw [claimAll, List.reverse_cons, List.append_assoc]
        exact .cons (claims_claim taken name) ih

/-! ## Edges -/

theorem identified_again (edges : List Edge) :
    identified (identified edges) = identified edges := by
  apply identified_of_nodup
  rw [ids_identified]
  exact nodup_claimAll _ _

/-- A search for an identifier ends, at the name itself if this is free, and otherwise at the name
with the least number from two on that is free; only that identifier is taken in addition. Whatever
names are claimed one after the other, their identifiers differ from each other and from all that
were taken before. Edges that are identified in this way keep their ends, their labels and their
order, and they stay as they are if their identifiers differ, so also when they are identified
again. -/
theorem claims_first_free :
    (∀ taken name,
      (∀ run, (Attempt.first name :: run).IsChain (Round taken name) →
        run.length ≤ taken.length) ∧
      (∀ id taken', Claims taken name id taken' ↔ id = claim taken name ∧ taken' = id :: taken) ∧
      (name ∉ taken → claim taken name = name) ∧
      (name ∈ taken → ∃ n, IsLeast { n | 2 ≤ n ∧ numbered name n ∉ taken } n ∧
        claim taken name = numbered name n)) ∧
    (∀ taken names,
      (∀ ids taken', ClaimsAll taken names ids taken' ↔
        ids = claimAll taken names ∧ taken' = ids.reverse ++ taken) ∧
      (claimAll taken names).length = names.length ∧ (claimAll taken names).Nodup ∧
      ∀ id ∈ claimAll taken names, id ∉ taken) ∧
    ∀ edges : List Edge,
      (identified edges).map Edge.link = edges.map Edge.link ∧
      (identified edges).map Edge.id = claimAll [] (edges.map Edge.id) ∧
      ((edges.map Edge.id).Nodup → identified edges = edges) ∧
      identified (identified edges) = identified edges := by
  refine ⟨fun taken name => ⟨fun run => length_le_of_rounds, fun id taken' => claims_iff,
    claim_of_not_mem, exists_least_of_mem⟩, fun taken names => ⟨fun ids taken' => claimsAll_iff,
      length_claimAll taken names, nodup_claimAll taken names,
      fun id => not_mem_of_mem_claimAll⟩, fun edges => ?_⟩
  exact ⟨links_identified edges, ids_identified edges, identified_of_nodup, identified_again edges⟩

/-- Edges between keys with hyphens, two of which are named alike, and one that is named as the
second of them would be numbered. -/
def hyphenated : List Edge :=
  [(⟨"a-b", "c", none⟩ : Link), ⟨"a", "b-c", none⟩, ⟨"a", "b-c", some "default_2"⟩].map Link.edge

/-- The second edge is numbered, and the third one passes over what it took. -/
theorem claims_first_free_hyphenated :
    "a-b-c-default" ∈ ["a-b-c-default"] ∧
      (∃ n, IsLeast { n | 2 ≤ n ∧ numbered "a-b-c-default" n ∉ ["a-b-c-default"] } n ∧
        claim ["a-b-c-default"] "a-b-c-default" = numbered "a-b-c-default" n) ∧
      (identified hyphenated).map Edge.id =
        ["a-b-c-default", "a-b-c-default_2", "a-b-c-default_2_2"] ∧
      (identified hyphenated).map Edge.link = hyphenated.map Edge.link := by
  obtain ⟨search, -, edges⟩ := claims_first_free
  exact ⟨by decide, (search _ _).2.2.2 (by decide), by decide, (edges hyphenated).1⟩

end FlowDiagram.Graph
