import FlowDiagram.Proofs.Graph.Emission
/-!
# Identifiers of an expanded flow

Qualified keys can collide across scopes, with each other and with numbered ones. The set
of taken identifiers goes through all scopes, so that the identifiers of the emitted nodes
still differ from each other and from all that was taken before.
-/

namespace FlowDiagram.Graph

open Definition

variable {within : String} {parent : Option String} {taken taken' : List String}
variable {flow : Flow} {g : Graph}

/-- The identifiers of an expansion differ from each other and from those taken before it.
After it, exactly they are taken in addition. -/
theorem expand_ids_fresh (h : expand within parent taken flow = .ok (g, taken')) :
    g.ids.Nodup ∧ (∀ id ∈ g.ids, id ∉ taken) ∧
      ∀ id, id ∈ taken' ↔ id ∈ taken ∨ id ∈ g.ids := by
  obtain ⟨emitted, ts, run, -, rfl⟩ := expand_eq_ok_iff.mp h
  refine ⟨run.nodup_ids, run.not_mem_taken, fun id => ?_⟩
  rw [run.taken_eq, ids_connect, List.mem_append, List.mem_reverse]
  exact Or.comm

/-- The key `review` is taken, and the numbered group meets the key that looks like one of
its own. -/
theorem expand_ids_fresh_reviewing :
    ∃ g taken', expand "" none ["review", "review_2_check"] reviewing = .ok (g, taken') ∧
      g.ids = ["fetch", "review_2", "review_2_draft", "review_2_check_2",
        "review_2_check_2_pass", "review_2_check_2_fail", "review_draft"] ∧
      g.ids.Nodup ∧ (∀ id ∈ g.ids, id ∉ ["review", "review_2_check"]) ∧
      ∀ id, id ∈ taken' ↔ id ∈ ["review", "review_2_check"] ∨ id ∈ g.ids := by
  refine ⟨_, _, rfl, rfl, ?_⟩
  exact expand_ids_fresh
    (show expand "" none ["review", "review_2_check"] reviewing = .ok _ from rfl)

end FlowDiagram.Graph
