import IndexDesign.Proofs.Graph.Parts
import IndexDesign.Proofs.Graph.Preorder

/-! # Splitting decomposes a graph

    The components of what is left without an entity have every other entity
    once, and no edge leads from one to another.  They are found in the order
    of their first entities: the search starts at the first entity that no
    earlier set has, so all that later sets have comes after it.

    With the entity put back into each of them the parts have every edge of the
    graph.  An edge at the entity is in the part of its other end, an edge from
    the entity to itself is in all parts; so nothing is lost, unless the graph
    has no other entity and there is no part at all.

    That the parts have every other entity once is so in every graph, and the
    rest in closed ones.  An edge that was given with an end outside is lost
    where the graph is split at that end: no part has it. -/

namespace IndexDesign

namespace JoinGraph

variable {g part p q : JoinGraph} {a b cut : String} {seen c : SortedSet String}
  {vs keep keep' : List String}

/-! ## Induced subgraphs -/

/-- Badges alone, with the edge to the people who wear them. -/
def looseBadges : JoinGraph :=
  (single badge).addEdge ⟨"badge", "person", keyTo badge person⟩ badge badge

end JoinGraph

end IndexDesign
