import IndexDesign.Model

/-! # Join graphs — entities joined along foreign keys

    A join graph is a set of entities and a set of edges.  An edge is meant to
    run along a foreign key of its source and to end at entities of the graph,
    and the edges of paths do.  Edges that are given one by one are taken as
    they are: nothing checks their keys or their ends. -/

namespace IndexDesign

/-- A join along a foreign key. -/
structure Edge where
  /-- The entity that holds the foreign key. -/
  source : String
  /-- The entity that the foreign key points to. -/
  target : String
  /-- The foreign key. -/
  via : Field

instance : Keyed Edge where
  key e := [e.source, e.target, e.via.entity, e.via.name]

namespace Edge

/-- Whether the entity is an end of the edge. -/
def touches (e : Edge) (entity : String) : Bool := e.source == entity || e.target == entity

/-- The end across from the given one. -/
def other (e : Edge) (entity : String) : Option String :=
  if e.source = entity then some e.target
  else if e.target = entity then some e.source
  else none

end Edge

/-- The names of a set of entities, in order. -/
def entityNames (entities : SortedSet Entity) : List String := entities.toList.map (·.name)

theorem mem_entityNames_put {entities : SortedSet Entity} {e : Entity} {name : String} :
    name ∈ entityNames (entities.put e) ↔ e.name = name ∨ name ∈ entityNames entities := by
  have h : (∃ y ∈ SortedSet.place true e entities.toList, key y = [name]) ↔ _ :=
    SortedSet.exists_mem_place
  simpa [entityNames, SortedSet.put, SortedSet.add, key] using h

theorem mem_entityNames_foldl_put {es : List Entity} {entities : SortedSet Entity}
    {name : String} :
    name ∈ entityNames (es.foldl SortedSet.put entities)
      ↔ name ∈ es.map (·.name) ∨ name ∈ entityNames entities := by
  induction es generalizing entities with
  | nil => simp
  | cons e es ih =>
    rw [List.foldl_cons, ih, mem_entityNames_put, List.map_cons, List.mem_cons]
    exact ⟨fun h => by rcases h with h | h | h <;> simp [h],
      fun h => by rcases h with (h | h) | h <;> simp [h]⟩

/-- Entities and the joins between them. -/
structure JoinGraph where
  entities : SortedSet Entity
  edges : SortedSet Edge

namespace JoinGraph

/-- The graph without entities. -/
def empty : JoinGraph := ⟨∅, ∅⟩

instance : EmptyCollection JoinGraph := ⟨empty⟩

instance : Inhabited JoinGraph := ⟨empty⟩

/-- The names of the entities, in order. -/
def names (g : JoinGraph) : List String := entityNames g.entities

/-- The number of entities. -/
def size (g : JoinGraph) : Nat := g.entities.size

/-- Whether the graph has no entities. -/
def isEmpty (g : JoinGraph) : Bool := g.entities.isEmpty

/-- Whether the graph has an entity of the given name. -/
def contains (g : JoinGraph) (entity : String) : Bool := g.names.contains entity

/-- The entity of a name. -/
def entity? (g : JoinGraph) (name : String) : Option Entity := g.entities.find? [name]

/-- Whether the field belongs to an entity of the graph. -/
def coversField (g : JoinGraph) (f : Field) : Bool := g.contains f.entity

/-! ## Making graphs -/

/-- The graph of one entity. -/
def single (e : Entity) : JoinGraph := ⟨(∅ : SortedSet Entity).put e, ∅⟩

/-- The graph with two more entities and the given edge, whatever its ends are. -/
def addEdge (g : JoinGraph) (edge : Edge) (source target : Entity) : JoinGraph where
  entities := (g.entities.put source).put target
  edges := g.edges.insert edge

/-- The graph with two more entities and a join from the first to the second. -/
def withEdge (g : JoinGraph) (source target : Entity) (via : Field) : JoinGraph :=
  g.addEdge ⟨source.name, target.name, via⟩ source target

/-- The join of two entities: along the first foreign key from the left one to the right
    one, or else along the first from the right one to the left one. -/
def join? (left right : Entity) : Option (Entity × Entity × Field) :=
  match left.foreignKeysTo right.name with
  | via :: _ => some (left, right, via)
  | [] =>
    match right.foreignKeysTo left.name with
    | via :: _ => some (right, left, via)
    | [] => none

/-- The graph extended along a path that goes on from an entity. -/
def extend (m : Model) (g : JoinGraph) (left : Entity) : List String → Except ModelError JoinGraph
  | [] => .ok g
  | name :: path => do
    let right ← m.entity name
    match join? left right with
    | some (source, target, via) => extend m (g.withEdge source target via) right path
    | none => .error (.noForeignKey left.name name)

/-- The graph of a path of entities, each joined to the next by a foreign key of one of
    the two. -/
def ofPath (m : Model) : List String → Except ModelError JoinGraph
  | [] => .error .emptyPath
  | name :: path => do
    let first ← m.entity name
    extend m (single first) first path

/-- The entities with the given names and the edges between them. -/
def subgraph (g : JoinGraph) (keep : List String) : JoinGraph where
  entities := g.entities.filter fun e => keep.contains e.name
  edges := g.edges.filter fun e => keep.contains e.source && keep.contains e.target

/-- The graph without the entities of the given names. -/
def without (g : JoinGraph) (drop : List String) : JoinGraph :=
  g.subgraph (g.names.filter (! drop.contains ·))

/-- The entities and edges of both graphs. -/
def union (g h : JoinGraph) : JoinGraph where
  entities := h.entities.toList.foldl SortedSet.put g.entities
  edges := g.edges.union h.edges

/-! ## Comparing graphs -/

/-- Whether the second graph is part of the first. -/
def containsGraph (g h : JoinGraph) : Bool :=
  h.names.all g.contains && h.edges.isSubset g.edges

instance : BEq JoinGraph := ⟨fun g h => g.names == h.names && g.edges == h.edges⟩

/-- The place of one graph relative to another: by the names of the entities, then by the
    edges. -/
def compare (g h : JoinGraph) : Ordering :=
  if g.names < h.names then .lt
  else if h.names < g.names then .gt
  else if g.edges.keys < h.edges.keys then .lt
  else if h.edges.keys < g.edges.keys then .gt
  else .eq

/-- The edges of the graph, or its entities where it has no edges. -/
def text (g : JoinGraph) : String :=
  if g.edges.isEmpty then ", ".intercalate g.names
  else ", ".intercalate (g.edges.toList.map fun e => e.source ++ "-" ++ e.target)

instance : ToString JoinGraph := ⟨text⟩

end JoinGraph

end IndexDesign
