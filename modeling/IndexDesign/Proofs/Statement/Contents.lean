import IndexDesign.Proofs.Entity
import IndexDesign.Proofs.Statement.Support

/-! # What an index holds, before and after an update

    A database lists the rows of each entity.  The rows of an index are the
    joins of its entities along the foreign keys of its graph's edges, with the
    values of the fields that the index stores.

    An update rewrites rows of one entity in place.  So it changes an index in
    two ways: by a field that the index stores, or by a foreign key that the
    index joins along.  Only the first is looked for, and an index may join
    along a foreign key that it does not store. -/

namespace IndexDesign

/-- A row: the values of its fields, by name. -/
abbrev Row (V : Type) := String → V

/-- The rows of each entity, by name. -/
abbrev Database (V : Type) := String → List (Row V)

/-- One row of each of several entities. -/
abbrev Pick (V : Type) := List (String × Row V)

/-- Every way of picking a row of each entity. -/
def picks {V : Type} (db : Database V) : List String → List (Pick V)
  | [] => [[]]
  | name :: names => (db name).flatMap fun row => (picks db names).map ((name, row) :: ·)

variable {α V : Type} [DecidableEq V]

/-- The value of the field, where a row of its entity is picked. -/
def Pick.value (p : Pick V) (f : Field) : Option V := (p.lookup f.entity).map fun row => row f.name

/-- Whether the foreign key of the edge holds the identifier of the edge's target. -/
def Pick.follows (p : Pick V) (g : JoinGraph) (e : Edge) : Bool :=
  (g.entity? e.target).any fun target => p.value e.via == p.value target.id

/-- The joins of the graph's entities along its edges. -/
def JoinGraph.joined (g : JoinGraph) (db : Database V) : List (Pick V) :=
  (picks db g.names).filter fun p => g.edges.toList.all (p.follows g)

/-- The rows of the index: of each join, the values of the fields that it stores. -/
def Index.rows (i : Index) (db : Database V) : List (List (Option V)) :=
  (i.graph.joined db).map fun p => i.allFields.toList.map p.value

namespace Update

/-- Whether the row takes part in a join of the update's graph that meets its conditions. -/
def selects (u : Update α) (conditions : Field → V) (db : Database V) (row : Row V) : Bool :=
  (u.graph.joined (Function.update db u.entity.name [row])).any fun p =>
    u.eq.toList.all fun f => p.value f == some (conditions f)

/-- The row with the values of the written fields. -/
def written (u : Update α) (values row : Row V) : Row V := fun name =>
  if name ∈ u.settings.toList.map (·.name) then values name else row name

/-- The row behind the update: one of the entity's that is selected is written. -/
def rewrites (u : Update α) (conditions : Field → V) (values : Row V) (db : Database V)
    (entity : String) (row : Row V) : Row V :=
  if entity = u.entity.name ∧ u.selects conditions db row = true then u.written values row else row

/-- The database behind the update. -/
def execute (u : Update α) (conditions : Field → V) (values : Row V) (db : Database V) :
    Database V := fun entity => (db entity).map (u.rewrites conditions values db entity)

end Update

/-! ## Rewriting rows in place -/

variable {db : Database V} {rewrite : String → Row V → Row V} {f : Field} {g : JoinGraph}
  {i : Index}

/-- Rewriting rows keeps the values of the field. -/
def Keeps (rewrite : String → Row V → Row V) (f : Field) : Prop :=
  ∀ row, rewrite f.entity row f.name = row f.name

/-- The pick with its rows rewritten. -/
def Pick.rewritten (rewrite : String → Row V → Row V) (p : Pick V) : Pick V :=
  p.map fun t => (t.1, rewrite t.1 t.2)

omit [DecidableEq V] in
theorem picks_rewritten (db : Database V) (rewrite : String → Row V → Row V)
    (names : List String) :
    picks (fun entity => (db entity).map (rewrite entity)) names
      = (picks db names).map (Pick.rewritten rewrite) := by
  induction names with
  | nil => rfl
  | cons name names ih =>
      simp only [picks, ih, List.flatMap_map, List.map_flatMap, List.map_map]
      rfl

omit [DecidableEq V] in
theorem Pick.value_rewritten (p : Pick V) (f : Field) :
    (p.rewritten rewrite).value f
      = (p.lookup f.entity).map fun row => rewrite f.entity row f.name := by
  induction p with
  | nil => rfl
  | cons t p ih =>
      obtain ⟨name, row⟩ := t
      rw [rewritten, value] at ih ⊢
      rw [List.map_cons, List.lookup_cons, List.lookup_cons]
      by_cases heq : f.entity = name
      · rw [heq, beq_self_eq_true]
        rfl
      · rw [beq_eq_false_iff_ne.mpr heq]
        exact ih

omit [DecidableEq V] in
theorem Pick.value_rewritten_of_keeps (h : Keeps rewrite f) (p : Pick V) :
    (p.rewritten rewrite).value f = p.value f := by
  rw [value_rewritten, value]
  exact congrArg (p.lookup f.entity).map (funext h)

/-- Where the keys of the joins are kept, the same rows are joined. -/
theorem JoinGraph.joined_rewritten (hvia : ∀ e ∈ g.edges.toList, Keeps rewrite e.via)
    (hid : ∀ e ∈ g.entities.toList, Keeps rewrite e.id) (db : Database V) :
    g.joined (fun entity => (db entity).map (rewrite entity))
      = (g.joined db).map (Pick.rewritten rewrite) := by
  have hfollows : ∀ (p : Pick V), ∀ e ∈ g.edges.toList,
      (p.rewritten rewrite).follows g e = p.follows g e := by
    intro p e he
    rw [Pick.follows, Pick.follows, Pick.value_rewritten_of_keeps (hvia e he)]
    cases htarget : g.entity? e.target with
    | none => rfl
    | some target =>
        have hmem := (JoinGraph.mem_of_entity?_eq_some htarget).1
        rw [Option.any_some, Option.any_some, Pick.value_rewritten_of_keeps (hid target hmem)]
  rw [joined, joined, picks_rewritten, List.filter_map]
  refine congrArg _ (List.filter_congr fun p _ => ?_)
  rw [Function.comp_apply, Bool.eq_iff_iff, List.all_eq_true, List.all_eq_true]
  exact forall₂_congr fun e he => by rw [hfollows p e he]

/-- **INDEXES ARE KEPT** by what keeps their fields and the foreign keys that they join along. -/
theorem Index.rows_rewritten (hi : i.IsWellFormed) (hstored : ∀ f ∈ i.allFields, Keeps rewrite f)
    (hvia : ∀ e ∈ i.graph.edges.toList, Keeps rewrite e.via) (db : Database V) :
    i.rows (fun entity => (db entity).map (rewrite entity)) = i.rows db := by
  have hid : ∀ e ∈ i.graph.entities.toList, Keeps rewrite e.id := fun e he =>
    hstored e.id (hi.mem_allFields_id he)
  rw [rows, rows, JoinGraph.joined_rewritten hvia hid, List.map_map]
  refine List.map_congr_left fun p _ => List.map_congr_left fun f hf => ?_
  exact Pick.value_rewritten_of_keeps (hstored f (SortedSet.mem_of_mem_toList hf)) p

/-! ## Databases of one row each -/

/-- The database in which each entity has one row, which has one value throughout. -/
def Database.constant (a : V) : Database V := fun _ => [fun _ => a]

/-- The one pick of a row of each entity. -/
def Pick.constant (a : V) (names : List String) : Pick V := names.map fun name => (name, fun _ => a)

omit [DecidableEq V] in
theorem picks_constant (a : V) (names : List String) :
    picks (Database.constant a) names = [Pick.constant a names] := by
  induction names with
  | nil => rfl
  | cons name names ih =>
      rw [picks, ih]
      rfl

omit [DecidableEq V] in
theorem Pick.lookup_constant {a : V} {names : List String} {name : String} (h : name ∈ names) :
    (Pick.constant a names).lookup name = some fun _ => a := by
  induction names with
  | nil => exact nomatch h
  | cons other names ih =>
      rw [constant, List.map_cons, List.lookup_cons]
      split
      · rfl
      · next hne =>
        refine ih ((List.mem_cons.mp h).resolve_left fun heq => ?_)
        rw [heq, beq_self_eq_true] at hne
        exact nomatch hne

omit [DecidableEq V] in
theorem Pick.value_constant {a : V} {names : List String} (h : f.entity ∈ names) :
    (Pick.constant a names).value f = some a := by
  rw [value, lookup_constant h]
  rfl

/-- Where all values are equal, all rows are joined. -/
theorem JoinGraph.joined_constant (hg : g.IsClosed) (hvia : g.RunsAlongKeys)
    (hid : ∀ e ∈ g.entities.toList, e.id.entity ∈ g.names) (a : V) :
    g.joined (Database.constant a) = [Pick.constant a g.names] := by
  rw [joined, picks_constant]
  refine List.filter_eq_self.mpr fun p hp => List.all_eq_true.mpr fun e he => ?_
  obtain ⟨hsource, htarget⟩ := hg e he
  obtain ⟨target, hmem, hname⟩ := List.mem_map.mp htarget
  rw [List.mem_singleton.mp hp, Pick.follows, ← hname, entity?_eq_some_of_mem hmem,
    Option.any_some, Pick.value_constant (by rw [hvia e he]; exact hsource),
    Pick.value_constant (hid target hmem), beq_self_eq_true]

/-! ## Updates that are not seen to modify an index -/

namespace Update

variable {m : Model} {d : Draft α} {u : Update α} {conditions : Field → V} {values : Row V}

/-- Fields that are not written are kept. -/
theorem keeps_rewrites (hsettings : ∀ s ∈ u.settings.toList, s.entity = u.entity.name)
    (hf : f ∉ u.settings) : Keeps (u.rewrites conditions values db) f := by
  intro row
  rw [rewrites]
  split
  · next hwritten =>
    rw [written, if_neg]
    intro hname
    obtain ⟨s, hs, hsname⟩ := List.mem_map.mp hname
    refine hf (SortedSet.mem_iff.mpr ⟨s, hs, ?_⟩)
    show [s.entity, s.name] = [f.entity, f.name]
    rw [hsettings s hs, ← hwritten.1, hsname]
  · rfl

/-- No field of an index is written by an update that is not seen to modify it. -/
theorem not_mem_settings_of_modifies (hkind : u.kind = .update) (h : u.modifies i = false)
    (hf : f ∈ i.allFields) : f ∉ u.settings := by
  intro hwritten
  simp only [modifies, hkind] at h
  obtain ⟨s, hs, hkey⟩ := SortedSet.mem_iff.mp hwritten
  have hstored : i.containsField s = true := (SortedSet.mem_congr hkey).mpr hf
  exact Bool.false_ne_true (h.symm.trans (List.any_eq_true.mpr ⟨s, hs, hstored⟩))

/-- An update that writes no foreign key of the index's joins keeps the index. -/
theorem rows_execute (hu : u.IsAccepted m) (hi : i.IsWellFormed) (hkind : u.kind = .update)
    (hmodifies : u.modifies i = false) (hvia : ∀ e ∈ i.graph.edges.toList, e.via ∉ u.settings)
    (conditions : Field → V) (values : Row V) (db : Database V) :
    i.rows (u.execute conditions values db) = i.rows db := by
  have hsettings := hu.entity_of_update hkind
  refine Index.rows_rewritten hi (fun f hf => ?_) (fun e he => ?_) db
  · exact keeps_rewrites hsettings (not_mem_settings_of_modifies hkind hmodifies hf)
  · exact keeps_rewrites hsettings (hvia e he)

/-- Where all values are equal, the update selects every row of its entity. -/
theorem selects_constant (hm : m.IsBuilt) (hu : u.IsAccepted m) (a : V) :
    u.selects (fun _ => a) (Database.constant a) (fun _ => a) = true := by
  have hsame : Function.update (Database.constant a) u.entity.name [fun _ => a]
      = Database.constant a := Function.update_eq_self _ _
  have hown : ∀ e ∈ m.entities.toList,
      (∀ f ∈ e.fields.toList, f.entity = e.name) ∧ e.id.entity = e.name := by
    intro e he
    obtain ⟨name, count, declarations, hbuild⟩ := hm e he
    exact ⟨Entity.entity_of_build hbuild, Entity.id_entity_of_build hbuild⟩
  have hvia : u.graph.RunsAlongKeys := by
    rcases hu.path with hsingle | ⟨path, hpath⟩
    · rw [hsingle]
      exact JoinGraph.runsAlongKeys_single _
    · exact JoinGraph.runsAlongKeys_ofPath (fun e he => (hown e he).1) hpath
  obtain ⟨last, hgraph⟩ := hu.graph
  have hid : ∀ e ∈ u.graph.entities.toList, e.id.entity ∈ u.graph.names := by
    intro e he
    rw [(hown e (hgraph.entities e he)).2]
    exact List.mem_map_of_mem he
  rw [selects, hsame, JoinGraph.joined_constant hgraph.closed hvia hid, List.any_cons, List.any_nil,
    Bool.or_false, List.all_eq_true]
  intro f hf
  rw [Pick.value_constant (hu.conditions f hf), beq_self_eq_true]

/-- Where all values are equal, a written field gets its new value. -/
theorem rewrites_constant (hm : m.IsBuilt) (hu : u.IsAccepted m) (hkind : u.kind = .update)
    (hf : f ∈ u.settings) (a b : V) :
    u.rewrites (fun _ => a) (fun _ => b) (Database.constant a) f.entity (fun _ => a) f.name
      = b := by
  obtain ⟨s, hs, hkey⟩ := SortedSet.mem_iff.mp hf
  obtain ⟨hentity, hname⟩ := List.cons.inj hkey
  have hown : f.entity = u.entity.name := by rw [← hentity, hu.entity_of_update hkind s hs]
  rw [rewrites, if_pos ⟨hown, selects_constant hm hu a⟩, written,
    if_pos (List.mem_map.mpr ⟨s, hs, (List.cons.inj hname).1⟩)]

/-- An update that writes a foreign key of a join, but no identifier, parts rows that were
    joined. -/
theorem joined_execute_constant (hm : m.IsBuilt) (hu : u.IsAccepted m) (hi : i.IsWellFormed)
    (hkind : u.kind = .update) (hmodifies : u.modifies i = false) (hclosed : i.graph.IsClosed)
    (hkeys : i.graph.RunsAlongKeys) {e : Edge} (he : e ∈ i.graph.edges.toList)
    (hvia : e.via ∈ u.settings) {a b : V} (hab : a ≠ b) :
    i.graph.joined (u.execute (fun _ => a) (fun _ => b) (Database.constant a)) = [] := by
  obtain ⟨hsource, htarget⟩ := hclosed e he
  obtain ⟨target, hmem, hname⟩ := List.mem_map.mp htarget
  have hid := hi.mem_allFields_id hmem
  have hkeeps : Keeps (u.rewrites (fun _ => a) (fun _ => b) (Database.constant a)) target.id :=
    keeps_rewrites (hu.entity_of_update hkind) (not_mem_settings_of_modifies hkind hmodifies hid)
  show i.graph.joined (fun entity => (Database.constant a entity).map
    (u.rewrites (fun _ => a) (fun _ => b) (Database.constant a) entity)) = []
  rw [JoinGraph.joined, picks_rewritten, picks_constant, List.map_singleton]
  refine List.filter_eq_nil_iff.mpr fun p hp hall => ?_
  -- the foreign key holds the new value, and the identifier the old one
  have hfollows := List.all_eq_true.mp hall e he
  rw [List.mem_singleton.mp hp, Pick.follows, ← hname, JoinGraph.entity?_eq_some_of_mem hmem,
    Option.any_some, Pick.value_rewritten,
    Pick.lookup_constant (by rw [hkeys e he]; exact hsource), Option.map_some,
    rewrites_constant hm hu hkind hvia, Pick.value_rewritten_of_keeps hkeeps,
    Pick.value_constant (hi.mem_names_of_mem_allFields hid), beq_iff_eq,
    Option.some.injEq] at hfollows
  exact hab hfollows.symm

/-- So the update changes the rows of the index. -/
theorem rows_execute_ne (hm : m.IsBuilt) (hu : u.IsAccepted m) (hi : i.IsWellFormed)
    (hkind : u.kind = .update) (hmodifies : u.modifies i = false) (hclosed : i.graph.IsClosed)
    (hkeys : i.graph.RunsAlongKeys) {e : Edge} (he : e ∈ i.graph.edges.toList)
    (hvia : e.via ∈ u.settings) {a b : V} (hab : a ≠ b) :
    i.rows (u.execute (fun _ => a) (fun _ => b) (Database.constant a))
      ≠ i.rows (Database.constant a) := by
  have hid : ∀ x ∈ i.graph.entities.toList, x.id.entity ∈ i.graph.names := fun x hx =>
    hi.mem_names_of_mem_allFields (hi.mem_allFields_id hx)
  rw [Index.rows, Index.rows, JoinGraph.joined_constant hclosed hkeys hid,
    joined_execute_constant hm hu hi hkind hmodifies hclosed hkeys he hvia hab]
  exact fun h => nomatch h

/-- **ONLY FOREIGN KEYS ARE OVERLOOKED**: an update that is not seen to modify an index writes no
    field that the index stores, and it keeps the rows of the index where it writes no foreign key
    that the index joins along.  Where it writes one, there are databases that it changes. -/
theorem rows_of_modifies_eq_false {di : Index.Draft} (hu : build m d = .ok u)
    (hi : Index.build di = .ok i) (hkind : u.kind = .update) (hmodifies : u.modifies i = false) :
    (∀ f ∈ u.settings, f ∉ i.allFields)
      ∧ ((∀ e ∈ i.graph.edges.toList, e.via ∉ u.settings) →
        ∀ (W : Type) [DecidableEq W] (conditions : Field → W) (values : Row W) (db : Database W),
          i.rows (u.execute conditions values db) = i.rows db)
      ∧ (m.IsBuilt → i.graph.IsClosed → i.graph.RunsAlongKeys →
        ∀ e ∈ i.graph.edges.toList, e.via ∈ u.settings →
        ∃ (conditions : Field → Bool) (values : Row Bool) (db : Database Bool),
          i.rows (u.execute conditions values db) ≠ i.rows db) := by
  have haccepted := isAccepted_of_build hu
  have hwell := (Index.build_eq_ok_iff.mp hi).2
  refine ⟨fun f hf hstored => not_mem_settings_of_modifies hkind hmodifies hstored hf,
    fun hvia W _ conditions values db => ?_, fun hm hclosed hkeys e he hvia => ?_⟩
  · exact rows_execute haccepted hwell hkind hmodifies hvia conditions values db
  · exact ⟨_, _, _, rows_execute_ne hm haccepted hwell hkind hmodifies hclosed hkeys he hvia
      Bool.false_ne_true⟩

/-! ### The tweets of a city, when users age and when a tweet changes hands -/

open Planner

theorem isBuilt_tweetModel : tweetModel.IsBuilt := by
  intro e he
  have hmem : e ∈ [tweetEntity, userEntity] := he
  rcases List.mem_cons.mp hmem with rfl | hmem
  · exact ⟨"tweet", 1000, [.identifier "id" [], .field "topic" (.string 16) (some 50),
      .field "user" (.foreignKey "user") (some 100)], rfl⟩
  · rw [List.mem_singleton.mp hmem]
    exact ⟨"user", 100, [.identifier "id" [], .field "city" (.string 16) (some 10),
      .field "age" .integer (some 50), .field "name" (.string 32) (some 90)], rfl⟩

def ageUpdateDraft : Draft Rat where
  kind := .update
  entity := "user"
  path := []
  settings := ["user.age"]
  eq := ["user.id"]
  weight := 1
  text := some "birthday"

def ageUpdate : Update Rat where
  text := "birthday"
  kind := .update
  entity := userEntity
  settings := SortedSet.ofList [userAge]
  eq := SortedSet.ofList [userId]
  graph := JoinGraph.single userEntity
  weight := 1

def userUpdateDraft : Draft Rat where
  kind := .update
  entity := "tweet"
  path := []
  settings := ["tweet.user"]
  eq := ["tweet.id"]
  weight := 1
  text := some "another user"

def userUpdate : Update Rat where
  text := "another user"
  kind := .update
  entity := tweetEntity
  settings := SortedSet.ofList [tweetUser]
  eq := SortedSet.ofList [tweetId]
  graph := JoinGraph.single tweetEntity
  weight := 1

/-- Ages are not stored, and no join goes along them; the user of a tweet is not stored either. -/
theorem rows_of_modifies_eq_false_age :
    build tweetModel ageUpdateDraft = .ok ageUpdate
      ∧ Index.build cityTweetsDraft = .ok cityTweetsIndex
      ∧ ageUpdate.modifies cityTweetsIndex = false
      ∧ (∀ (W : Type) [DecidableEq W] (conditions : Field → W) (values : Row W) (db : Database W),
        cityTweetsIndex.rows (ageUpdate.execute conditions values db) = cityTweetsIndex.rows db)
      ∧ userUpdate.modifies cityTweetsIndex = false
      ∧ ∃ (conditions : Field → Bool) (values : Row Bool) (db : Database Bool),
        cityTweetsIndex.rows (userUpdate.execute conditions values db)
          ≠ cityTweetsIndex.rows db := by
  have hage : build tweetModel ageUpdateDraft = .ok ageUpdate := rfl
  have huser : build tweetModel userUpdateDraft = .ok userUpdate := rfl
  have hi : Index.build cityTweetsDraft = .ok cityTweetsIndex := rfl
  have hageFalse : ageUpdate.modifies cityTweetsIndex = false := by decide +kernel
  have huserFalse : userUpdate.modifies cityTweetsIndex = false := by decide +kernel
  have hkeys : cityTweetsIndex.graph.RunsAlongKeys := by decide +kernel
  have hedge : ⟨"tweet", "user", tweetUser⟩ ∈ cityTweetsIndex.graph.edges.toList :=
    List.mem_singleton.mpr rfl
  refine ⟨hage, hi, hageFalse, ?_, huserFalse, ?_⟩
  · exact (rows_of_modifies_eq_false hage hi rfl hageFalse).2.1 (by decide +kernel)
  · exact (rows_of_modifies_eq_false huser hi rfl huserFalse).2.2 isBuilt_tweetModel
      (by decide +kernel) hkeys _ hedge (by decide +kernel)

def rowOf (values : List (String × Nat)) : Row Nat := fun name => (values.lookup name).getD 0

/-- Two users in two cities, and a tweet of the first. -/
def tweetDatabase : Database Nat := fun entity =>
  if entity = "user" then [rowOf [("id", 1), ("city", 10)], rowOf [("id", 2), ("city", 20)]]
  else [rowOf [("id", 7), ("topic", 5), ("user", 1)]]

/-- The tweet is given to the second user.  The index joins along the user of a tweet without
    storing it; its row moves to the other city, and the update is not seen to modify it. -/
theorem userUpdate_overlooked :
    build tweetModel userUpdateDraft = .ok userUpdate ∧ userUpdate.kind = .update
      ∧ Index.build cityTweetsDraft = .ok cityTweetsIndex
      ∧ userUpdate.modifies cityTweetsIndex = false
      ∧ (∃ e ∈ cityTweetsIndex.graph.edges.toList, e.via ∈ userUpdate.settings)
      ∧ cityTweetsIndex.rows tweetDatabase = [[some 7, some 5, some 10, some 1]]
      ∧ cityTweetsIndex.rows (userUpdate.execute (fun _ => 7) (fun _ => 2) tweetDatabase)
        = [[some 7, some 5, some 20, some 2]] := by
  refine ⟨rfl, rfl, rfl, ?_, ?_, ?_, ?_⟩
  · decide +kernel
  · decide +kernel
  · decide +kernel
  · decide +kernel

end Update

end IndexDesign
