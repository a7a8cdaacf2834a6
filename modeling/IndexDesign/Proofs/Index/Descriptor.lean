import IndexDesign.Index.Build
import IndexDesign.Proofs.Graph.Path
import IndexDesign.Proofs.Graph.Union
import IndexDesign.Proofs.Index.Build

/-! # What a descriptor tells apart

    Two indexes are equal where their descriptors are, so the descriptor is a
    code of the parts of an index, and this file reads it back.  Names are
    plain: none has a character that ends a name in a descriptor.  So each
    listing ends at its first closing bracket, each text of a listing at its
    first comma, and the entity of a field at the first point.

    The entities of a graph with edges are not in the text themselves.  The
    identifiers in the key of a row tell them, or the edges do where each of
    them joins two entities.

    One part is not in the text.  A graph is written by the ends of its edges,
    and two foreign keys may lead from one entity to another; graphs that
    differ in the key of a join are written alike.  Graphs made from paths of
    one model take the first foreign key between two entities, and indexes on
    such graphs are equal exactly where all their parts are. -/

namespace IndexDesign

/-! ## Plain names -/

/-- The characters that end a name in a descriptor. -/
def separators : List Char := ['.', ',', ']', '-']

/-- No character of the name ends names in descriptors. -/
def IsPlain (name : String) : Prop := ∀ c ∈ separators, c ∉ name.toList

instance (name : String) : Decidable (IsPlain name) :=
  List.decidableBAll (fun c => c ∉ name.toList) separators

/-- Names of letters and digits are plain. -/
theorem isPlain_of_isAlphanum {name : String} (h : ∀ c ∈ name.toList, c.isAlphanum = true) :
    IsPlain name := by
  intro c hc hmem
  have hnot : ∀ c ∈ separators, c.isAlphanum = false := by simp [separators]
  exact absurd (h c hmem) (by rw [hnot c hc]; exact Bool.false_ne_true)

/-! ## Texts with a rest behind -/

/-- What has no separator in it ends where the first separator is. -/
theorem append_separator_inj {α : Type} {c : α} {xs ys u v : List α} (hx : c ∉ xs) (hy : c ∉ ys)
    (h : xs ++ c :: u = ys ++ c :: v) : xs = ys ∧ u = v := by
  induction xs generalizing ys with
  | nil =>
      cases ys with
      | nil => exact ⟨rfl, (List.cons.inj h).2⟩
      | cons y ys => exact absurd (List.mem_cons.mpr (.inl (List.cons.inj h).1)) hy
  | cons x xs ih =>
      cases ys with
      | nil => exact absurd (List.mem_cons.mpr (.inl (List.cons.inj h).1.symm)) hx
      | cons y ys =>
          obtain ⟨hhead, htail⟩ := List.cons.inj h
          obtain ⟨hxs, hrest⟩ := ih (fun hc => hx (List.mem_cons_of_mem _ hc))
            (fun hc => hy (List.mem_cons_of_mem _ hc)) htail
          exact ⟨by rw [hhead, hxs], hrest⟩

/-- The text has an end in a listing: it is not empty, and has neither a comma nor a closing
    bracket. -/
structure IsItem (t : String) : Prop where
  nonempty : t.toList ≠ []
  comma : ',' ∉ t.toList
  bracket : ']' ∉ t.toList

/-- The texts of a list, as they stand between brackets. -/
def joined (ts : List String) : List Char := [',', ' '].intercalate (ts.map String.toList)

theorem toList_intercalate_comma (ts : List String) :
    (", ".intercalate ts).toList = joined ts := String.toList_intercalate

theorem joined_cons_cons (t u : String) (ts : List String) :
    joined (t :: u :: ts) = t.toList ++ ',' :: ' ' :: joined (u :: ts) := by
  simp [joined, List.intercalate_cons_cons]

theorem joined_singleton (t : String) : joined [t] = t.toList := by
  simp [joined]

theorem joined_ne_nil {t : String} {ts : List String} (ht : IsItem t) : joined (t :: ts) ≠ [] := by
  cases ts with
  | nil =>
      rw [joined_singleton]
      exact ht.nonempty
  | cons u ts =>
      rw [joined_cons_cons]
      exact List.append_ne_nil_of_left_ne_nil ht.nonempty _

/-- A listing is read back text by text. -/
theorem joined_inj {ts us : List String} (ht : ∀ t ∈ ts, IsItem t) (hu : ∀ u ∈ us, IsItem u)
    (h : joined ts = joined us) : ts = us := by
  induction ts generalizing us with
  | nil =>
      cases us with
      | nil => rfl
      | cons u us => exact absurd h.symm (joined_ne_nil (hu u List.mem_cons_self))
  | cons t ts ih =>
      cases us with
      | nil => exact absurd h (joined_ne_nil (ht t List.mem_cons_self))
      | cons u us =>
          have hcomma := (ht t List.mem_cons_self).comma
          have hcomma' := (hu u List.mem_cons_self).comma
          cases ts with
          | nil =>
              cases us with
              | nil =>
                  rw [joined_singleton, joined_singleton] at h
                  rw [String.toList_inj.mp h]
              -- a lone text has no comma in it
              | cons u' us =>
                  rw [joined_singleton, joined_cons_cons] at h
                  exact absurd (h ▸ by simp) hcomma
          | cons t' ts =>
              cases us with
              | nil =>
                  rw [joined_singleton, joined_cons_cons] at h
                  exact absurd (h ▸ by simp) hcomma'
              | cons u' us =>
                  rw [joined_cons_cons, joined_cons_cons] at h
                  obtain ⟨hhead, htail⟩ := append_separator_inj hcomma hcomma' h
                  rw [String.toList_inj.mp hhead, ih (fun x hx => ht x (List.mem_cons_of_mem _ hx))
                    (fun x hx => hu x (List.mem_cons_of_mem _ hx)) (List.cons.inj htail).2]

theorem bracket_not_mem_joined {ts : List String} (ht : ∀ t ∈ ts, IsItem t) : ']' ∉ joined ts := by
  induction ts with
  | nil => simp [joined]
  | cons t ts ih =>
      have hhead := (ht t List.mem_cons_self).bracket
      cases ts with
      | nil => rwa [joined_singleton]
      | cons u ts =>
          rw [joined_cons_cons]
          have htail := ih fun x hx => ht x (List.mem_cons_of_mem _ hx)
          simp only [List.mem_append, List.mem_cons, not_or]
          exact ⟨hhead, by decide, by decide, htail⟩

/-- A listing in brackets is read back with what stands behind it. -/
theorem brackets_inj {ts us : List String} {v w : List Char} (ht : ∀ t ∈ ts, IsItem t)
    (hu : ∀ u ∈ us, IsItem u)
    (h : ("[" ++ ", ".intercalate ts ++ "]").toList ++ v
      = ("[" ++ ", ".intercalate us ++ "]").toList ++ w) : ts = us ∧ v = w := by
  have hshape : ∀ (xs : List String) (rest : List Char),
      ("[" ++ ", ".intercalate xs ++ "]").toList ++ rest = '[' :: (joined xs ++ ']' :: rest) := by
    intro xs rest
    rw [String.toList_append, String.toList_append, toList_intercalate_comma]
    simp
  rw [hshape, hshape] at h
  obtain ⟨hjoined, hrest⟩ := append_separator_inj (bracket_not_mem_joined ht)
    (bracket_not_mem_joined hu) (List.cons.inj h).2
  exact ⟨joined_inj ht hu hjoined, hrest⟩

/-- Lists whose texts agree agree in what the texts tell. -/
theorem map_eq_of_map_eq {α β γ : Type} {text : α → β} {tell : α → γ} {xs ys : List α}
    (hinj : ∀ x ∈ xs, ∀ y ∈ ys, text x = text y → tell x = tell y)
    (h : xs.map text = ys.map text) : xs.map tell = ys.map tell := by
  induction xs generalizing ys with
  | nil => rw [List.map_eq_nil_iff.mp h.symm]
  | cons x xs ih =>
      cases ys with
      | nil => exact nomatch h
      | cons y ys =>
          obtain ⟨hhead, htail⟩ := List.cons.inj h
          rw [List.map_cons, List.map_cons, hinj x List.mem_cons_self y List.mem_cons_self hhead,
            ih (fun z hz w hw => hinj z (List.mem_cons_of_mem _ hz) w (List.mem_cons_of_mem _ hw))
              htail]

/-! ## Fields and aggregates -/

namespace Field

/-- The names of the field and its entity are plain. -/
def HasPlainName (f : Field) : Prop := IsPlain f.entity ∧ IsPlain f.name

instance (f : Field) : Decidable f.HasPlainName :=
  inferInstanceAs (Decidable (IsPlain f.entity ∧ IsPlain f.name))

variable {f g : Field} {fs gs : List Field} {v w : List Char}

theorem toList_qualifiedName (f : Field) :
    f.qualifiedName.toList = f.entity.toList ++ '.' :: f.name.toList := by
  rw [qualifiedName, String.toList_append, String.toList_append]
  simp

theorem HasPlainName.not_mem (hf : f.HasPlainName) {c : Char} (hc : c ∈ separators)
    (hpoint : c ≠ '.') : c ∉ f.qualifiedName.toList := by
  rw [toList_qualifiedName]
  simp only [List.mem_append, List.mem_cons, not_or]
  exact ⟨hf.1 c hc, hpoint, hf.2 c hc⟩

theorem HasPlainName.isItem (hf : f.HasPlainName) : IsItem f.qualifiedName where
  nonempty := by
    rw [toList_qualifiedName]
    exact List.append_ne_nil_of_right_ne_nil _ (List.cons_ne_nil _ _)
  comma := hf.not_mem (by decide) (by decide)
  bracket := hf.not_mem (by decide) (by decide)

/-- The qualified name of a field tells its column. -/
theorem key_eq_of_qualifiedName_eq (hf : f.HasPlainName) (hg : g.HasPlainName)
    (h : f.qualifiedName = g.qualifiedName) : key f = key g := by
  have hchars := congrArg String.toList h
  rw [toList_qualifiedName, toList_qualifiedName] at hchars
  obtain ⟨hentity, hname⟩ :=
    append_separator_inj (hf.1 '.' (by decide)) (hg.1 '.' (by decide)) hchars
  show [f.entity, f.name] = [g.entity, g.name]
  rw [String.toList_inj.mp hentity, String.toList_inj.mp hname]

theorem qualifiedName_congr (h : key f = key g) : f.qualifiedName = g.qualifiedName := by
  obtain ⟨hentity, h⟩ := List.cons.inj h
  rw [qualifiedName, qualifiedName, hentity, (List.cons.inj h).1]

/-- A listing is made from the columns. -/
theorem listing_congr (h : fs.map key = gs.map key) : listing fs = listing gs := by
  rw [listing, listing, map_eq_of_map_eq (fun _ _ _ _ => qualifiedName_congr) h]

/-- A listing of fields is read back with what stands behind it. -/
theorem listing_inj (hf : ∀ f ∈ fs, f.HasPlainName) (hg : ∀ g ∈ gs, g.HasPlainName)
    (h : (listing fs).toList ++ v = (listing gs).toList ++ w) :
    fs.map key = gs.map key ∧ v = w := by
  obtain ⟨hnames, hrest⟩ := brackets_inj (List.forall_mem_map.mpr fun f hmem => (hf f hmem).isItem)
    (List.forall_mem_map.mpr fun g hmem => (hg g hmem).isItem) h
  exact ⟨map_eq_of_map_eq (fun f hmem g hmem' => key_eq_of_qualifiedName_eq (hf f hmem)
    (hg g hmem')) hnames, hrest⟩

end Field

namespace Aggregate

variable {a b : Aggregate} {as bs : List Aggregate} {v w : List Char}

theorem toList_text (a : Aggregate) :
    a.text.toList = a.function.name.toList ++ '(' :: (a.field.qualifiedName.toList ++ [')']) := by
  rw [text, String.toList_append, String.toList_append, String.toList_append]
  simp

theorem not_mem_functionName (function : AggregateFunction) :
    ∀ c ∈ ['(', ',', ']'], c ∉ function.name.toList := by
  cases function <;> simp [AggregateFunction.name]

theorem isItem_text (ha : a.field.HasPlainName) : IsItem a.text := by
  have hnot : ∀ c ∈ [',', ']'], c ∉ a.text.toList := by
    intro c hc
    have hfunction := not_mem_functionName a.function c (List.mem_cons_of_mem _ hc)
    rw [toList_text]
    simp only [List.mem_append, List.mem_cons, List.not_mem_nil, or_false, not_or]
    rcases List.mem_cons.mp hc with rfl | hc
    · exact ⟨hfunction, by decide, ha.isItem.comma, by decide⟩
    · rw [List.mem_singleton.mp hc] at hfunction ⊢
      exact ⟨hfunction, by decide, ha.isItem.bracket, by decide⟩
  refine ⟨?_, hnot ',' (by decide), hnot ']' (by decide)⟩
  rw [toList_text]
  exact List.append_ne_nil_of_right_ne_nil _ (List.cons_ne_nil _ _)

/-- The text of an aggregate tells its function and its column. -/
theorem key_eq_of_text_eq (ha : a.field.HasPlainName) (hb : b.field.HasPlainName)
    (h : a.text = b.text) : key a = key b := by
  have hchars := congrArg String.toList h
  rw [toList_text, toList_text] at hchars
  obtain ⟨hfunction, hfield⟩ := append_separator_inj
    (not_mem_functionName _ '(' (by decide)) (not_mem_functionName _ '(' (by decide)) hchars
  have hname : ∀ f g : AggregateFunction, f.name = g.name → f.rank = g.rank := by
    intro f g
    cases f <;> cases g <;> decide
  have hcolumn := Field.key_eq_of_qualifiedName_eq ha hb
    (String.toList_inj.mp (List.append_cancel_right hfield))
  show a.function.rank :: key a.field = b.function.rank :: key b.field
  rw [hname _ _ (String.toList_inj.mp hfunction), hcolumn]

/-- A listing is made from the functions and the columns. -/
theorem listing_congr (h : as.map key = bs.map key) : listing as = listing bs := by
  have htext : ∀ a b : Aggregate, key a = key b → a.text = b.text := by
    intro a b hkey
    obtain ⟨hrank, hkey⟩ := List.cons.inj hkey
    have hname : ∀ f g : AggregateFunction, f.rank = g.rank → f.name = g.name := by
      intro f g
      cases f <;> cases g <;> decide
    rw [text, text, hname _ _ hrank, Field.qualifiedName_congr hkey]
  rw [listing, listing, map_eq_of_map_eq (fun _ _ _ _ => htext _ _) h]

/-- A listing of aggregates is read back with what stands behind it. -/
theorem listing_inj (ha : ∀ a ∈ as, a.field.HasPlainName) (hb : ∀ b ∈ bs, b.field.HasPlainName)
    (h : (listing as).toList ++ v = (listing bs).toList ++ w) :
    as.map key = bs.map key ∧ v = w := by
  obtain ⟨htexts, hrest⟩ :=
    brackets_inj (List.forall_mem_map.mpr fun a hmem => isItem_text (ha a hmem))
      (List.forall_mem_map.mpr fun b hmem => isItem_text (hb b hmem)) h
  exact ⟨map_eq_of_map_eq (fun a hmem b hmem' => key_eq_of_text_eq (ha a hmem) (hb b hmem'))
    htexts, hrest⟩

end Aggregate

/-! ## Graphs -/

namespace JoinGraph

variable {g h : JoinGraph}

/-- The ends of the edges, in order. -/
def ends (g : JoinGraph) : List (String × String) :=
  g.edges.toList.map fun e => (e.source, e.target)

theorem mem_ends {p : String × String} :
    p ∈ g.ends ↔ ∃ e ∈ g.edges.toList, (e.source, e.target) = p := List.mem_map

theorem text_of_ends_eq_nil (hends : g.ends = []) : g.text = ", ".intercalate g.names := by
  have hempty : g.edges.isEmpty = true := by
    rw [SortedSet.isEmpty, List.map_eq_nil_iff.mp (show g.edges.toList.map _ = [] from hends)]
    rfl
  rw [text, hempty]
  rfl

theorem text_of_ends_ne_nil (hends : g.ends ≠ []) :
    g.text = ", ".intercalate (g.ends.map fun p => p.1 ++ "-" ++ p.2) := by
  have hempty : g.edges.isEmpty = false := by
    rw [SortedSet.isEmpty, List.isEmpty_eq_false_iff]
    exact fun hnil => hends (by rw [ends, hnil]; rfl)
  rw [text, hempty, ends, List.map_map]
  rfl

/-- A connected graph without edges has one entity at most. -/
theorem length_names_le_one (hg : g.isConnected = true) (hends : g.ends = []) :
    g.names.length ≤ 1 := by
  have halone : ∀ x, ∀ y, y ∉ g.neighbors x := by
    intro x y hy
    obtain ⟨e, he, -⟩ := exists_joins_iff.mpr (mem_neighbors.mp hy)
    have hmem := mem_ends.mpr ⟨e, he, rfl⟩
    rw [hends] at hmem
    exact nomatch hmem
  have hwalks : g.KeepsWalks := fun a _ b hb => absurd hb (halone a b)
  have hsame : ∀ a ∈ g.names, ∀ b ∈ g.names, a = b := by
    intro a ha b hb
    have hstays : ∀ x, a = x → ∀ y ∈ g.neighbors x, a = y := fun x _ y hy => absurd hy (halone x y)
    exact of_reachable hstays rfl ((isConnected_iff hwalks).mp hg a ha b hb)
  cases hnames : g.names with
  | nil => exact Nat.zero_le 1
  | cons a rest =>
      cases rest with
      | nil => exact Nat.le_refl 1
      | cons b rest =>
          have hnodup := nodup_names g
          rw [hnames] at hnodup hsame
          have hab : a = b := hsame a List.mem_cons_self b (by simp)
          exact absurd (hab ▸ List.mem_cons_self) (List.nodup_cons.mp hnodup).1

/-- The text of an edge. -/
def edgeText (p : String × String) : String := p.1 ++ "-" ++ p.2

theorem toList_edgeText (p : String × String) :
    (edgeText p).toList = p.1.toList ++ '-' :: p.2.toList := by
  rw [edgeText, String.toList_append, String.toList_append]
  simp

/-- Both ends have plain names. -/
def ArePlain (p : String × String) : Prop := IsPlain p.1 ∧ IsPlain p.2

instance (p : String × String) : Decidable (ArePlain p) :=
  inferInstanceAs (Decidable (IsPlain p.1 ∧ IsPlain p.2))

theorem isItem_edgeText {p : String × String} (hp : ArePlain p) : IsItem (edgeText p) := by
  have hnot : ∀ c ∈ separators, c ≠ '-' → c ∉ (edgeText p).toList := by
    intro c hc hne
    rw [toList_edgeText]
    simp only [List.mem_append, List.mem_cons, not_or]
    exact ⟨hp.1 c hc, hne, hp.2 c hc⟩
  refine ⟨?_, hnot ',' (by decide) (by decide), hnot ']' (by decide) (by decide)⟩
  rw [toList_edgeText]
  exact List.append_ne_nil_of_right_ne_nil _ (List.cons_ne_nil _ _)

theorem eq_of_edgeText_eq {p q : String × String} (hp : ArePlain p) (hq : ArePlain q)
    (h : edgeText p = edgeText q) : p = q := by
  have hchars := congrArg String.toList h
  rw [toList_edgeText, toList_edgeText] at hchars
  obtain ⟨hsource, htarget⟩ := append_separator_inj (hp.1 '-' (by decide)) (hq.1 '-' (by decide))
    hchars
  exact Prod.ext (String.toList_inj.mp hsource) (String.toList_inj.mp htarget)

/-- A graph that an index can have, with plain names. -/
structure IsReadable (g : JoinGraph) : Prop where
  connected : g.isConnected = true
  nonempty : g.isEmpty = false
  plain : ∀ v ∈ g.names, IsPlain v
  arePlain : ∀ p ∈ g.ends, ArePlain p

/-- A readable graph without edges is one entity. -/
theorem IsReadable.names_eq (hg : g.IsReadable) (hends : g.ends = []) :
    ∃ v, IsPlain v ∧ g.names = [v] ∧ g.text = v := by
  have hlength := length_names_le_one hg.connected hends
  cases hnames : g.names with
  | nil => exact absurd hnames (isEmpty_eq_false_iff.mp hg.nonempty)
  | cons v rest =>
      rw [hnames] at hlength
      obtain rfl : rest = [] := by simpa using hlength
      refine ⟨v, hg.plain v (by rw [hnames]; exact List.mem_cons_self), rfl, ?_⟩
      rw [text_of_ends_eq_nil hends, hnames, String.intercalate_singleton]

theorem dash_mem_text (hends : g.ends ≠ []) : '-' ∈ g.text.toList := by
  rw [text_of_ends_ne_nil hends]
  cases hlist : g.ends with
  | nil => exact absurd hlist hends
  | cons p rest =>
      cases rest with
      | nil => simp
      | cons q rest => simp

/-- **GRAPHS ARE WRITTEN BY ENDS**: the text of a connected graph with plain names tells the ends
    of its edges, and its entity where it has no edges. -/
theorem text_eq_iff (hg : g.IsReadable) (hh : h.IsReadable) :
    g.text = h.text ↔ g.ends = h.ends ∧ (g.ends = [] → g.names = h.names) := by
  constructor
  · intro heq
    by_cases hgends : g.ends = []
    · obtain ⟨v, hv, hgnames, hgtext⟩ := hg.names_eq hgends
      by_cases hhends : h.ends = []
      · obtain ⟨w, -, hhnames, hhtext⟩ := hh.names_eq hhends
        exact ⟨by rw [hgends, hhends], fun _ => by rw [hgnames, hhnames, ← hgtext, ← hhtext, heq]⟩
      · have hdash := dash_mem_text hhends
        rw [← heq, hgtext] at hdash
        exact absurd hdash (hv '-' (by decide))
    · by_cases hhends : h.ends = []
      · obtain ⟨w, hw, -, hhtext⟩ := hh.names_eq hhends
        have hdash := dash_mem_text hgends
        rw [heq, hhtext] at hdash
        exact absurd hdash (hw '-' (by decide))
      · refine ⟨?_, fun hnil => absurd hnil hgends⟩
        have hjoined := congrArg String.toList heq
        rw [text_of_ends_ne_nil hgends, text_of_ends_ne_nil hhends, toList_intercalate_comma,
          toList_intercalate_comma] at hjoined
        have htexts := joined_inj
          (List.forall_mem_map.mpr fun p hp => isItem_edgeText (hg.arePlain p hp))
          (List.forall_mem_map.mpr fun p hp => isItem_edgeText (hh.arePlain p hp)) hjoined
        have hmap : g.ends.map id = h.ends.map id :=
          map_eq_of_map_eq
            (fun p hp q hq => eq_of_edgeText_eq (hg.arePlain p hp) (hh.arePlain q hq)) htexts
        rwa [List.map_id, List.map_id] at hmap
  · rintro ⟨hends, hnames⟩
    by_cases hnil : g.ends = []
    · rw [text_of_ends_eq_nil hnil, text_of_ends_eq_nil (hends ▸ hnil), hnames hnil]
    · rw [text_of_ends_ne_nil hnil, text_of_ends_ne_nil (hends ▸ hnil), hends]

theorem mem_neighbors_iff_ends {a b : String} :
    b ∈ g.neighbors a ↔ (a, b) ∈ g.ends ∨ (b, a) ∈ g.ends := by
  rw [mem_neighbors, ← exists_joins_iff]
  simp only [mem_ends, Edge.Joins, Prod.mk.injEq, and_or_left, exists_or]

theorem adjacency_eq_of_ends (hends : g.ends = h.ends) : g.adjacency = h.adjacency := by
  ext a b
  rw [adj_iff, adj_iff, ← mem_neighbors, ← mem_neighbors, mem_neighbors_iff_ends,
    mem_neighbors_iff_ends, hends]

/-- Of two graphs with edges between the same ends and an entity in common, one that is joined
    has no entity that the other has not, unless an edge leads out of that one. -/
theorem mem_names_of_ends_eq (hg : g.IsJoined) (hh : h.KeepsWalks) (hends : g.ends = h.ends)
    {a : String} (ha : a ∈ g.names) (ha' : a ∈ h.names) : ∀ v ∈ g.names, v ∈ h.names := by
  intro v hv
  have hreach := hg.joined a ha v hv
  rw [adjacency_eq_of_ends hends] at hreach
  exact hh.mem_names_of_reachable ha' hreach

/-! ## The keys of joins -/

/-- Joins of the two graphs that lead from one entity to another run along one key. -/
def JoinsAgree (g h : JoinGraph) : Prop :=
  ∀ e ∈ g.edges.toList, ∀ f ∈ h.edges.toList, e.source = f.source → e.target = f.target →
    key e.via = key f.via

/-- Where joins agree, the ends of the edges tell the graph. -/
theorem beq_iff_of_joinsAgree (hjoins : g.JoinsAgree h) :
    (g == h) = true ↔ g.names = h.names ∧ g.ends = h.ends := by
  have hkeys : g.edges.keys = h.edges.keys ↔ g.ends = h.ends := by
    constructor
    · intro hkeys
      refine map_eq_of_map_eq (fun e _ f _ hkey => ?_) hkeys
      obtain ⟨hsource, hkey⟩ := List.cons.inj hkey
      rw [hsource, (List.cons.inj hkey).1]
    · intro hends
      refine map_eq_of_map_eq (fun e he f hf heq => ?_) hends
      obtain ⟨hsource, htarget⟩ := Prod.mk.inj heq
      show e.source :: e.target :: key e.via = f.source :: f.target :: key f.via
      rw [hsource, htarget, hjoins e he f hf hsource htarget]
  show (g.names == h.names && g.edges.keys == h.edges.keys) = true ↔ _
  rw [Bool.and_eq_true, beq_iff_eq, beq_iff_eq, hkeys]

/-- Every join runs along the first foreign key that the model has from its source to its
    target. -/
def Follows (m : Model) (g : JoinGraph) : Prop :=
  ∀ e ∈ g.edges.toList, ∃ source ∈ m.entities.toList,
    source.name = e.source ∧ (source.foreignKeysTo e.target).head? = some e.via

variable {m : Model}

theorem joinsAgree_of_follows (hg : g.Follows m) (hh : h.Follows m) : g.JoinsAgree h := by
  intro e he f hf hsource htarget
  obtain ⟨s, hs, hsname, hsvia⟩ := hg e he
  obtain ⟨t, ht, htname, htvia⟩ := hh f hf
  have hst : s = t := by
    refine SortedSet.eq_of_key_eq hs ht ?_
    show [s.name] = [t.name]
    rw [hsname, htname, hsource]
  rw [hst, htarget, htvia] at hsvia
  rw [Option.some.inj hsvia]

theorem follows_single (e : Entity) : (single e).Follows m := fun _ h => nomatch h

theorem follows_empty : (∅ : JoinGraph).Follows m := fun _ h => nomatch h

theorem follows_subgraph (hg : g.Follows m) (keep : List String) : (g.subgraph keep).Follows m :=
  fun e he => hg e (List.mem_filter.mp he).1

theorem follows_union (hg : g.Follows m) (hh : h.Follows m) : (g.union h).Follows m := by
  intro e he
  rcases SortedSet.mem_toList_extend he with he | he
  · exact hg e he
  · exact hh e he

/-- A join of two entities of the model takes the first key. -/
theorem follows_withEdge {left right s t : Entity} {via : Field} (hg : g.Follows m)
    (hleft : left ∈ m.entities.toList) (hright : right ∈ m.entities.toList)
    (hjoin : join? left right = some (s, t, via)) : (g.withEdge s t via).Follows m := by
  intro e he
  rcases SortedSet.mem_place he with rfl | he
  · simp only [join?] at hjoin
    split at hjoin
    · next hkeys =>
      simp only [Option.some.injEq, Prod.mk.injEq] at hjoin
      obtain ⟨rfl, rfl, rfl⟩ := hjoin
      exact ⟨left, hleft, rfl, by rw [hkeys]; rfl⟩
    · split at hjoin
      · next hkeys =>
        simp only [Option.some.injEq, Prod.mk.injEq] at hjoin
        obtain ⟨rfl, rfl, rfl⟩ := hjoin
        exact ⟨right, hright, rfl, by rw [hkeys]; rfl⟩
      · cases hjoin
  · exact hg e he

theorem follows_extend (path : List String) : ∀ g left, g.Follows m → left ∈ m.entities.toList →
    extend m g left path = .ok h → h.Follows m := by
  induction path with
  | nil =>
      intro g left hg _ h
      rw [← Except.ok.inj h]
      exact hg
  | cons name path ih =>
      intro g left hg hleft h
      obtain ⟨right, s, t, via, hright, -, hjoin, h⟩ := exists_of_extend_cons h
      exact ih _ right (follows_withEdge hg hleft hright hjoin) hright h

/-- **PATHS TAKE FIRST KEYS**. -/
theorem follows_ofPath {path : List String} (hpath : ofPath m path = .ok g) : g.Follows m := by
  cases path with
  | nil => exact nomatch hpath
  | cons name path =>
      obtain ⟨first, hfirst, -, hextend⟩ := exists_of_ofPath_cons hpath
      exact follows_extend path _ first (follows_single first) hfirst hextend

end JoinGraph

theorem SortedSet.beq_iff_keys_eq {α : Type} [Keyed α] {s t : SortedSet α} :
    (s == t) = true ↔ s.keys = t.keys := by
  show (s.keys == t.keys) = true ↔ _
  exact beq_iff_eq

/-! ## Indexes -/

namespace Index

variable {i j : Index} {d d' : Draft}

/-- The names of the fields and entities of the index are plain. -/
structure HasPlainNames (i : Index) : Prop where
  fields : ∀ f ∈ i.referenced, f.HasPlainName
  entities : ∀ v ∈ i.graph.names, IsPlain v
  ends : ∀ p ∈ i.graph.ends, JoinGraph.ArePlain p

/-- The two indexes have the same fields and aggregates in every place. -/
structure SameFields (i j : Index) : Prop where
  partition : (i.partition == j.partition) = true
  ordered : i.ordered.map Keyed.key = j.ordered.map Keyed.key
  extra : (i.extra == j.extra) = true
  aggregates : (i.aggregates == j.aggregates) = true
  groupBy : (i.groupBy == j.groupBy) = true

theorem HasPlainNames.of_mem_stored (hi : i.HasPlainNames) {f : Field} (hf : f ∈ i.stored) :
    f.HasPlainName := by
  obtain ⟨g, hg, hkey⟩ := SortedSet.mem_iff.mp hf
  obtain ⟨hentity, hkey⟩ := List.cons.inj hkey
  have hplain := hi.fields g (List.mem_append_left _ (List.mem_append_left _ hg))
  rwa [Field.HasPlainName, hentity, (List.cons.inj hkey).1] at hplain

theorem HasPlainNames.partition (hi : i.HasPlainNames) :
    ∀ f ∈ i.partition.toList, f.HasPlainName :=
  fun _ hf => hi.of_mem_stored (mem_stored.mpr (.inl (SortedSet.mem_of_mem_toList hf)))

theorem HasPlainNames.ordered (hi : i.HasPlainNames) : ∀ f ∈ i.ordered, f.HasPlainName :=
  fun f hf => hi.of_mem_stored (mem_stored.mpr (.inr (.inl ⟨f, hf, rfl⟩)))

theorem HasPlainNames.extra (hi : i.HasPlainNames) : ∀ f ∈ i.extra.toList, f.HasPlainName :=
  fun _ hf => hi.of_mem_stored (mem_stored.mpr (.inr (.inr (SortedSet.mem_of_mem_toList hf))))

theorem HasPlainNames.groupBy (hi : i.HasPlainNames) : ∀ f ∈ i.groupBy.toList, f.HasPlainName :=
  fun f hf => hi.fields f (List.mem_append_left _ (List.mem_append_right _ hf))

theorem HasPlainNames.aggregates (hi : i.HasPlainNames) :
    ∀ a ∈ i.aggregates.toList, a.field.HasPlainName :=
  fun _ ha => hi.fields _ (List.mem_append_right _ (List.mem_map_of_mem ha))

/-! ### The entities of an index -/

/-- The entities are told by the key of a row, because identifiers are fields of their own
    entities, as those of entities that are built are; or by the edges, because all of them join
    two entities. -/
def TellsEntities (i : Index) : Prop :=
  (∀ e ∈ i.graph.entities.toList, e.id.entity = e.name) ∨ i.graph.IsClosed

theorem SameFields.symm (h : i.SameFields j) : j.SameFields i := by
  obtain ⟨hpartition, hordered, hextra, haggregates, hgroupBy⟩ := h
  rw [SortedSet.beq_iff_keys_eq] at hpartition hextra haggregates hgroupBy
  exact ⟨SortedSet.beq_iff_keys_eq.mpr hpartition.symm, hordered.symm,
    SortedSet.beq_iff_keys_eq.mpr hextra.symm, SortedSet.beq_iff_keys_eq.mpr haggregates.symm,
    SortedSet.beq_iff_keys_eq.mpr hgroupBy.symm⟩

theorem SameFields.mem_keyFields (h : i.SameFields j) {f : Field} (hf : f ∈ i.keyFields) :
    f ∈ j.keyFields := by
  have hlisted : ∀ k : Index, f ∈ k.keyFields
      ↔ Keyed.key f ∈ k.partition.keys ∨ Keyed.key f ∈ k.ordered.map Keyed.key := by
    intro k
    rw [keyFields, SortedSet.mem_union, SortedSet.mem_ofList, SortedSet.mem_iff, SortedSet.keys,
      List.mem_map, List.mem_map]
  rwa [hlisted, SortedSet.beq_iff_keys_eq.mp h.partition, h.ordered, ← hlisted] at hf

/-- Identifiers that are fields of their own entities tell these. -/
theorem SameFields.mem_names_of_ids (h : i.SameFields j) (hi : i.IsWellFormed)
    (hj : j.IsWellFormed) (hids : ∀ e ∈ i.graph.entities.toList, e.id.entity = e.name) :
    ∀ v ∈ i.graph.names, v ∈ j.graph.names := by
  intro v hv
  obtain ⟨e, he, rfl⟩ := List.mem_map.mp hv
  rw [← hids e he]
  exact hj.mem_names_of_mem_allFields
    (mem_allFields_of_mem_keyFields (h.mem_keyFields (keysEntity_iff.mp (hi.keyed e he))))

/-- Two well-formed indexes with the same fields in every place and edges between the same ends
    have the same entities, where there are edges and the entities are told. -/
theorem SameFields.mem_names (h : i.SameFields j) (hi : i.IsWellFormed) (hj : j.IsWellFormed)
    (hit : i.TellsEntities) (hjt : j.TellsEntities) (hends : i.graph.ends = j.graph.ends)
    (hne : i.graph.ends ≠ []) : ∀ v ∈ i.graph.names, v ∈ j.graph.names := by
  rcases hit with hids | hclosed
  · exact h.mem_names_of_ids hi hj hids
  · have hjoined := hclosed.isJoined hi.connected
    rcases hjt with hids' | hclosed'
    · -- the entities of the second index are some of the first, so they are joined as well
      have hsub := h.symm.mem_names_of_ids hj hi hids'
      have hjoined' : j.graph.IsJoined := ⟨hj.connected, fun a ha b hb => by
        rw [← JoinGraph.adjacency_eq_of_ends hends]
        exact hjoined.joined a (hsub a ha) b (hsub b hb)⟩
      obtain ⟨a, ha⟩ := List.exists_mem_of_ne_nil _ (JoinGraph.isEmpty_eq_false_iff.mp hj.nonempty)
      exact JoinGraph.mem_names_of_ends_eq hjoined hjoined'.keepsWalks hends (hsub a ha) ha
    · -- both have the ends of an edge
      obtain ⟨p, hp⟩ := List.exists_mem_of_ne_nil _ hne
      obtain ⟨e, he, hpe⟩ := JoinGraph.mem_ends.mp hp
      obtain ⟨e', he', hpe'⟩ := JoinGraph.mem_ends.mp (hends ▸ hp)
      have hsource : e'.source = e.source := congrArg Prod.fst (hpe'.trans hpe.symm)
      exact JoinGraph.mem_names_of_ends_eq hjoined hclosed'.keepsWalks hends (hclosed e he).1
        (hsource ▸ (hclosed' e' he').1)

/-- What the descriptor says behind the fields. -/
def tail (i : Index) : List Char :=
  if i.isAggregating then
    " agg".toList ++ ((Aggregate.listing i.aggregates.toList).toList ++
      (" by".toList ++ (i.groupBy.listing.toList ++ (" $ ".toList ++ i.graph.text.toList))))
  else " $ ".toList ++ i.graph.text.toList

theorem toList_descriptor (i : Index) : i.descriptor.toList =
    i.partition.listing.toList ++ ((Field.listing i.ordered).toList
      ++ (i.extra.listing.toList ++ i.tail)) := by
  unfold descriptor tail
  cases i.isAggregating <;> simp [String.toList_append]

theorem isAggregating_iff :
    i.isAggregating = true ↔ i.aggregates.keys ≠ [] ∨ i.groupBy.keys ≠ [] := by
  rw [isAggregating, SortedSet.isEmpty, SortedSet.isEmpty, SortedSet.keys, SortedSet.keys]
  simp

theorem isAggregating_congr (haggregates : i.aggregates.keys = j.aggregates.keys)
    (hgroupBy : i.groupBy.keys = j.groupBy.keys) : i.isAggregating = j.isAggregating := by
  rw [Bool.eq_iff_iff, isAggregating_iff, isAggregating_iff, haggregates, hgroupBy]

/-- What stands behind the fields tells the aggregates, the groups and the text of the
    graph. -/
theorem tail_eq_iff (hi : i.HasPlainNames) (hj : j.HasPlainNames) :
    i.tail = j.tail ↔ i.aggregates.keys = j.aggregates.keys ∧ i.groupBy.keys = j.groupBy.keys
      ∧ i.graph.text = j.graph.text := by
  constructor
  · intro h
    unfold tail at h
    by_cases hia : i.isAggregating = true
    · by_cases hja : j.isAggregating = true
      · rw [if_pos hia, if_pos hja] at h
        obtain ⟨haggregates, h⟩ :=
          Aggregate.listing_inj hi.aggregates hj.aggregates (List.append_cancel_left h)
        obtain ⟨hgroupBy, h⟩ := Field.listing_inj hi.groupBy hj.groupBy (List.append_cancel_left h)
        exact ⟨haggregates, hgroupBy, String.toList_inj.mp (List.append_cancel_left h)⟩
      · rw [if_pos hia, if_neg hja] at h
        simp at h
    · by_cases hja : j.isAggregating = true
      · rw [if_neg hia, if_pos hja] at h
        simp at h
      · rw [if_neg hia, if_neg hja] at h
        rw [isAggregating_iff, not_or, not_not, not_not] at hia hja
        exact ⟨hia.1.trans hja.1.symm, hia.2.trans hja.2.symm,
          String.toList_inj.mp (List.append_cancel_left h)⟩
  · rintro ⟨haggregates, hgroupBy, htext⟩
    unfold tail
    rw [isAggregating_congr haggregates hgroupBy, Aggregate.listing_congr haggregates, htext,
      FieldSet.listing, FieldSet.listing, Field.listing_congr hgroupBy]

/-- **DESCRIPTORS ARE READ BACK**: two well-formed indexes with plain names have one descriptor
    exactly where they have the same fields and aggregates in every place, the same entities and
    edges between the same ends. -/
theorem descriptor_eq_iff (hi : i.HasPlainNames) (hj : j.HasPlainNames) (hiw : i.IsWellFormed)
    (hjw : j.IsWellFormed) (hit : i.TellsEntities) (hjt : j.TellsEntities) :
    i.descriptor = j.descriptor ↔
      i.SameFields j ∧ i.graph.names = j.graph.names ∧ i.graph.ends = j.graph.ends := by
  have hig : i.graph.IsReadable := ⟨hiw.connected, hiw.nonempty, hi.entities, hi.ends⟩
  have hjg : j.graph.IsReadable := ⟨hjw.connected, hjw.nonempty, hj.entities, hj.ends⟩
  rw [← String.toList_inj, toList_descriptor, toList_descriptor]
  constructor
  · intro h
    obtain ⟨hpartition, h⟩ := Field.listing_inj hi.partition hj.partition h
    obtain ⟨hordered, h⟩ := Field.listing_inj hi.ordered hj.ordered h
    obtain ⟨hextra, h⟩ := Field.listing_inj hi.extra hj.extra h
    obtain ⟨haggregates, hgroupBy, htext⟩ := (tail_eq_iff hi hj).mp h
    have hfields : i.SameFields j := ⟨SortedSet.beq_iff_keys_eq.mpr hpartition, hordered,
      SortedSet.beq_iff_keys_eq.mpr hextra, SortedSet.beq_iff_keys_eq.mpr haggregates,
      SortedSet.beq_iff_keys_eq.mpr hgroupBy⟩
    obtain ⟨hends, hnames⟩ := (JoinGraph.text_eq_iff hig hjg).mp htext
    refine ⟨hfields, ?_, hends⟩
    by_cases hnil : i.graph.ends = []
    · exact hnames hnil
    · exact JoinGraph.names_eq_of_mem_iff fun v =>
        ⟨hfields.mem_names hiw hjw hit hjt hends hnil v,
          hfields.symm.mem_names hjw hiw hjt hit hends.symm (hends ▸ hnil) v⟩
  · rintro ⟨hfields, hnames, hends⟩
    have htext := (JoinGraph.text_eq_iff hig hjg).mpr ⟨hends, fun _ => hnames⟩
    have htail := (tail_eq_iff hi hj).mpr ⟨SortedSet.beq_iff_keys_eq.mp hfields.aggregates,
      SortedSet.beq_iff_keys_eq.mp hfields.groupBy, htext⟩
    rw [htail, FieldSet.listing, FieldSet.listing, FieldSet.listing, FieldSet.listing,
      Field.listing_congr (SortedSet.beq_iff_keys_eq.mp hfields.partition),
      Field.listing_congr hfields.ordered,
      Field.listing_congr (SortedSet.beq_iff_keys_eq.mp hfields.extra)]

/-- **EQUALITY OF INDEXES**: two indexes that were built, with plain names, are equal exactly where
    they have the same fields and aggregates in every place, the same entities and edges between
    the same ends, if these or the fields tell the entities.  Where the graphs follow one model
    these are the same graph. -/
theorem beq_iff_parts (hi : build d = .ok i) (hj : build d' = .ok j) (hip : i.HasPlainNames)
    (hjp : j.HasPlainNames) (hit : i.TellsEntities) (hjt : j.TellsEntities) :
    ((i == j) = true ↔
      i.SameFields j ∧ i.graph.names = j.graph.names ∧ i.graph.ends = j.graph.ends)
    ∧ ∀ m : Model, i.graph.Follows m → j.graph.Follows m →
      ((i == j) = true ↔ i.SameFields j ∧ (i.graph == j.graph) = true) := by
  have hends := descriptor_eq_iff hip hjp (build_eq_ok_iff.mp hi).2 (build_eq_ok_iff.mp hj).2
    hit hjt
  have hbeq : (i == j) = true ↔ i.descriptor = j.descriptor := by
    show (i.descriptor == j.descriptor) = true ↔ _
    exact beq_iff_eq
  refine ⟨hbeq.trans hends, fun m him hjm => ?_⟩
  rw [hbeq, hends, JoinGraph.beq_iff_of_joinsAgree (JoinGraph.joinsAgree_of_follows him hjm)]

/-! ### Flights between airports -/

def airportCode : Field := .ofType "airport" "code" .id
def flightNumber : Field := .ofType "flight" "number" .id
def flightOrigin : Field := .ofType "flight" "origin" (.foreignKey "airport")
def flightDestination : Field := .ofType "flight" "destination" (.foreignKey "airport")

def airport : Entity := ⟨"airport", 100, airportCode, SortedSet.ofList [airportCode]⟩

def flight : Entity :=
  ⟨"flight", 1000, flightNumber,
    SortedSet.ofList [flightNumber, flightOrigin, flightDestination]⟩

def flightModel : Model := (Model.empty.add airport).add flight

/-- Airports with the flights that leave them. -/
def departures : JoinGraph := (JoinGraph.single airport).withEdge flight airport flightOrigin

/-- Airports with the flights that reach them. -/
def arrivals : JoinGraph := (JoinGraph.single airport).withEdge flight airport flightDestination

/-- Flights by airport, over one of the two joins. -/
def flightsDraft (graph : JoinGraph) (extra : List Field) : Draft where
  graph
  partition := [airportCode]
  ordered := [flightNumber]
  extra
  aggregates := []
  groupBy := []

/-- Graphs of the first of the two keys are told apart by the descriptor. -/
theorem beq_iff_parts_arrivals :
    let flights := flightsDraft arrivals []
    let origins := flightsDraft arrivals [flightOrigin]
    build flights = .ok flights.normalize ∧ build origins = .ok origins.normalize
      ∧ flights.normalize.HasPlainNames ∧ origins.normalize.HasPlainNames
      ∧ flights.normalize.TellsEntities ∧ origins.normalize.TellsEntities
      ∧ arrivals.Follows flightModel
      ∧ ((flights.normalize == origins.normalize) = true ↔
        flights.normalize.SameFields origins.normalize ∧ (arrivals == arrivals) = true) := by
  intro flights origins
  have hflights : build flights = .ok flights.normalize :=
    build_eq_ok_iff.mpr ⟨rfl, fault?_eq_none_iff.mp (by decide +kernel)⟩
  have horigins : build origins = .ok origins.normalize :=
    build_eq_ok_iff.mpr ⟨rfl, fault?_eq_none_iff.mp (by decide +kernel)⟩
  have hplain : flights.normalize.HasPlainNames :=
    ⟨by decide +kernel, by decide +kernel, by decide +kernel⟩
  have hplain' : origins.normalize.HasPlainNames :=
    ⟨by decide +kernel, by decide +kernel, by decide +kernel⟩
  have hids : ∀ e ∈ arrivals.entities.toList, e.id.entity = e.name := by decide +kernel
  have hfollows : arrivals.Follows flightModel := by
    unfold JoinGraph.Follows
    decide +kernel
  have hparts := beq_iff_parts hflights horigins hplain hplain' (.inl hids) (.inl hids)
  exact ⟨hflights, horigins, hplain, hplain', .inl hids, .inl hids, hfollows,
    hparts.2 flightModel hfollows hfollows⟩

/-- **THE KEY OF A JOIN IS NOT TOLD**: flights by the airport that they leave and flights by the
    airport that they reach have different graphs and are one index. -/
theorem departures_eq_arrivals :
    let leaving := flightsDraft departures []
    let reaching := flightsDraft arrivals []
    build leaving = .ok leaving.normalize ∧ build reaching = .ok reaching.normalize
      ∧ leaving.normalize.HasPlainNames ∧ reaching.normalize.HasPlainNames
      ∧ (leaving.normalize == reaching.normalize) = true ∧ (departures == arrivals) = false := by
  intro leaving reaching
  exact ⟨build_eq_ok_iff.mpr ⟨rfl, fault?_eq_none_iff.mp (by decide +kernel)⟩,
    build_eq_ok_iff.mpr ⟨rfl, fault?_eq_none_iff.mp (by decide +kernel)⟩,
    ⟨by decide +kernel, by decide +kernel, by decide +kernel⟩,
    ⟨by decide +kernel, by decide +kernel, by decide +kernel⟩, by decide +kernel,
    by decide +kernel⟩

end Index

end IndexDesign
