import RegisterAtlas.Discovery
import RegisterAtlas.Proofs.Describe.Steps

/-!
# Arrays of devices

Devices are described as elements of arrays of the root, one after the other. What a draft shows
then is a list of views for each array (`Shows`), or for one array of the open scope if that is all
that matters (`ShowsElements`). A device that is described adds one view to one of the lists and
changes none of the views that are there (`element`), and from this follows what a registry makes of
all instances of a driver (`describeAll`). Both hold for anything that is said of a draft and goes
on with the view of one more element (`Gathers`).
-/

namespace RegisterAtlas

/-- What the elements of the arrays of a root show, by the names of the arrays. -/
abbrev Rows := String → List View

namespace Rows

def none : Rows := fun _ => []

/-- An array has more elements. -/
def append (rows : Rows) (name : String) (views : List View) : Rows :=
  fun n => if n = name then rows n ++ views else rows n

@[simp] theorem append_apply (rows : Rows) (name : String) (views : List View) (n : String) :
    rows.append name views n = if n = name then rows n ++ views else rows n := rfl

@[simp] theorem append_nil (rows : Rows) (name : String) : rows.append name [] = rows := by
  funext n
  simp

theorem append_append (rows : Rows) (name : String) (views views' : List View) :
    (rows.append name views).append name views' = rows.append name (views ++ views') := by
  funext n
  by_cases hn : n = name <;> simp [hn]

end Rows

namespace Tree

variable {t t' : Tree} {scope id : EntryId} {name : String} {content : Entry}

/-- The array of a scope under a name has scopes as elements, and they show certain views. Instead
of an empty array there is nothing at all. -/
structure ShowsElements (t : Tree) (scope : EntryId) (name : String) (views : List View) :
    Prop where
  takes : (t.view scope).Takes name .scope
  views_eq : ((t.view scope).items name).map t.view = views

theorem lists_of_items {i : Nat} (h : ((t.view scope).items name)[i]? = some id) :
    t.Lists scope (.indexed name (.pos i)) id := by
  rw [View.items] at h
  split at h
  · next items hview => exact lists_of_view hview h
  · cases h

theorem exists_lists_of_mem_items (h : id ∈ (t.view scope).items name) :
    ∃ i, t.Lists scope (.indexed name (.pos i)) id := by
  obtain ⟨i, hi⟩ := List.getElem?_of_mem h
  exact ⟨i, lists_of_items hi⟩

theorem ShowsElements.element_kind {views : List View} (h : t.ShowsElements scope name views)
    (hw : t.WellFormed) (hid : id ∈ (t.view scope).items name) : t.kind id = .scope := by
  obtain ⟨n, hl⟩ := exists_lists_of_mem_items hid
  cases hl with
  | @item s _ array items _ _ hs hc ha hi =>
      obtain ⟨items', heq, hkind⟩ :=
        h.takes (t.entry array) (by rw [view_of_scope hs, hc, Option.map_some])
      cases ha.symm.trans heq
      exact (hw.item_kind ha (List.mem_of_getElem? hi)).trans hkind

/-! ## One more element -/

/-- An array of a scope has one more element, and the others show what they did. -/
structure GainsElement (t t' : Tree) (scope : EntryId) (name : String) (inner : EntryId) :
    Prop where
  view_eq : t'.view scope =
    (t.view scope).put name (.array ⟨.scope, (t.view scope).items name ++ [inner]⟩)
  view_element : ∀ el id, t.Lists scope el id → t.kind id = .scope → t'.view id = t.view id

/-- An addition to a scope does not change what the scopes inside show. -/
theorem Gains.view_element (h : t.Gains t' scope name content) (hw : t.WellFormed) {el : Element}
    (hl : t.Lists scope el id) (hk : t.kind id = .scope) : t'.view id = t.view id := by
  have hlt := hl.lt_size hw
  have hscope : scope < id := hl.parent_eq hw ▸ hw.parent_lt id hlt (hl.ne_root hw)
  obtain ⟨s, hs⟩ := exists_scope_of_kind hk
  refine view_congr (h.entry_eq id hlt (Nat.ne_of_gt hscope) (.inr ?_)) fun child hc => ?_
  · rw [hk]
    exact Kind.noConfusion
  · obtain ⟨hchild, hcr⟩ := hw.member id child hc
    rw [hs] at hc
    have hparent := hw.child_parent hs hc
    have hid : id < child := hparent ▸ hw.parent_lt child hchild hcr
    refine h.entry_eq child hchild (Nat.ne_of_gt (Nat.lt_trans hscope hid)) (.inl ?_)
    rw [hparent]
    exact Nat.ne_of_gt hscope

/-- A new element lies behind all that was there, so filling it leaves the old ones alone. -/
theorem Gains.gainsElement {t₁ t₂ : Tree} {inner : EntryId} {n : Nat} (hw : t.WellFormed)
    (hw₁ : t₁.WellFormed)
    (hg : t.Gains t₁ scope name (.array ⟨.scope, (t.view scope).items name ++ [inner]⟩))
    (hle : t.size ≤ inner) (hsize : t₁.size = inner + 1)
    (hl : t₁.Lists scope (.indexed name (.pos n)) inner) (hin : t₁.Inside inner t₂) :
    t.GainsElement t₂ scope name inner where
  view_eq := by
    rw [← hg.view_eq]
    funext m
    rw [hin.view_outer hw₁ hsize hl, if_neg nofun]
  view_element el id hid hk := by
    have hlt := hid.lt_size hw
    have hne : id ≠ scope := fun heq => by
      have hparent := hw.parent_lt id hlt (hid.ne_root hw)
      rw [hid.parent_eq hw, heq] at hparent
      exact Nat.lt_irrefl _ hparent
    have hentry : t₁.entry id = t.entry id :=
      hg.entry_eq id hlt hne (.inr (by rw [hk]; exact nofun))
    rw [← hg.view_element hw hid hk]
    refine view_congr (hin.entry_eq id (Nat.lt_of_lt_of_le hlt hle)) fun child hc => ?_
    rw [hentry] at hc
    exact hin.entry_eq child (Nat.lt_of_lt_of_le (hw.member id child hc).1 hle)

namespace ShowsElements

variable {views : List View} {other : String}

theorem map_view_eq (h : t.ShowsElements scope other views) (hw : t.WellFormed)
    (hg : t.GainsElement t' scope name id) :
    ((t.view scope).items other).map t'.view = views := by
  rw [← h.views_eq]
  refine List.map_congr_left fun id hid => ?_
  obtain ⟨i, hi⟩ := exists_lists_of_mem_items hid
  exact hg.view_element _ id hi (h.element_kind hw hid)

theorem append (h : t.ShowsElements scope name views) (hw : t.WellFormed)
    (hg : t.GainsElement t' scope name id) :
    t'.ShowsElements scope name (views ++ [t'.view id]) where
  takes e he := by
    rw [hg.view_eq, View.put_apply, if_pos rfl] at he
    exact ⟨_, (Option.some.inj he).symm, rfl⟩
  views_eq := by
    rw [← h.map_view_eq hw hg, hg.view_eq]
    simp [View.items]

/-- Arrays of other names stay as they are. -/
theorem frame (h : t.ShowsElements scope other views) (hw : t.WellFormed)
    (hg : t.GainsElement t' scope name id) (hne : other ≠ name) :
    t'.ShowsElements scope other views where
  takes e he := by
    rw [hg.view_eq, View.put_apply, if_neg hne] at he
    exact h.takes e he
  views_eq := by
    rw [← h.map_view_eq hw hg, hg.view_eq]
    simp [View.items, hne]

end ShowsElements

/-! ## Arrays of the root -/

/-- The root of a tree has arrays of scopes only, and their elements show certain views. -/
def ShowsRows (t : Tree) (rows : Rows) : Prop := ∀ name, t.ShowsElements root name (rows name)

namespace ShowsRows

variable {rows : Rows}

theorem array (h : t.ShowsRows rows) (name : String) (e : Entry) (he : t.view root name = some e) :
    ∃ items, e = .array items ∧ items.kind = .scope := (h name).takes e he

theorem rows_eq (h : t.ShowsRows rows) (name : String) :
    ((t.view root).items name).map t.view = rows name := (h name).views_eq

theorem append (h : t.ShowsRows rows) (hw : t.WellFormed) (hg : t.GainsElement t' root name id) :
    t'.ShowsRows (rows.append name [t'.view id]) := by
  intro m
  by_cases hm : m = name
  · subst hm
    rw [Rows.append_apply, if_pos rfl]
    exact (h m).append hw hg
  · rw [Rows.append_apply, if_neg hm]
    exact (h m).frame hw hg hm

end ShowsRows

end Tree

/-! ## Drafts -/

namespace Draft

/-- A scope of a draft is open, and the elements of one of its arrays show certain views. -/
structure ShowsElements (scope : EntryId) (name : String) (views : List View) (d : Draft) :
    Prop where
  wellFormed : d.WellFormed
  current_eq : d.current = scope
  shows : d.tree.ShowsElements scope name views

/-- The root of a draft is open, and the elements of its arrays show certain views. -/
structure Shows (rows : Rows) (d : Draft) : Prop where
  wellFormed : d.WellFormed
  current_eq : d.current = Tree.root
  shows : d.tree.ShowsRows rows

/-- What is said of a draft while elements come one after the other into an array of the open scope:
it says enough to add an element, and goes on with the view of the element. -/
structure Gathers (scope : EntryId) (name : String) (P : List View → Draft → Prop) : Prop where
  wellFormed : ∀ {views d}, P views d → d.WellFormed
  current_eq : ∀ {views d}, P views d → d.current = scope
  takes : ∀ {views d}, P views d → (d.tree.view scope).Takes name .scope
  append : ∀ {views d d' inner}, P views d → d'.WellFormed → d'.current = scope →
    d.tree.GainsElement d'.tree scope name inner → P (views ++ [d'.tree.view inner]) d'

theorem gathers_showsElements (scope : EntryId) (name : String) :
    Gathers scope name (ShowsElements scope name) where
  wellFormed := ShowsElements.wellFormed
  current_eq := ShowsElements.current_eq
  takes h := h.shows.takes
  append h hw hcurrent hg := ⟨hw, hcurrent, h.shows.append h.wellFormed.tree hg⟩

theorem gathers_shows (rows : Rows) (name : String) :
    Gathers Tree.root name fun views => Shows (rows.append name views) where
  wellFormed := Shows.wellFormed
  current_eq := Shows.current_eq
  takes h := (h.shows name).takes
  append h hw hcurrent hg := by
    rw [← Rows.append_append]
    exact ⟨hw, hcurrent, h.shows.append h.wellFormed.tree hg⟩

end Draft

/-- Views of those instances that have an identity, in their order. -/
inductive Described {α ι : Type} (Is : α → Option ι → Prop) (G : α → ι → View → Prop) :
    List α → List View → Prop where
  | nil : Described Is G [] []
  | absent {a : α} {as : List α} {views : List View} (h : Is a none)
      (hrest : Described Is G as views) : Described Is G (a :: as) views
  | found {a : α} {identity : ι} {as : List α} {view : View} {views : List View}
      (h : Is a (some identity)) (hview : G a identity view) (hrest : Described Is G as views) :
      Described Is G (a :: as) (view :: views)

namespace Describe.Ensures

open Draft

variable {σ α β : Type} {I : σ → Prop} {scope : EntryId} {space : Space} {name : String}
  {F : View → Prop} {P : List View → Draft → Prop} {views : List View}

/-- A device is described as the next element of an array. -/
theorem element (hP : Gathers scope name P) {k : EntryId → Describe σ β} {text : String}
    (htext : text = name ++ "[]") (hname : isName name.toList = true)
    (hk : ∀ inner t', Ensures I (Filling t' inner space View.none) (k inner)
      fun _ => Closed t' inner space F) :
    Ensures I (P views) (Describe.openBound text space >>= k) fun _ d =>
      ∃ view, F view ∧ P (views ++ [view]) d := by
  subst htext
  refine opened (S := fun inner d₁ => ∃ d, P views d ∧ d₁.WellFormed ∧
    d.tree.Gains d₁.tree scope name
      (.array ⟨.scope, (d.tree.view scope).items name ++ [inner]⟩) ∧
    d.tree.size ≤ inner ∧ d₁.tree.size = inner + 1 ∧
    d₁.tree.entry inner = .scope { space := some space } ∧
    ∃ n, d₁.tree.Lists scope (.indexed name (.pos n)) inner) ?_ ?_ hk ?_
  · intro d hd
    have hw := hP.wellFormed hd
    have hcurrent := hP.current_eq hd
    obtain ⟨inner, t', hadd, hg, hle, hsize, hentry⟩ := Tree.add_item hw.tree
      (hcurrent ▸ hw.current_lt) (hcurrent ▸ hw.current_kind) hname
      (e := .scope { space := some space }) (hP.takes hd)
    have hok : d.add (name ++ "[]") (.scope { space := some space }) =
        .ok (inner, { d with tree := t' }) := by
      rw [Draft.add, hcurrent, hadd]
      rfl
    have hview : t'.view scope name =
        some (.array ⟨.scope, (d.tree.view scope).items name ++ [inner]⟩) := by
      rw [hg.view_eq, View.put_apply, if_pos rfl]
      rfl
    exact ⟨inner, _, hok, d, hd, (hw.add (.scope (some space)) hok).1, hg, hle, hsize,
      hentry, _, Tree.lists_of_view hview (List.getElem?_concat_length ..)⟩
  · rintro inner d₁ ⟨d, -, hw, -, -, -, hentry, n, hl⟩
    exact .of_new hw hentry hl rfl
  · rintro inner d₁ view d' ⟨d, hd, hw, hg, hle, hsize, -, n, hl⟩ hF hd'
    have hcurrent : d'.closed.current = scope := by rw [hd'.closed_current, hl.parent_eq hw.tree]
    have hgains := hg.gainsElement (hP.wellFormed hd).tree hw.tree hle hsize hl hd'.inside
    have happend := hP.append hd hd'.closed_wellFormed hcurrent hgains
    have hview : d'.closed.tree.view inner = view := hd'.view_eq
    rw [hview] at happend
    exact ⟨view, hF, happend⟩

/-- With a description for everything else, a registry does what all of its descriptions do. -/
theorem dispatch {ι κ : Type} [Criteria κ ι] {r : Registry σ α ι κ} {found : Found α ι}
    {Q R : Draft → Prop} {d : Description σ α ι}
    (hentries : ∀ entry ∈ r.entries, Criteria.accepts entry.1 found.identity = true →
      Ensures I Q (entry.2 found) fun _ => R)
    (hcatchAll : r.catchAll = some d)
    (hd : (∀ entry ∈ r.entries, Criteria.accepts entry.1 found.identity = false) →
      Ensures I Q (d found) fun _ => R) :
    Ensures I Q (r.dispatch found) fun _ => R := by
  obtain ⟨chosen, hselect, hchosen⟩ : ∃ chosen, r.select found.identity = some chosen ∧
      Ensures I Q (chosen found) fun _ => R := by
    rw [Registry.select]
    split
    · next criteria chosen hfind =>
        have haccepts := List.find?_some hfind
        exact ⟨chosen, rfl, hentries _ (List.mem_of_find?_eq_some hfind) haccepts⟩
    · next hnone =>
        refine ⟨d, hcatchAll, hd fun entry hentry => ?_⟩
        simpa using List.find?_eq_none.1 hnone entry hentry
  rw [Registry.dispatch, hselect]
  exact bind hchosen fun _ => pure fun _ h => h

/-- A registry describes the instances of a driver one after the other, each as an element. -/
theorem describeAll {ι κ : Type} [Criteria κ ι] {r : Registry σ α ι κ}
    {probe : Space → Action Fault σ (Option ι)} {G : α × Space → ι → View → Prop}
    {instances : List (α × Space)} (hprobe : ∀ p ∈ instances, Answers I (probe p.2))
    (hdispatch : ∀ p ∈ instances, ∀ identity, MayGive I (probe p.2) (some identity) → ∀ views,
      Ensures I (P views) (r.dispatch ⟨p.1, identity, p.2⟩) fun _ d =>
        ∃ view, G p identity view ∧ P (views ++ [view]) d) (views : List View) :
    Ensures I (P views) (r.describeAll probe instances) fun _ d =>
      ∃ new, Described (fun p => MayGive I (probe p.2)) G instances new ∧ P (views ++ new) d := by
  induction instances generalizing views with
  | nil => exact pure fun d hd => ⟨[], .nil, by rwa [List.append_nil]⟩
  | cons p rest ih =>
      have hrest := ih (fun p hp => hprobe p (List.mem_cons_of_mem _ hp))
        fun p hp => hdispatch p (List.mem_cons_of_mem _ hp)
      rw [Registry.describeAll]
      refine bind (access_world (hprobe p List.mem_cons_self)) fun o => of_and fun ho => ?_
      cases o with
      | none =>
          refine bind (Q := fun _ => P views) (pure fun _ hd => hd) fun described => ?_
          refine bind (hrest views) fun count => pure ?_
          rintro d ⟨new, hnew, hd⟩
          exact ⟨new, .absent ho hnew, hd⟩
      | some identity =>
          refine bind (hdispatch p List.mem_cons_self identity ho views) fun described => ?_
          refine of_exists fun view => of_and fun hview => ?_
          refine bind (hrest _) fun count => pure ?_
          rintro d ⟨new, hnew, hd⟩
          rw [List.append_assoc, List.singleton_append] at hd
          exact ⟨view :: new, .found ho hview hnew, hd⟩

end Describe.Ensures

end RegisterAtlas
