import RegisterAtlas.Proofs.Path.Grammar
import RegisterAtlas.Proofs.Tree.Shape

/-!
# What an addition changes

An entry is either refused or added. `Refusal` lists the reasons for which it is refused, with the
error for each. `Adds` says what is different in the tree when it is added: one or two new entries
behind all others, and one entry, the scope or the array that lists the new one. `Extends` says that
everything else stays as it is. `add_cases` is the alternative between the two.
-/

namespace RegisterAtlas

/-- What comes again adds nothing to a list without repetitions. -/
theorem eraseDups_concat {α : Type} [DecidableEq α] (l : List α) (a : α) :
    (l ++ [a]).eraseDups = if a ∈ l then l.eraseDups else l.eraseDups ++ [a] := by
  rw [List.eraseDups_append, List.removeAll]
  by_cases h : a ∈ l <;> simp [h, List.eraseDups_cons]

/-! ## Placing a key in a table -/

namespace Table

variable {α β : Type}

/-- A key takes the place that it has already, or else comes last. -/
inductive Placed (key : α) (value : β) : List (α × β) → List (α × β) → Prop where
  | replaced (front back : List (α × β)) (old : β) :
      Placed key value (front ++ (key, old) :: back) (front ++ (key, value) :: back)
  | last {es : List (α × β)} (h : key ∉ es.map Prod.fst) :
      Placed key value es (es ++ [(key, value)])

theorem placed_insertEntry [DecidableEq α] (key : α) (value : β) (es : List (α × β)) :
    Placed key value es (insertEntry key value es) := by
  induction es with
  | nil => exact .last List.not_mem_nil
  | cons e es ih =>
      rw [insertEntry]
      split
      · next h =>
          subst h
          exact .replaced [] es e.2
      · next h =>
          generalize insertEntry key value es = es' at ih
          cases ih with
          | replaced front back old => exact .replaced (e :: front) back old
          | last hkey =>
              have hkey : key ∉ (e :: es).map Prod.fst := by
                rw [List.map_cons, List.mem_cons, not_or]
                exact ⟨Ne.symm h, hkey⟩
              exact .last hkey

theorem Placed.eq_of_notMem {key : α} {value : β} {es es' : List (α × β)}
    (h : Placed key value es es') (hkey : key ∉ es.map Prod.fst) : es' = es ++ [(key, value)] := by
  cases h with
  | replaced front back old => exact (hkey (by simp)).elim
  | last => rfl

end Table

/-! ## Names of additions -/

/-- What is added is named by a plain name, or by the name of an array and empty brackets. -/
inductive EntryName : String → Prop where
  | plain {name : String} (h : Grammar.Name name.toList) : EntryName name
  | item {n : String} (h : Grammar.Name n.toList) : EntryName (n ++ "[]")

theorem not_name_append_brackets (n : String) : ¬ Grammar.Name (n ++ "[]").toList := by
  intro h
  have hmem : '[' ∈ (n ++ "[]").toList := by simp
  rcases mem_of_isName (Grammar.isName_iff.2 h) hmem with h | h <;> exact absurd h (by decide)

namespace Element

theorem ofText_eq_ok_iff {text : String} {e : Element} :
    ofText text = .ok e ↔ Grammar.Segment text.toList e := by
  rw [← Grammar.parse_eq_ok_iff, ofText]
  cases parse text.toList <;> simp

theorem ofText_eq_error {text : String} {err : Error} (h : ofText text = .error err) :
    ∃ flaw, err = .invalidPath text flaw := by
  unfold ofText at h
  split at h <;> cases h
  exact ⟨_, rfl⟩

theorem ofText_eq_name_iff {text n : String} :
    ofText text = .ok (.name n) ↔ n = text ∧ Grammar.Name text.toList := by
  constructor
  · intro h
    obtain ⟨rfl, -⟩ := ofText_eq_name h
    exact ⟨rfl, Grammar.isName_iff.1 (parse_eq_name (parse_of_ofText h)).1⟩
  · rintro ⟨rfl, h⟩
    exact ofText_of_isName (Grammar.isName_iff.2 h)

theorem ofText_eq_append_iff {text n : String} :
    ofText text = .ok (.indexed n .append) ↔ text = n ++ "[]" ∧ Grammar.Name n.toList := by
  rw [ofText_eq_ok_iff]
  constructor
  · intro h
    generalize htext : text.toList = cs at h
    generalize he : Element.indexed n .append = e at h
    cases h with
    | @indexed front inner index h hi =>
        cases he
        cases hi
        refine ⟨String.toList_inj.1 ?_, by rwa [String.toList_ofList]⟩
        rw [htext, String.toList_append, String.toList_ofList]
        rfl
    | _ => cases he
  · rintro ⟨rfl, h⟩
    have hsegment := Grammar.Segment.indexed h .append
    rw [String.ofList_toList] at hsegment
    rw [String.toList_append]
    exact hsegment

theorem entryName_iff {name : String} :
    EntryName name ↔ (∃ n, ofText name = .ok (.name n)) ∨
      ∃ n, ofText name = .ok (.indexed n .append) := by
  constructor
  · rintro (h | h)
    · exact .inl ⟨_, ofText_eq_name_iff.2 ⟨rfl, h⟩⟩
    · exact .inr ⟨_, ofText_eq_append_iff.2 ⟨rfl, h⟩⟩
  · rintro (⟨n, h⟩ | ⟨n, h⟩)
    · exact .plain (ofText_eq_name_iff.1 h).2
    · obtain ⟨rfl, hn⟩ := ofText_eq_append_iff.1 h
      exact .item hn

end Element

namespace Tree

/-! ## Refusals and additions -/

/-- The reasons for which an entry is not added, and the error for each. -/
inductive Refusal (t : Tree) (scope : EntryId) (name : String) (e : Entry) : Error → Prop where
  | badName {flaw : PathFlaw} (h : ¬ EntryName name) :
      Refusal t scope name e (.invalidPath name flaw)
  | notScope (hname : EntryName name) (h : ∀ s, t.entry scope ≠ .scope s) :
      Refusal t scope name e (.conversion ("#" ++ toString scope) (.notScope (t.kind scope)))
  | notArray {n : String} {s : Scope} {child : EntryId} (hn : Grammar.Name n.toList)
      (hname : name = n ++ "[]") (hs : t.entry scope = .scope s)
      (hc : s.children.get? n = some child) (ha : ∀ items, t.entry child ≠ .array items) :
      Refusal t scope name e (.conversion n (.notArray (t.kind child)))
  | otherArray {n : String} {s : Scope} {child : EntryId} {items : Items}
      (hn : Grammar.Name n.toList) (hname : name = n ++ "[]") (hs : t.entry scope = .scope s)
      (hc : s.children.get? n = some child) (ha : t.entry child = .array items)
      (hk : items.kind ≠ e.kind) :
      Refusal t scope name e (.conversion n (.otherArray e.kind items.kind))

/-- A tree that has new nodes behind those of another one, and differs from it otherwise only in
what one entry, the owner of the new ones, is. -/
structure Extends (t t' : Tree) (owner : EntryId) (content : Entry) (new : List Node) : Prop where
  size_eq : t'.size = t.size + new.length
  entry_owner : t'.entry owner = content
  entry_eq : ∀ i, i < t.size → i ≠ owner → t'.entry i = t.entry i
  parent_eq : ∀ i, i < t.size → t'.parent i = t.parent i
  node_new : ∀ i n, new[i]? = some n → t'.node (t.size + i) = n
  pollLimit_eq : t'.pollLimit = t.pollLimit

/-- How a tree looks with one more entry: a child of a plain name, the last item of an array, or the
first item of an array that comes with it as last child. -/
inductive Adds (t : Tree) (scope : EntryId) (name : String) (e : Entry) :
    EntryId → Tree → Prop where
  | child {s : Scope} {children : Table String EntryId} {t' : Tree}
      (hname : Grammar.Name name.toList) (hs : t.entry scope = .scope s)
      (hplaced : Table.Placed name t.size s.children.entries children.entries)
      (h : t.Extends t' scope (.scope { s with children }) [⟨scope, e⟩]) :
      Adds t scope name e t.size t'
  | item {n : String} {s : Scope} {array : EntryId} {items : Items} {t' : Tree}
      (hn : Grammar.Name n.toList) (hname : name = n ++ "[]") (hs : t.entry scope = .scope s)
      (hc : s.children.get? n = some array) (ha : t.entry array = .array items)
      (hk : items.kind = e.kind)
      (h : t.Extends t' array (.array { items with ids := items.ids ++ [t.size] }) [⟨scope, e⟩]) :
      Adds t scope name e t.size t'
  | firstItem {n : String} {s : Scope} {children : Table String EntryId} {t' : Tree}
      (hn : Grammar.Name n.toList) (hname : name = n ++ "[]") (hs : t.entry scope = .scope s)
      (hc : s.children.get? n = none)
      (hlast : children.entries = s.children.entries ++ [(n, t.size)])
      (h : t.Extends t' scope (.scope { s with children })
        [⟨scope, .array ⟨e.kind, [t.size + 1]⟩⟩, ⟨scope, e⟩]) :
      Adds t scope name e (t.size + 1) t'

variable {t t' : Tree} {scope id : EntryId} {name : String} {e : Entry} {err : Error}

theorem node_eq_of {i parent : EntryId} {content : Entry} (hp : t.parent i = parent)
    (he : t.entry i = content) : t.node i = ⟨parent, content⟩ := by
  rw [← hp, ← he]
  rfl

theorem extends_addChild {s : Scope} (hs : t.entry scope = .scope s) (hlt : scope < t.size) :
    t.Extends ((t.alloc scope e).2.setChild scope name t.size) scope
      (.scope { s with children := s.children.insert name t.size }) [⟨scope, e⟩] := by
  constructor
  case size_eq => rw [size_setChild, size_alloc]; rfl
  case entry_owner => rw [entry_addChild hs hlt, if_pos rfl]
  case entry_eq =>
    intro i hi hne
    rw [entry_addChild hs hlt, if_neg hne, if_neg (Nat.ne_of_lt hi)]
  case parent_eq =>
    intro i hi
    rw [parent_setChild, parent_alloc_of_lt hi]
  case node_new =>
    intro i n hn
    rcases i with _ | i <;> cases hn
    rw [Nat.add_zero]
    refine node_eq_of ?_ ?_
    · rw [parent_setChild, parent_alloc, if_pos rfl]
    · rw [entry_addChild hs hlt, if_neg (Nat.ne_of_gt hlt), if_pos rfl]
  case pollLimit_eq => rfl

theorem extends_addItem {array : EntryId} {items : Items} (ha : t.entry array = .array items) :
    t.Extends ((t.alloc scope e).2.pushItem array t.size) array
      (.array { items with ids := items.ids ++ [t.size] }) [⟨scope, e⟩] := by
  have harray : array < t.size := lt_size_of_array ha
  constructor
  case size_eq => rw [size_pushItem, size_alloc]; rfl
  case entry_owner => rw [entry_addItem ha, if_pos rfl]
  case entry_eq =>
    intro i hi hne
    rw [entry_addItem ha, if_neg hne, if_neg (Nat.ne_of_lt hi)]
  case parent_eq =>
    intro i hi
    rw [parent_pushItem, parent_alloc_of_lt hi]
  case node_new =>
    intro i n hn
    rcases i with _ | i <;> cases hn
    rw [Nat.add_zero]
    refine node_eq_of ?_ ?_
    · rw [parent_pushItem, parent_alloc, if_pos rfl]
    · rw [entry_addItem ha, if_neg (Nat.ne_of_gt harray), if_pos rfl]
  case pollLimit_eq => rfl

/-- When what changes in the second step is what came new in the first one, both are one step. -/
theorem Extends.trans {u : Tree} {owner : EntryId} {content content' : Entry} {parent : EntryId}
    {n : Node} (howner : owner < t.size)
    (h : t.Extends u owner content [⟨parent, content'⟩]) {content'' : Entry}
    (h' : u.Extends t' t.size content'' [n]) :
    t.Extends t' owner content [⟨parent, content''⟩, n] := by
  have hsize : u.size = t.size + 1 := h.size_eq
  have hlt : t.size < u.size := by
    rw [hsize]
    exact Nat.lt_succ_self _
  constructor
  case size_eq => rw [h'.size_eq, hsize]; rfl
  case entry_owner =>
    rw [h'.entry_eq owner (Nat.lt_trans howner hlt) (Nat.ne_of_lt howner), h.entry_owner]
  case entry_eq =>
    intro i hi hne
    rw [h'.entry_eq i (Nat.lt_trans hi hlt) (Nat.ne_of_lt hi), h.entry_eq i hi hne]
  case parent_eq =>
    intro i hi
    rw [h'.parent_eq i (Nat.lt_trans hi hlt), h.parent_eq i hi]
  case node_new =>
    intro i m hm
    rcases i with _ | _ | i <;> cases hm
    · refine node_eq_of ?_ h'.entry_owner
      exact (h'.parent_eq _ hlt).trans (congrArg Node.parent (h.node_new 0 _ rfl))
    · have hnew := h'.node_new 0 n rfl
      rwa [hsize] at hnew
  case pollLimit_eq => rw [h'.pollLimit_eq, h.pollLimit_eq]

/-- An array comes with its first item: first the array, and then the item in it. -/
theorem extends_addFirstItem {u : Tree} {n : String} {s : Scope} (hs : t.entry scope = .scope s)
    (hlt : scope < t.size)
    (hu : u = (t.alloc scope (.array ⟨e.kind, []⟩)).2.setChild scope n t.size) :
    u.size = t.size + 1 ∧
    t.Extends ((u.alloc scope e).2.pushItem t.size u.size) scope
      (.scope { s with children := s.children.insert n t.size })
      [⟨scope, .array ⟨e.kind, [u.size]⟩⟩, ⟨scope, e⟩] := by
  have harray : t.Extends u scope _ _ := hu ▸ extends_addChild hs hlt
  have hitem : u.Extends _ _ _ [⟨scope, e⟩] := extends_addItem (entry_newArray hs hlt hu)
  exact ⟨harray.size_eq, harray.trans hlt hitem⟩

theorem Added.adds (h : Added t scope name e id t') (hlt : scope < t.size) :
    Adds t scope name e id t' := by
  cases h with
  | child hn hs =>
      obtain ⟨rfl, hname⟩ := Element.ofText_eq_name_iff.1 hn
      exact .child hname hs (Table.placed_insertEntry ..) (extends_addChild hs hlt)
  | item hn hs hc ha hk =>
      obtain ⟨hname, hn⟩ := Element.ofText_eq_append_iff.1 hn
      exact .item hn hname hs hc ha hk (extends_addItem ha)
  | @firstItem n s u hn hs hc hu =>
      obtain ⟨hname, hn⟩ := Element.ofText_eq_append_iff.1 hn
      obtain ⟨hsize, hext⟩ := extends_addFirstItem hs hlt hu
      rw [hsize] at hext ⊢
      exact .firstItem hn hname hs hc
        ((Table.placed_insertEntry ..).eq_of_notMem (Table.get?_eq_none_iff.1 hc)) hext

/-- What has the name of the array already is an array of the right kind. -/
theorem Added.array_of_child {n : String} {s : Scope} {child : EntryId}
    (h : Added t scope (n ++ "[]") e id t') (hn : Grammar.Name n.toList)
    (hs : t.entry scope = .scope s) (hc : s.children.get? n = some child) :
    ∃ items, t.entry child = .array items ∧ items.kind = e.kind := by
  have hn := Element.ofText_eq_append_iff.2 ⟨rfl, hn⟩
  cases h with
  | child hn' _ => cases hn.symm.trans hn'
  | item hn' hs' hc' ha hk =>
      cases hn.symm.trans hn'
      cases hs.symm.trans hs'
      cases hc.symm.trans hc'
      exact ⟨_, ha, hk⟩
  | firstItem hn' hs' hc' _ =>
      cases hn.symm.trans hn'
      cases hs.symm.trans hs'
      cases hc.symm.trans hc'

/-- There is no reason to refuse what can be added. -/
theorem Added.not_refusal (h : Added t scope name e id t') : ¬ Refusal t scope name e err := by
  rintro (hname | ⟨-, hscope⟩ | ⟨hn, rfl, hs, hc, hother⟩ | ⟨hn, rfl, hs, hc, ha, hk⟩)
  · refine hname (Element.entryName_iff.2 ?_)
    cases h with
    | child hn _ => exact .inl ⟨_, hn⟩
    | item hn _ _ _ _ | firstItem hn _ _ _ => exact .inr ⟨_, hn⟩
  · cases h with
    | child _ hs | item _ hs _ _ _ | firstItem _ hs _ _ => exact hscope _ hs
  · obtain ⟨items, ha, -⟩ := h.array_of_child hn hs hc
    exact hother items ha
  · obtain ⟨items, ha', hk'⟩ := h.array_of_child hn hs hc
    cases ha.symm.trans ha'
    exact hk hk'

theorem requireScope_eq_error (h : t.requireScope id = .error err) :
    (∀ s, t.entry id ≠ .scope s) ∧
      err = .conversion ("#" ++ toString id) (.notScope (t.kind id)) := by
  unfold requireScope at h
  rw [kind]
  cases he : t.entry id with
  | scope s => rw [he] at h; cases h
  | _ =>
      rw [he] at h
      cases h
      exact ⟨by rintro _ ⟨⟩, rfl⟩

theorem arrayFor_eq_error {s : Scope} {n : String} {kind : Kind}
    (h : t.arrayFor scope s n kind = .error err) : ∃ child, s.children.get? n = some child ∧
      (((∀ items, t.entry child ≠ .array items) ∧ err = .conversion n (.notArray (t.kind child))) ∨
        ∃ items, t.entry child = .array items ∧ items.kind ≠ kind ∧
          err = .conversion n (.otherArray kind items.kind)) := by
  unfold arrayFor at h
  cases hc : s.children.get? n with
  | none => rw [hc] at h; cases h
  | some child =>
      refine ⟨child, rfl, ?_⟩
      rw [Tree.kind]
      cases ha : t.entry child with
      | array items =>
          simp only [hc, ha] at h
          split at h
          · cases h
          · next hk =>
              cases h
              exact .inr ⟨items, rfl, hk, rfl⟩
      | _ =>
          simp only [hc, ha] at h
          cases h
          exact .inl ⟨by rintro _ ⟨⟩, rfl⟩

/-- A text that is no name of an addition is refused for it, whatever the flaw. -/
theorem refusal_of_ofText {flaw : PathFlaw}
    (hname : ∀ n, Element.ofText name ≠ .ok (.name n))
    (hitem : ∀ n, Element.ofText name ≠ .ok (.indexed n .append)) :
    Refusal t scope name e (.invalidPath name flaw) := by
  refine .badName fun hvalid => ?_
  rcases Element.entryName_iff.1 hvalid with ⟨n, hn⟩ | ⟨n, hn⟩
  · exact hname n hn
  · exact hitem n hn

theorem refusal_of_requireScope (hname : EntryName name) (h : t.requireScope scope = .error err) :
    Refusal t scope name e err := by
  obtain ⟨hs, rfl⟩ := requireScope_eq_error h
  exact .notScope hname hs

theorem refusal_of_arrayFor {n : String} {s : Scope} (hn : Grammar.Name n.toList)
    (hname : name = n ++ "[]") (hs : t.entry scope = .scope s)
    (h : t.arrayFor scope s n e.kind = .error err) : Refusal t scope name e err := by
  obtain ⟨child, hc, ⟨ha, rfl⟩ | ⟨items, ha, hk, rfl⟩⟩ := arrayFor_eq_error h
  · exact .notArray hn hname hs hc ha
  · exact .otherArray hn hname hs hc ha hk

/-- Of two steps one after the other, one fails. -/
theorem error_of_bind {α β : Type} {r : Except Error α} {f : α → Except Error β}
    (h : (r >>= f) = .error err) : r = .error err ∨ ∃ x, r = .ok x ∧ f x = .error err := by
  cases r with
  | error err' =>
      cases h
      exact .inl rfl
  | ok x => exact .inr ⟨x, rfl, h⟩

theorem refusal_of_add (h : t.add scope name e = .error err) : Refusal t scope name e err := by
  rcases error_of_bind h with hel | ⟨el, hel, h⟩
  · obtain ⟨flaw, rfl⟩ := Element.ofText_eq_error hel
    exact refusal_of_ofText (by simp [hel]) (by simp [hel])
  cases el with
  | name n =>
      rcases error_of_bind h with hs | ⟨s, hs, h⟩
      · exact refusal_of_requireScope (Element.entryName_iff.2 (.inl ⟨n, hel⟩)) hs
      · cases h
  | indexed n index =>
      cases index with
      | append =>
          obtain ⟨hname, hn⟩ := Element.ofText_eq_append_iff.1 hel
          rcases error_of_bind h with hs | ⟨s, hs, h⟩
          · exact refusal_of_requireScope (hname ▸ .item hn) hs
          rcases error_of_bind h with ha | ⟨found, ha, h⟩
          · exact refusal_of_arrayFor hn hname (requireScope_eq_ok_iff.1 hs) ha
          · cases h
      | pos _ | fromEnd _ =>
          cases h
          exact refusal_of_ofText (by simp [hel]) (by simp [hel])
  | parent | bookmark _ =>
      cases h
      exact refusal_of_ofText (by simp [hel]) (by simp [hel])

/-- An entry is refused for a reason, or there is none and it is added. -/
theorem add_cases (hlt : scope < t.size) :
    (∃ err, t.add scope name e = .error err ∧ Refusal t scope name e err) ∨
    ∃ id t', t.add scope name e = .ok (id, t') ∧ Adds t scope name e id t' ∧
      ∀ err, ¬ Refusal t scope name e err := by
  cases hadd : t.add scope name e with
  | error err => exact .inl ⟨err, rfl, refusal_of_add hadd⟩
  | ok found =>
      have hadded := add_eq_ok_iff.1 hadd
      exact .inr ⟨_, _, rfl, hadded.adds hlt, fun err => hadded.not_refusal⟩

end Tree

end RegisterAtlas
