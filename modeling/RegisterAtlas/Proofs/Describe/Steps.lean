import RegisterAtlas.Proofs.Bits.Fields
import RegisterAtlas.Proofs.Describe.Filling

/-!
# The steps of a description

One rule for each step that a description of a device is made of: what the open scope shows after
the step, and that the step succeeds. Each rule goes on with the rest of the description, so that
the rules follow its text. `opened` is the rule for a scope that is opened, filled and closed;
`openScope` and `openItem` are its cases for scopes inside another one.
-/

namespace RegisterAtlas

namespace Tree

variable {t : Tree} {scope : EntryId} {name : String}

/-- A name of a scope leads to the child that it shows, found with and without following, unless
that is an alias. -/
theorem resolveText_child (hw : t.WellFormed) (hlt : scope < t.size) (hk : t.kind scope = .scope)
    (hname : isName name.toList = true)
    (hplain : ∀ e, t.view scope name = some e → e.kind ≠ .alias) :
    ∃ r, t.resolveText scope name = .ok r ∧ t.resolveTextFollow scope name = .ok r ∧
      r.map t.entry = t.view scope name ∧ ∀ child ∈ r, t.parent child = scope := by
  obtain ⟨s, hs⟩ := exists_scope_of_kind hk
  have hpath : Path.ofText name = .ok ⟨false, [.name name]⟩ :=
    Path.WellFormed.ofText_text (p := ⟨false, [.name name]⟩) fun e he => by
      rw [List.mem_singleton.1 he]; exact .name hname
  have hview := view_of_scope hs name
  have hstart : t.start scope ⟨false, [.name name]⟩ = ⟨scope, []⟩ := rfl
  have hwalk (follow : Bool) : (t.walkFrom scope ⟨false, [.name name]⟩ follow).map
      (Option.map Spot.entry) = .ok (s.children.get? name) := by
    cases hc : s.children.get? name with
    | none =>
        rw [walkFrom, walk, hstart, walkElements, takeStep, scope?_of_entry hs]
        simp [hc, bind, Except.bind, pure, Except.pure, Except.map]
    | some child =>
        rw [hc, Option.map_some] at hview
        have hchild : t.alias? child = none := by
          rw [alias?]
          split
          · next target he => exact absurd (congrArg Entry.kind he) (hplain _ hview)
          · rfl
        rw [(Trail.child .here hs hc).walkFrom_eq hw hlt hk hchild rfl rfl follow]
        rfl
  refine ⟨s.children.get? name, ?_, ?_, hview.symm, fun child hc => ?_⟩
  · rw [resolveText, hpath]
    exact hwalk false
  · rw [resolveTextFollow, hpath]
    exact hwalk true
  · exact hw.child_parent hs (Table.mem_values_of_get? hc)

/-- A field of a scope is read by its name. -/
theorem readPath_child {σ : Type} [Bus σ] (hw : t.WellFormed) (hlt : scope < t.size)
    (hk : t.kind scope = .scope) (hname : isName name.toList = true) {f : Field}
    (hview : t.view scope name = some (.field f)) :
    ∃ child, t.resolveText scope name = .ok (some child) ∧ t.target scope name = .ok child ∧
      t.entry child = .field f ∧ t.parent child = scope ∧
      (t.readPath scope name : Access σ Value) = t.read child := by
  obtain ⟨r, hr, hfollow, hmap, hparent⟩ := resolveText_child hw hlt hk hname fun e he => by
    cases hview.symm.trans he
    exact nofun
  rw [hview] at hmap
  obtain ⟨child, rfl, hentry⟩ := Option.map_eq_some_iff.1 hmap
  have htarget : t.target scope name = .ok child := by
    rw [target, hfollow]
    rfl
  refine ⟨child, hr, htarget, hentry, hparent child rfl, ?_⟩
  rw [readPath, htarget]
  rfl

end Tree

namespace Describe.Ensures

open Draft

variable {σ α β : Type} {I : σ → Prop} {t : Tree} {scope : EntryId} {space : Space} {view : View}
  {name : String} {Q : α → Draft → Prop} {R : β → Draft → Prop} {F : View → Prop}

theorem of_filled {a : Describe σ α}
    (h : ∀ view, F view → Ensures I (Filling t scope space view) a Q) :
    Ensures I (Filled t scope space F) a Q := of_exists fun view => of_and (h view)

/-- All that matters of what is shown. -/
theorem forget {a : Describe σ α} (hF : F view)
    (h : ∀ view, F view → Ensures I (Filling t scope space view) a Q) :
    Ensures I (Filling t scope space view) a Q := h view hF

/-- Nothing more is shown. -/
theorem filled {x : α} (h : F view) :
    Ensures I (Filling t scope space view) (Pure.pure x) fun _ => Filled t scope space F :=
  pure fun _ hd => ⟨view, h, hd⟩

/-- A loop whose steps keep what is said of the scope. -/
theorem forM_filled {γ : Type} {f : γ → Describe σ PUnit} {xs : List γ} (hF : F view)
    (h : ∀ x ∈ xs, Ensures I (Filled t scope space F) (f x) fun _ => Filled t scope space F) :
    Ensures I (Filling t scope space view) (xs.forM f) fun _ => Filled t scope space F :=
  (forM h).mono (fun _ hd => ⟨view, hF, hd⟩) fun _ _ hd => hd

theorem field {f : Field} {k : EntryId → Describe σ β} (hname : isName name.toList = true)
    (hk : ∀ id, Ensures I (Filling t scope space (view.put name (.field f))) (k id) R) :
    Ensures I (Filling t scope space view) (Describe.field name f >>= k) R := by
  refine bind (edit fun d hd => ?_) hk
  obtain ⟨id, d', hadd, hd', -⟩ := hd.add_child hname (.field f)
  exact ⟨id, d', hadd, hd'⟩

theorem constant {datatype : Datatype} {v : Value} {k : EntryId → Describe σ β}
    (hname : isName name.toList = true)
    (hk : ∀ id, Ensures I (Filling t scope space (view.put name (.field (.constant datatype v))))
      (k id) R) :
    Ensures I (Filling t scope space view) (Describe.constant name datatype v >>= k) R :=
  field hname hk

theorem readOnly {datatype : Datatype} {read : Procedure} {k : EntryId → Describe σ β}
    (hname : isName name.toList = true)
    (hk : ∀ id, Ensures I (Filling t scope space (view.put name (.field (.readOnly datatype read))))
      (k id) R) :
    Ensures I (Filling t scope space view) (Describe.readOnly name datatype read >>= k) R :=
  field hname hk

theorem bits {datatype : Datatype} {address : Value} {width : Width} {high low : Nat}
    {k : EntryId → Describe σ β} (hname : isName name.toList = true)
    (hrange : low ≤ high ∧ high < width.bits)
    (hk : ∀ id, Ensures I (Filling t scope space (view.put name (.field (.direct datatype
      (.range ⟨space, address, width⟩ low (high - low + 1)))))) (k id) R) :
    Ensures I (Filling t scope space view)
      (Describe.bits name datatype ⟨space, address, width⟩ high low >>= k) R := by
  have hrange : low ≤ high ∧ high < (⟨space, address, width⟩ : Register).width.bits := hrange
  rw [Describe.bits, Register.bits, if_pos hrange]
  exact field hname hk

theorem bit {datatype : Datatype} {address : Value} {width : Width} {n : Nat}
    {k : EntryId → Describe σ β} (hname : isName name.toList = true) (hrange : n < width.bits)
    (hk : ∀ id, Ensures I (Filling t scope space (view.put name (.field (.direct datatype
      (.range ⟨space, address, width⟩ n 1))))) (k id) R) :
    Ensures I (Filling t scope space view)
      (Describe.bit name datatype ⟨space, address, width⟩ n >>= k) R := by
  refine bits hname ⟨Nat.le_refl n, hrange⟩ ?_
  rw [Nat.sub_self]
  exact hk

theorem register {address : Value} {width : Width} {k : Register → Describe σ β}
    (hname : isName name.toList = true)
    (hk : Ensures I (Filling t scope space (view.put name
      (.field (.direct (.hex width.bits none) (Register.all ⟨space, address, width⟩)))))
      (k ⟨space, address, width⟩) R) :
    Ensures I (Filling t scope space view) (Describe.register name address width >>= k) R := by
  refine bind_eq (edit fun d hd => ?_) hk
  obtain ⟨id, d', hadd, hd', -⟩ := hd.add_child hname
    (.field (.direct (.hex width.bits none) (Register.all ⟨space, address, width⟩)))
  refine ⟨_, d', ?_, rfl, hd'⟩
  rw [Draft.register, hd.space_ok]
  simp only [Bind.bind, Except.bind, Draft.field, hadd]
  rfl

theorem bookmark {k : Unit → Describe σ β}
    (hk : Ensures I (Filling t scope space view) (k ()) R) :
    Ensures I (Filling t scope space view) (Describe.bookmark name >>= k) R := by
  refine bind (edit fun d hd => ?_) fun _ => hk
  obtain ⟨s, hs⟩ := Tree.exists_scope_of_kind hd.wellFormed.current_kind
  rw [Draft.bookmark, Tree.addBookmark, Tree.requireScope_eq_ok_iff.2 hs]
  simp only [Bind.bind, Except.bind, Pure.pure, Except.pure]
  by_cases hmem : name ∈ s.bookmarks
  · rw [if_pos hmem]
    exact ⟨(), d, rfl, hd⟩
  · rw [if_neg hmem]
    exact ⟨(), _, rfl, hd.updateScope (fun _ => rfl) fun _ => rfl⟩

theorem datatype {datatype : Datatype} {k : Datatype → Describe σ β}
    (hk : Ensures I (Filling t scope space view) (k datatype) R) :
    Ensures I (Filling t scope space view) (Describe.datatype name datatype >>= k) R := by
  refine bind_eq (edit fun d hd => ?_) hk
  obtain ⟨s, hs⟩ := Tree.exists_scope_of_kind hd.wellFormed.current_kind
  rw [Draft.datatype, Tree.addDatatype, Tree.requireScope_eq_ok_iff.2 hs]
  exact ⟨_, _, rfl, rfl, hd.updateScope (fun _ => rfl) fun _ => rfl⟩

theorem addAlias {target : String} {k : EntryId → Describe σ β} (hname : isName name.toList = true)
    (htarget : (Path.ofText target).isOk = true)
    (hk : ∀ id, Ensures I (Filling t scope space (view.put name (.alias target))) (k id) R) :
    Ensures I (Filling t scope space view) (Describe.addAlias name target >>= k) R := by
  refine bind (edit fun d hd => ?_) hk
  obtain ⟨id, d', hadd, hd', -⟩ := hd.add_child hname (.alias target)
  refine ⟨id, d', ?_, hd'⟩
  rw [Draft.addAlias]
  cases hpath : Path.ofText target with
  | error err => rw [hpath] at htarget; cases htarget
  | ok p => exact hadd

/-- A field as the next item of an array. -/
theorem item {f : Field} {k : EntryId → Describe σ β} {text : String} (name : String)
    (htext : text = name ++ "[]") (hname : isName name.toList = true)
    (htakes : view.Takes name .field) (hk : ∀ id items, items.kind = .field →
      Ensures I (Filling t scope space (view.put name (.array items))) (k id) R) :
    Ensures I (Filling t scope space view) (Describe.field text f >>= k) R := by
  subst htext
  refine bind (Q := fun id d => ∃ items : Items, items.kind = .field ∧
      Filling t scope space (view.put name (.array items)) d)
    (edit fun d hd => ?_) fun id => of_exists fun items => of_and (hk id items)
  obtain ⟨id, d', items, hadd, hkind, hd', -⟩ := hd.add_item hname (.field f) htakes
  exact ⟨id, d', hadd, items, hkind, hd'⟩

theorem boundSpace {k : Space → Describe σ β}
    (hk : Ensures I (Filling t scope space view) (k space) R) :
    Ensures I (Filling t scope space view) (Describe.inspect (·.space) >>= k) R := by
  refine bind_eq (edit fun d hd => ⟨space, d, ?_, rfl, hd⟩) hk
  simp only [hd.space_ok]
  rfl

/-- A field that shows bits of a register of the scope is read, if the register answers. -/
theorem read [Bus σ] {datatype : Datatype} {address : Value} {width : Width} {low count : Nat}
    {k : Value → Describe σ β} (hname : isName name.toList = true)
    (hview : view name =
      some (.field (.direct datatype (.range ⟨space, address, width⟩ low count))))
    (hanswers : Answers I (Bus.read space address width : Action Fault σ Value))
    (hk : ∀ v, MayGive I (Bus.read space address width : Action Fault σ Value) v →
      Ensures I (Filling t scope space view) (k ((v.extractLsb' low count).setWidth 128)) R) :
    Ensures I (Filling t scope space view) (Describe.read name >>= k) R := by
  refine bind (Q := fun x d => ∃ v, (MayGive I (Bus.read space address width) v ∧
      x = (v.extractLsb' low count).setWidth 128) ∧ Filling t scope space view d)
    (access fun d w hd hw => ?_) fun x => of_exists fun v => of_and fun ⟨hv, hx⟩ => hx ▸ hk v hv
  rw [← hd.view_eq] at hview
  obtain ⟨child, -, -, hentry, -, hread⟩ := Tree.readPath_child (σ := σ) hd.wellFormed.tree
    hd.current_lt hd.kind_eq hname hview
  obtain ⟨v, w', hrun, hw'⟩ := hanswers w hw
  refine ⟨_, w', ?_, ⟨v, ⟨⟨w, w', hw, hrun⟩, rfl⟩, hd⟩, hw'⟩
  rw [Draft.read, hd.current_eq, hread, Tree.read_range hentry, Action.runOn_bind, Access.ofFault,
    Action.runOn_mapError, Register.read, hrun]
  rfl

/-- A scope is opened, filled and closed. Whatever is known of the draft to which the scope was just
added (`S`) is there again when the scope is closed. -/
theorem opened {P R : Draft → Prop} {S : EntryId → Draft → Prop} {own : Option Space}
    {k : EntryId → Describe σ β}
    (hadd : ∀ d, P d → ∃ inner d₁, d.add name (.scope { space := own }) = .ok (inner, d₁) ∧
      S inner d₁)
    (hnew : ∀ inner d₁, S inner d₁ →
      Filling d₁.tree inner space View.none { d₁ with current := inner })
    (hk : ∀ inner t', Ensures I (Filling t' inner space View.none) (k inner)
      fun _ => Closed t' inner space F)
    (hclose : ∀ inner d₁ view d', S inner d₁ → F view → Filling d₁.tree inner space view d' →
      R d'.closed) :
    Ensures I P (Describe.edit (·.openScope name own) >>= k) fun _ => R := by
  refine bind (Q := fun inner d' => ∃ d₁, S inner d₁ ∧ d' = { d₁ with current := inner })
    (edit fun d hd => ?_) fun inner => of_exists fun d₁ => of_and fun hS => ?_
  · obtain ⟨inner, d₁, hok, hS⟩ := hadd d hd
    refine ⟨inner, { d₁ with current := inner }, ?_, d₁, hS, rfl⟩
    rw [Draft.openScope, hok]
    rfl
  · refine (hk inner d₁.tree).mono ?_ ?_
    · rintro _ rfl
      exact hnew inner d₁ hS
    · rintro _ _ ⟨d', ⟨view, hF, hd'⟩, rfl⟩
      exact hclose inner d₁ view d' hS hF hd'

theorem closeScope (hF : F view) :
    Ensures I (Filling t scope space view) Describe.closeScope
      fun _ => Closed t scope space F := by
  refine edit fun d hd => ⟨(), d.closed, ?_, d, ⟨view, hF, hd⟩, rfl⟩
  rw [Draft.closeScope, if_neg (hd.current_eq ▸ hd.ne_root)]
  rfl

/-- A scope inside, bound to the same register space. -/
theorem openScope {k : EntryId → Describe σ β} (hname : isName name.toList = true)
    (hk : ∀ inner t', Ensures I (Filling t' inner space View.none) (k inner)
      fun _ => Closed t' inner space fun _ => True) :
    Ensures I (Filling t scope space view) (Describe.openScope name >>= k) fun _ =>
      Filled t scope space fun view' => ∃ e, e.kind = .scope ∧ view' = view.put name e := by
  refine opened (S := fun inner d₁ => Filling t scope space (view.put name (.scope {})) d₁ ∧
    d₁.tree.size = inner + 1 ∧ d₁.tree.entry inner = .scope {} ∧
    d₁.tree.Lists scope (.name name) inner) ?_ ?_ hk ?_
  · exact fun d hd => hd.add_child hname (.scope none)
  · rintro inner d₁ ⟨hd₁, -, hentry, hl⟩
    exact .of_new hd₁.wellFormed hentry hl hd₁.space_eq
  · rintro inner d₁ view' d' ⟨hd₁, hsize, -, hl⟩ - hd'
    refine ⟨_, ⟨d'.tree.entry inner, hd'.kind_eq, ?_⟩, hd₁.closed hsize hl hd'⟩
    funext n
    by_cases hn : n = name
    · simp [hn]
    · simp [hn, Ne.symm hn]

/-- A scope inside as the next item of an array. -/
theorem openItem {k : EntryId → Describe σ β} {text : String} (name : String)
    (htext : text = name ++ "[]") (hname : isName name.toList = true)
    (htakes : view.Takes name .scope)
    (hk : ∀ inner t', Ensures I (Filling t' inner space View.none) (k inner)
      fun _ => Closed t' inner space fun _ => True) :
    Ensures I (Filling t scope space view) (Describe.openScope text >>= k) fun _ =>
      Filled t scope space fun view' =>
        ∃ items : Items, items.kind = .scope ∧ view' = view.put name (.array items) := by
  subst htext
  refine opened (S := fun inner d₁ => ∃ items : Items, items.kind = .scope ∧
    Filling t scope space (view.put name (.array items)) d₁ ∧ d₁.tree.size = inner + 1 ∧
    d₁.tree.entry inner = .scope {} ∧
    ∃ n, d₁.tree.Lists scope (.indexed name (.pos n)) inner) ?_ ?_ hk ?_
  · intro d hd
    obtain ⟨inner, d₁, items, hadd, hS⟩ := hd.add_item hname (.scope none) htakes
    exact ⟨inner, d₁, hadd, items, hS⟩
  · rintro inner d₁ ⟨items, -, hd₁, -, hentry, n, hl⟩
    exact .of_new hd₁.wellFormed hentry hl hd₁.space_eq
  · rintro inner d₁ view' d' ⟨items, hkind, hd₁, hsize, -, n, hl⟩ - hd'
    exact ⟨_, ⟨items, hkind, rfl⟩, hd₁.closed hsize hl hd'⟩

end Describe.Ensures

end RegisterAtlas
