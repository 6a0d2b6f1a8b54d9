import RegisterAtlas.Proofs.Resolve.Depth
import RegisterAtlas.Proofs.Tree.Shape
import Mathlib.Logic.Relation

/-!
# Chains and cycles of aliases

What the bound on nested aliases comes to for whole trees. A chain of aliases is followed to its
end if it is no longer than the bound. An alias that leads back to itself means nothing, so that a
path which enters one has no meaning and its walk fails. Aliases that come one after the other on
a path do not add up.
-/

namespace RegisterAtlas.Tree

variable {t : Tree}

/-- What following an alias comes to. -/
def AliasMeans (t : Tree) (a : EntryId) (hops : Nat) (r : Outcome) : Prop :=
  ∃ target inner, t.alias? a = some target ∧ Path.ofText target = .ok inner ∧
    t.Means (t.parent a) inner true hops r

theorem aliasMeans_iff {a : EntryId} {target : String} {inner : Path} {hops : Nat} {r : Outcome}
    (ha : t.alias? a = some target) (hp : Path.ofText target = .ok inner) :
    t.AliasMeans a hops r ↔ t.Means (t.parent a) inner true hops r := by
  constructor
  · rintro ⟨target', inner', ha', hp', hm⟩
    cases ha.symm.trans ha'
    cases hp.symm.trans hp'
    exact hm
  · exact fun hm => ⟨target, inner, ha, hp, hm⟩

/-! ## Cycles -/

/-- An alias that is followed when the elements of a path are walked. -/
inductive Enters (t : Tree) : Path → Bool → Nat → EntryId → List Element → EntryId → Prop where
  | here {path : Path} {follow : Bool} {i : Nat} {id a : EntryId} {e : Element}
      {rest : List Element} {target : String} (he : t.Takes path i id e (.ok (some a)))
      (ha : t.alias? a = some target)
      (hf : ¬ (rest = [] ∧ follow = false)) : Enters t path follow i id (e :: rest) a
  | step {path : Path} {follow : Bool} {i : Nat} {id next a : EntryId} {e : Element}
      {rest : List Element} (he : t.Takes path i id e (.ok (some next))) (hn : t.alias? next = none)
      (ha : Enters t path follow (i + 1) next rest a) : Enters t path follow i id (e :: rest) a
  | follow {path : Path} {follow : Bool} {i : Nat} {id next found a : EntryId} {e : Element}
      {rest : List Element} {hops : Nat} (he : t.Takes path i id e (.ok (some next)))
      (hf : ¬ (rest = [] ∧ follow = false)) (hin : t.AliasMeans next hops (.ok (some found)))
      (ha : Enters t path follow (i + 1) found rest a) : Enters t path follow i id (e :: rest) a

/-- Following the first alias enters the second one. -/
def Leads (t : Tree) (a b : EntryId) : Prop :=
  ∃ target inner, t.alias? a = some target ∧ Path.ofText target = .ok inner ∧
    t.Enters inner true 0 (base inner (t.parent a)) inner.elements b

theorem WellFormed.enters_lt_size (h : t.WellFormed) {path : Path} {follow : Bool} {i : Nat}
    {id a : EntryId} {es : List Element} (hid : id < t.size)
    (ha : t.Enters path follow i id es a) : a < t.size := by
  induction ha with
  | here he => exact h.takes_lt_size hid he
  | step he hn ha ih => exact ih (h.takes_lt_size hid he)
  | follow he hf hin ha ih =>
      obtain ⟨target, inner, hn, hp, hin⟩ := hin
      have hnext := h.parent_lt_size (h.takes_lt_size hid he)
      exact ih (h.walks_lt_size (h.base_lt_size inner hnext) hin)

theorem WellFormed.leads_lt_size (h : t.WellFormed) {a b : EntryId} (ha : a < t.size)
    (hab : t.Leads a b) : b < t.size := by
  obtain ⟨target, inner, -, -, hab⟩ := hab
  exact h.enters_lt_size (h.base_lt_size inner (h.parent_lt_size ha)) hab

/-- An alias that a path enters nests fewer aliases than the path. -/
theorem WellFormed.aliasMeans_of_enters (h : t.WellFormed) {path inner : Path} {follow : Bool}
    {i : Nat} {id a : EntryId} {es : List Element} {target : String} (hid : id < t.size)
    (ha : t.Enters path follow i id es a) (hn : t.alias? a = some target)
    (hp : Path.ofText target = .ok inner) : ∀ {hops : Nat} {r : Outcome},
    t.Walks path follow i id es hops r → ∃ n r', n < hops ∧ t.AliasMeans a n r' := by
  induction ha with
  | here he ha hf =>
      intro hops r hw
      rcases (h.walks_alias_iff hid he hn hf hp).1 hw with
        ⟨n, hin, -, rfl⟩ | ⟨n, n', found, hin, -, rfl⟩
      · exact ⟨n, r, Nat.lt_succ_self n, (aliasMeans_iff hn hp).2 hin⟩
      · exact ⟨n, _, Nat.le_max_left .., (aliasMeans_iff hn hp).2 hin⟩
  | step he hn' ha ih =>
      intro hops r hw
      exact ih (h.takes_lt_size hid he) hn ((h.walks_step_iff hid he (.inl hn')).1 hw)
  | follow he hf hin ha ih =>
      intro hops r hw
      obtain ⟨target', inner', hn', hp', hin⟩ := hin
      have hnext := h.base_lt_size inner' (h.parent_lt_size (h.takes_lt_size hid he))
      rcases (h.walks_alias_iff hid he hn' hf hp').1 hw with
        ⟨n, hin', hr, -⟩ | ⟨n, n', found', hin', hw', rfl⟩
      · exact (hr _ (h.walks_unique hnext hin hin').2.symm).elim
      · cases (h.walks_unique hnext hin hin').2
        obtain ⟨m, r', hlt, hm⟩ := ih (h.walks_lt_size hnext hin) hn hw'
        exact ⟨m, r', Nat.lt_of_lt_of_le hlt (Nat.le_max_right ..), hm⟩

theorem WellFormed.aliasMeans_of_leads (h : t.WellFormed) {a b c : EntryId} {hops : Nat}
    {r : Outcome} (ha : a < t.size) (hab : t.Leads a b) (hbc : t.Leads b c)
    (hm : t.AliasMeans a hops r) : ∃ n r', n < hops ∧ t.AliasMeans b n r' := by
  obtain ⟨target, inner, hn, hp, hab⟩ := hab
  obtain ⟨target', inner', hn', hp', -⟩ := hbc
  exact h.aliasMeans_of_enters (h.base_lt_size inner (h.parent_lt_size ha)) hab hn' hp'
    ((aliasMeans_iff hn hp).1 hm)

open Relation in
/-- Along a chain of aliases the number of nested aliases falls. -/
theorem WellFormed.aliasMeans_of_transGen (h : t.WellFormed) {a b : EntryId} (ha : a < t.size)
    (hab : TransGen t.Leads a b) {hops : Nat} {r : Outcome} (hm : t.AliasMeans a hops r) :
    ∀ {c : EntryId}, t.Leads b c → b < t.size ∧ ∃ n r', n < hops ∧ t.AliasMeans b n r' := by
  induction hab with
  | single hab => exact fun hbc => ⟨h.leads_lt_size ha hab, h.aliasMeans_of_leads ha hab hbc hm⟩
  | tail hab hbc ih =>
      intro d hcd
      obtain ⟨hb, n, r', hlt, hm⟩ := ih hbc
      obtain ⟨n', r'', hlt', hm⟩ := h.aliasMeans_of_leads hb hbc hcd hm
      exact ⟨h.leads_lt_size hb hbc, n', r'', Nat.lt_trans hlt' hlt, hm⟩

open Relation in
/-- An alias on a cycle means nothing. -/
theorem WellFormed.not_aliasMeans_of_cycle (h : t.WellFormed) {a : EntryId} (ha : a < t.size)
    (hcycle : TransGen t.Leads a a) {hops : Nat} {r : Outcome} : ¬ t.AliasMeans a hops r := by
  induction hops using Nat.strongRecOn generalizing r with
  | ind hops ih =>
      intro hm
      obtain ⟨b, hab, -⟩ := TransGen.head'_iff.1 hcycle
      obtain ⟨-, n, r', hlt, hm⟩ := h.aliasMeans_of_transGen ha hcycle hm hab
      exact ih n hlt hm

open Relation in
/-- A path that enters an alias from which a cycle is reached means nothing. -/
theorem WellFormed.not_means_of_cycle (h : t.WellFormed) {origin a b : EntryId} {path : Path}
    {follow : Bool} {hops : Nat} {r : Outcome} (ho : origin < t.size)
    (ha : t.Enters path follow 0 (base path origin) path.elements a)
    (hab : ReflTransGen t.Leads a b) (hcycle : TransGen t.Leads b b) :
    ¬ t.Means origin path follow hops r := by
  intro hm
  have ha_lt := h.enters_lt_size (h.base_lt_size path ho) ha
  obtain ⟨c, hac, -⟩ : ∃ c, t.Leads a c ∧ ReflTransGen t.Leads c b :=
    TransGen.head'_iff.1 (TransGen.trans_right hab hcycle)
  obtain ⟨target, inner, hn, hp, -⟩ := hac
  obtain ⟨n, r', -, hm⟩ := h.aliasMeans_of_enters (h.base_lt_size path ho) ha hn hp hm
  obtain ⟨c, hbc, -⟩ := TransGen.head'_iff.1 hcycle
  rcases reflTransGen_iff_eq_or_transGen.1 hab with rfl | hab
  · exact h.not_aliasMeans_of_cycle ha_lt hcycle hm
  · obtain ⟨hb, n', r'', -, hm⟩ := h.aliasMeans_of_transGen ha_lt hab hm hbc
    exact h.not_aliasMeans_of_cycle hb hcycle hm

/-! ## Chains -/

/-- A chain of `k` aliases: each names the next one by a path that crosses no alias, and the last
one names an entry that is no alias. -/
inductive Chain (t : Tree) : Nat → EntryId → EntryId → Prop where
  | last {a d : EntryId} {target : String} {inner : Path} (ha : t.alias? a = some target)
      (hp : Path.ofText target = .ok inner) (hm : t.Means (t.parent a) inner false 0 (.ok (some d)))
      (hd : t.alias? d = none) : Chain t 1 a d
  | cons {k : Nat} {a b d : EntryId} {target : String} {inner : Path}
      (ha : t.alias? a = some target) (hp : Path.ofText target = .ok inner)
      (hm : t.Means (t.parent a) inner false 0 (.ok (some b))) (hb : Chain t k b d) :
      Chain t (k + 1) a d

/-- A path that crosses no alias and does not end in one is walked in one way only. -/
theorem walks_follow_of_plain {path : Path} {i : Nat} {id d : EntryId} {es : List Element}
    (hw : t.Walks path false i id es 0 (.ok (some d))) (hd : t.alias? d = none) :
    t.Walks path true i id es 0 (.ok (some d)) := by
  generalize hr : (Except.ok (some d) : Outcome) = r at hw
  generalize hhops : 0 = hops at hw
  generalize hfollow : false = follow at hw
  induction hw with
  | done => exact .done
  | halt he hr' => exact .halt he hr'
  | step he hn hw ih =>
      rcases hn with hn | ⟨rfl, -⟩
      · exact .step he (.inl hn) (ih hr hhops hfollow)
      · cases hw
        cases hr
        exact .step he (.inl hd) .done
  | malformed he hn hf hp => cases hr
  | stop he hn hf hp hin hr' => cases hhops
  | follow he hn hf hp hin hw => exact absurd hhops (by omega)

/-- A path that crosses no alias but ends in one is followed by one alias more than that one. -/
theorem walks_follow_of_alias {path : Path} {i n : Nat} {id b d : EntryId} {es : List Element}
    (hid : es ≠ [] ∨ t.alias? id = none) (hw : t.Walks path false i id es 0 (.ok (some b)))
    (hb : t.AliasMeans b n (.ok (some d))) : t.Walks path true i id es (n + 1) (.ok (some d)) := by
  obtain ⟨target, inner, hn, hp, hb⟩ := hb
  generalize hr : (Except.ok (some b) : Outcome) = r at hw
  generalize hhops : 0 = hops at hw
  generalize hfollow : false = follow at hw
  induction hw with
  | done =>
      cases hr
      rcases hid with hid | hid
      · exact (hid rfl).elim
      · rw [hn] at hid
        cases hid
  | halt he hr' => exact (hr' b hr.symm).elim
  | step he hn' hw ih =>
      rcases hn' with hn' | ⟨rfl, -⟩
      · exact .step he (.inl hn') (ih (.inr hn') hr hhops hfollow)
      · cases hw
        cases hr
        exact Nat.max_zero (n + 1) ▸ .follow he hn (fun hf => by cases hf.2) hp hb .done
  | malformed he hn hf hp => cases hr
  | stop he hn hf hp hin hr' => cases hhops
  | follow he hn hf hp hin hw => exact absurd hhops (by omega)

theorem WellFormed.alias?_base (h : t.WellFormed) {origin : EntryId} (path : Path)
    (hs : t.alias? origin = none) : t.alias? (base path origin) = none := by
  unfold base
  split
  · exact alias?_of_kind h.root_kind
  · exact hs

theorem WellFormed.aliasMeans_of_chain (h : t.WellFormed) {k : Nat} {a d : EntryId}
    (hc : t.Chain k a d) : ∃ n, k = n + 1 ∧ t.AliasMeans a n (.ok (some d)) := by
  induction hc with
  | last ha hp hm hd =>
      exact ⟨0, rfl, (aliasMeans_iff ha hp).2 (walks_follow_of_plain hm hd)⟩
  | @cons k a b d target inner ha hp hm hb ih =>
      obtain ⟨n, rfl, hmeans⟩ := ih
      have hparent := alias?_of_kind (h.parent_kind _ (lt_size_of_alias ha))
      have hbase := h.alias?_base inner hparent
      exact ⟨n + 1, rfl, (aliasMeans_iff ha hp).2 (walks_follow_of_alias (.inr hbase) hm hmeans)⟩

/-- A path that names the first alias of a chain comes to its end, with all of the chain nested. It
must have elements, as a path without any stays where it starts, even at an alias. -/
theorem WellFormed.means_of_chain (h : t.WellFormed) {k : Nat} {origin a d : EntryId} {path : Path}
    (hpath : path.elements ≠ []) (hm : t.Means origin path false 0 (.ok (some a)))
    (hc : t.Chain k a d) : t.Means origin path true k (.ok (some d)) := by
  obtain ⟨n, rfl, ha⟩ := h.aliasMeans_of_chain hc
  exact walks_follow_of_alias (.inl hpath) hm ha

/-! ## Aliases in sequence -/

/-- What an element leads to does not depend on the rest of the path, errors apart. -/
theorem Takes.congr {path path' : Path} {i i' : Nat} {id : EntryId} {e : Element}
    {found : Option EntryId} (he : t.Takes path i id e (.ok found)) :
    t.Takes path' i' id e (.ok found) := by
  cases he with
  | parent h => exact .parent h
  | bookmark h ha => exact .bookmark h ha
  | noBookmark h ha => exact .noBookmark h ha
  | child h hc => exact .child h hc
  | noChild h hc => exact .noChild h hc
  | item h hc ha hi => exact .item h hc ha hi
  | noItem h hc ha hi => exact .noItem h hc ha hi
  | noArray h hc => exact .noArray h hc

theorem Walks.congr {path path' : Path} {follow : Bool} {i i' : Nat} {id : EntryId}
    {es : List Element} {hops : Nat} {found : Option EntryId}
    (hw : t.Walks path follow i id es hops (.ok found)) :
    t.Walks path' follow i' id es hops (.ok found) := by
  generalize hr : (Except.ok found : Outcome) = r at hw
  induction hw generalizing i' with
  | done => exact .done
  | halt he hr' =>
      subst hr
      exact .halt he.congr hr'
  | step he hn hw ih => exact .step he.congr hn (ih hr)
  | malformed he hn hf hp => cases hr
  | stop he hn hf hp hin hr' => exact .stop he.congr hn hf hp hin hr'
  | follow he hn hf hp hin hw ihin ih => exact .follow he.congr hn hf hp hin (ih hr)

/-- Two walks one after the other nest no more aliases than the deeper one of them. -/
theorem Walks.append {path : Path} {i : Nat} {id mid : EntryId} {es es' : List Element}
    {hops hops' : Nat} {found : Option EntryId}
    (hw : t.Walks path true i id es hops (.ok (some mid)))
    (hw' : t.Walks path true i mid es' hops' (.ok found)) :
    t.Walks path true i id (es ++ es') (max hops hops') (.ok found) := by
  generalize hr : (Except.ok (some mid) : Outcome) = r at hw
  generalize hfollow : true = follow at hw
  induction hw with
  | done =>
      cases hr
      rw [Nat.zero_max, ← hfollow]
      exact hw'
  | halt he hr' => exact (hr' mid hr.symm).elim
  | step he hn hw ih =>
      subst hfollow
      exact .step he (.inl (hn.resolve_right fun hl => by cases hl.2)) (ih hw'.congr hr rfl)
  | malformed he hn hf hp => cases hr
  | stop he hn hf hp hin hr' => exact (hr' mid hr.symm).elim
  | follow he hn hf hp hin hw ihin ih =>
      subst hfollow
      rw [Nat.max_assoc]
      exact .follow he hn (fun hl => by cases hl.2) hp hin (ih hw'.congr hr rfl)

/-! ## Resolving within the bound -/

open Relation in
/-- What a path has been resolved to agrees with its meaning: it is what the path means if no more
than 32 aliases are nested, and otherwise that they nest too deep. The latter is the case whenever
a cycle of aliases is entered. -/
def Answers (t : Tree) (origin : EntryId) (path : Path) (follow : Bool) (result : Outcome) : Prop :=
  (∀ hops r, t.Means origin path follow hops r → hops ≤ 32 → result = r) ∧
  (TooDeep result ↔ ∀ hops r, t.Means origin path follow hops r → 32 < hops) ∧
  ∀ a b, t.Enters path follow 0 (base path origin) path.elements a → ReflTransGen t.Leads a b →
    TransGen t.Leads b b → TooDeep result

theorem WellFormed.answers_walked (h : t.WellFormed) {origin : EntryId} (ho : origin < t.size)
    (path : Path) (follow : Bool) :
    t.Answers origin path follow (t.walked origin path follow) := by
  refine ⟨fun hops r hm hle => h.walked_eq_of_means ho hm hle, h.tooDeep_walked_iff ho,
    fun a b ha hab hcycle => ?_⟩
  refine (h.tooDeep_walked_iff ho).2 fun hops r hm => ?_
  exact (h.not_means_of_cycle ho ha hab hcycle hm).elim

/-- A path has at most one meaning, and resolving it answers with that. A chain of aliases is
followed just if it has no more than 32 of them, and aliases that come one after the other do not
count together. -/
theorem resolve_answers {t : Tree} (h : Reachable t) {origin : EntryId} (ho : origin < t.size)
    (path : Path) :
    t.Answers origin path false (t.resolve origin path) ∧
    t.Answers origin path true (t.resolveFollow origin path) ∧
    (∀ follow hops r hops' r', t.Means origin path follow hops r →
      t.Means origin path follow hops' r' → hops = hops' ∧ r = r') ∧
    (∀ k a d, path.elements ≠ [] → t.Means origin path false 0 (.ok (some a)) → t.Chain k a d →
      (k ≤ 32 → t.resolveFollow origin path = .ok (some d)) ∧
      (32 < k → TooDeep (t.resolveFollow origin path))) ∧
    ∀ mid rest found, t.resolveFollow origin path = .ok (some mid) →
      t.resolveFollow mid ⟨false, rest⟩ = .ok found →
      t.resolveFollow origin ⟨path.isAbsolute, path.elements ++ rest⟩ = .ok found := by
  have hw := h.wellFormed
  have hbase := hw.base_lt_size path ho
  refine ⟨hw.answers_walked ho path false, hw.answers_walked ho path true,
    fun follow hops r hops' r' hm hm' => hw.walks_unique hbase hm hm', fun k a d hpath hm hc => ?_,
    fun mid rest found hmid hfound => ?_⟩
  · have hm := hw.means_of_chain hpath hm hc
    refine ⟨fun hk => hw.walked_eq_of_means ho hm hk, fun hk => ?_⟩
    refine (hw.tooDeep_walked_iff ho).2 fun hops r hm' => ?_
    rw [← (hw.walks_unique hbase hm hm').1]
    exact hk
  · obtain ⟨hops, hle, hm⟩ := hw.exists_means_of_walked ho hmid
    have hmid_lt := hw.walks_lt_size hbase hm
    obtain ⟨hops', hle', hm'⟩ := hw.exists_means_of_walked hmid_lt hfound
    exact hw.walked_eq_of_means ho (hm.congr.append hm'.congr) (Nat.max_le.2 ⟨hle, hle'⟩)

/-- Here `a` and `b` are aliases of each other, and `c` is one of `d`, which is one of the scope
`s`. -/
def aliasLoop : Tree :=
  ([.alias "a" "b", .alias "b" "/a", .openScope "s" none, .closeScope, .alias "c" "s/../d",
    .alias "d" "s"].foldl Draft.after (.ofTree empty)).tree

theorem resolve_answers_aliasLoop :
    Reachable aliasLoop ∧ root < aliasLoop.size ∧
      aliasLoop.resolveFollow root ⟨false, [.name "c"]⟩ = .ok (some 3) ∧
      aliasLoop.resolveFollow root ⟨false, [.name "a"]⟩ = .error (.conversion "b" .aliasesTooDeep) ∧
      ∀ hops r, aliasLoop.Means root ⟨false, [.name "a"]⟩ true hops r → 32 < hops := by
  have hr : Reachable aliasLoop := .pass .empty _
  have hlt : root < aliasLoop.size := hr.wellFormed.root_lt
  have hloop : aliasLoop.resolveFollow root ⟨false, [.name "a"]⟩ =
    .error (.conversion "b" .aliasesTooDeep) := by decide +kernel
  obtain ⟨-, ⟨-, hdeep, -⟩, -⟩ := resolve_answers hr hlt ⟨false, [.name "a"]⟩
  exact ⟨hr, hlt, by decide +kernel, hloop, hdeep.1 ⟨"b", hloop⟩⟩

end RegisterAtlas.Tree
