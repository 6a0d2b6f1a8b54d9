import RegisterAtlas.CommandLine
import RegisterAtlas.Proofs.Datatype.Bitmask
import RegisterAtlas.Proofs.Datatype.Enumeration
import RegisterAtlas.Proofs.Tree.Reachable

/-!
# Values that datatypes accept

There are two ways to a value of a datatype: a token that it has for the value, and a number. Both
end with a value that the datatype accepts as it is: `lookup_accepted` for tokens,
`lookupValue_accepted` for numbers. What the symbol tables owe to their construction is needed for
the first: the bit of a name is one of the bits of a value, and the names of a truth value stand for
0 and 1.
-/

namespace RegisterAtlas

/-! ## Bits with a name -/

namespace BitmaskType

variable {b : BitmaskType}

/-- The flag of a declared bit has no bit beyond the declared ones. -/
theorem flag_and_not_declared {bit : Nat} (h : bit ∈ b.names.values) :
    flag bit &&& ~~~b.declared = 0 := by
  refine BitVec.eq_of_getLsbD_eq fun i hi => ?_
  rw [BitVec.getLsbD_and, BitVec.getLsbD_not, getLsbD_flag]
  by_cases hbit : i = bit
  · subst hbit
    rw [(b.getLsbD_declared i).2 ⟨hi, h⟩]
    simp
  · simp [hbit]

end BitmaskType

/-! ## Declared names -/

/-- A name stands for a value that it was declared with. -/
theorem EnumType.mem_of_get? {pairs : List (String × Value)} {unknown : Option String}
    {name : String} {v : Value} (h : (EnumType.ofList pairs unknown).names.get? name = some v) :
    (name, v) ∈ pairs := (firstNamed_sublist pairs).subset (EnumType.get?_ofList_eq_some_iff.1 h)

/-! ## Declared datatypes -/

/-- The datatypes that can be declared: a list of pairs, two names or a unit makes one of them,
unless it names a bit that values do not have. -/
inductive Datatype.Declared : Datatype → Prop where
  | enum (pairs : List (String × Value)) (unknown : Option String) :
      Declared (.enum (.ofList pairs unknown))
  | bitmask {pairs : List (String × Nat)} {b : BitmaskType} (h : BitmaskType.ofList pairs = .ok b) :
      Declared (.bitmask b)
  | boolean (trueName falseName : String) : Declared (.boolean trueName falseName)
  | int (units : Option String) : Declared (.int units)
  | hex (width : Nat) (units : Option String) : Declared (.hex width units)

namespace Datatype

variable {d : Datatype} {v w : Value}

/-- What a token stands for is accepted as it is. -/
theorem Declared.lookup_accepted (h : d.Declared) {token : String} (hv : d.lookup token = .ok v) :
    d.lookupValue v = .ok v := by
  cases h with
  | enum pairs unknown =>
      exact lookupValue_enum_eq_ok_iff.2 ⟨rfl, token, lookup_enum_eq_ok_iff.1 hv⟩
  | @bitmask pairs b hb =>
      obtain ⟨bit, hbit, rfl⟩ := lookup_bitmask_eq_ok_iff.1 hv
      have hflag := BitmaskType.flag_and_not_declared (List.mem_map_of_mem hbit)
      rw [lookupValue_bitmask_eq_ok_iff]
      exact ⟨rfl, (BitmaskType.and_not_declared_eq_zero_iff b _).1 hflag⟩
  | boolean trueName falseName =>
      simp only [lookup] at hv
      split at hv
      · next hname =>
          cases hv
          have hmem := EnumType.mem_of_get? hname
          simp only [List.mem_cons, Prod.mk.injEq, List.not_mem_nil, or_false] at hmem
          rcases hmem with ⟨-, rfl⟩ | ⟨-, rfl⟩ <;> rfl
      · cases hv
  | int units => rfl
  | hex width units => rfl

/-- A number that is accepted in some form is accepted as it is in that form. -/
theorem lookupValue_accepted (h : d.lookupValue v = .ok w) : d.lookupValue w = .ok w := by
  cases d with
  | enum e =>
      simp only [lookupValue] at h ⊢
      by_cases hv : e.has v = true
      · rw [if_pos hv] at h
        cases h
        rw [if_pos hv]
      · rw [if_neg hv] at h
        cases h
  | bitmask b =>
      simp only [lookupValue] at h ⊢
      by_cases hv : v &&& ~~~b.declared = 0
      · rw [if_pos hv] at h
        cases h
        rw [if_pos hv]
      · rw [if_neg hv] at h
        cases h
  | bool e =>
      simp only [lookupValue, Except.ok.injEq] at h
      subst h
      split <;> rfl
  | int units => rfl
  | hex width units => rfl

end Datatype

/-! ## Values on the command line -/

namespace CommandLine

variable {t : Tree} {id : EntryId} {d : Datatype} {source : Source}

theorem lookup_of_field (hfield : t.entry id = .field ⟨d, source⟩) (token : String) :
    t.lookup id token = d.lookup token := by
  rw [Tree.lookup, Tree.requireField, hfield]
  rfl

/-- The value that is parsed for a field comes from a token or from a number. -/
theorem parseValue_of_field (hfield : t.entry id = .field ⟨d, source⟩) {text : String} {v : Value}
    (h : parseValue t id text = .ok v) :
    d.lookup text = .ok v ∨ ∃ n, parseNumber? text.toList = some n ∧ d.lookupValue n = .ok v := by
  have hfield? : t.field? id = some ⟨d, source⟩ := by rw [Tree.field?, hfield]
  rw [parseValue, lookup_of_field hfield, hfield?] at h
  cases hlookup : d.lookup text with
  | ok v' =>
      rw [hlookup] at h
      cases h
      exact .inl rfl
  | error e =>
      rw [hlookup] at h
      cases hnumber : parseNumber? text.toList with
      | none =>
          rw [hnumber] at h
          cases h
      | some n =>
          simp only [hnumber] at h
          cases hvalue : d.lookupValue n with
          | error e =>
              rw [hvalue] at h
              cases h
          | ok w =>
              rw [hvalue] at h
              cases h
              exact .inr ⟨n, rfl, hvalue⟩

theorem parseValue_accepted (hd : d.Declared) (hfield : t.entry id = .field ⟨d, source⟩)
    {text : String} {v : Value} (h : parseValue t id text = .ok v) : d.lookupValue v = .ok v := by
  obtain hlookup | ⟨n, -, hvalue⟩ := parseValue_of_field hfield h
  · exact hd.lookup_accepted hlookup
  · exact Datatype.lookupValue_accepted hvalue

/-- How a write that is meant for an entry ends once its value is known: the entry is written once,
and with notes it is read again behind that. -/
inductive Writes (notes : Bool) (t : Tree) (id : EntryId) (path : String) (v : Value)
    (m : Machine) : Except Failure (List String) → Machine → Prop where
  | failed {halt : Halt} {m' : Machine} (hwrite : (t.write id v).runOn m = (.error halt, m')) :
      Writes notes t id path v m (.error (.during (.writing v path) (.halt halt))) m'
  | done {m' : Machine} (hnotes : notes = false) (hwrite : (t.write id v).runOn m = (.ok (), m')) :
      Writes notes t id path v m (.ok []) m'
  | noted {m' m'' : Machine} {text : String} (hnotes : notes = true)
      (hwrite : (t.write id v).runOn m = (.ok (), m'))
      (hnote : (t.evaluate id).runOn m' = (.ok text, m'')) : Writes notes t id path v m (.ok []) m''
  | unnoted {m' m'' : Machine} {halt : Halt} (hnotes : notes = true)
      (hwrite : (t.write id v).runOn m = (.ok (), m'))
      (hnote : (t.evaluate id).runOn m' = (.error halt, m'')) :
      Writes notes t id path v m (.error (.halt halt)) m''

section

variable {path text : String}

theorem runOn_locate (hid : t.resolveTextFollow Tree.root path = .ok (some id)) (m : Machine) :
    (locate t path).runOn m = (.ok id, m) := by
  rw [locate, hid]
  rfl

/-- A text that cannot be parsed ends a write before the machine is touched. -/
theorem runOn_write_of_error (notes : Bool) {e : Failure}
    (hid : t.resolveTextFollow Tree.root path = .ok (some id)) (h : parseValue t id text = .error e)
    (m : Machine) : (runOnTree notes t (.write path text)).runOn m = (.error e, m) := by
  simp only [runOnTree, Action.runOn_bind, runOn_locate hid, h, Action.runOn_ofExcept]

/-- Otherwise the parsed value is written. -/
theorem runOn_write_of_ok (notes : Bool) {v : Value}
    (hid : t.resolveTextFollow Tree.root path = .ok (some id)) (h : parseValue t id text = .ok v)
    (m : Machine) :
    ∃ r m', (runOnTree notes t (.write path text)).runOn m = (r, m') ∧
      Writes notes t id path v m r m' := by
  simp only [runOnTree, Action.runOn_bind, runOn_locate hid, h, Action.runOn_ofExcept, ofAccess,
    Action.runOn_mapError]
  rcases hwrite : (t.write id v).runOn m with ⟨halt | _, m'⟩
  · exact ⟨_, _, rfl, .failed hwrite⟩
  cases hnotes : notes with
  | false => exact ⟨_, _, rfl, .done rfl hwrite⟩
  | true =>
      simp only [if_true, Action.runOn_bind, Action.runOn_mapError]
      rcases hnote : (t.evaluate id).runOn m' with ⟨halt | text, m''⟩
      · exact ⟨_, _, rfl, .unnoted rfl hwrite hnote⟩
      · exact ⟨_, _, rfl, .noted rfl hwrite hnote⟩

end

end CommandLine

/-- Both ways to a value of a datatype end with one that the datatype accepts as it is. So whatever
is typed for a field, a write stops before the machine is touched, or writes such a value; with
notes, the field is read behind that. -/
theorem values_accepted {d : Datatype} (hd : d.Declared) :
    (∀ token v, d.lookup token = .ok v → d.lookupValue v = .ok v) ∧
    (∀ v w, d.lookupValue v = .ok w → d.lookupValue w = .ok w) ∧
    ∀ (t : Tree) (id : EntryId) (source : Source), t.entry id = .field ⟨d, source⟩ →
      (∀ text v, CommandLine.parseValue t id text = .ok v → d.lookupValue v = .ok v) ∧
      ∀ notes path text m, t.resolveTextFollow Tree.root path = .ok (some id) →
        ∃ r m', (CommandLine.runOnTree notes t (.write path text)).runOn m = (r, m') ∧
          ((∃ e, CommandLine.parseValue t id text = .error e ∧ r = .error e ∧ m' = m) ∨
            ∃ v, CommandLine.parseValue t id text = .ok v ∧ d.lookupValue v = .ok v ∧
              CommandLine.Writes notes t id path v m r m') := by
  refine ⟨fun _ _ => hd.lookup_accepted, fun _ _ => Datatype.lookupValue_accepted,
    fun t id source hfield => ⟨fun _ _ => CommandLine.parseValue_accepted hd hfield, ?_⟩⟩
  intro notes path text m hid
  cases h : CommandLine.parseValue t id text with
  | error e =>
      exact ⟨_, _, CommandLine.runOn_write_of_error notes hid h m, .inl ⟨e, rfl, rfl, rfl⟩⟩
  | ok v =>
      obtain ⟨r, m', hrun, hwrites⟩ := CommandLine.runOn_write_of_ok notes hid h m
      exact ⟨r, m', hrun, .inr ⟨v, rfl, CommandLine.parseValue_accepted hd hfield h, hwrites⟩⟩

/-- A truth value with one name for both of its values. -/
def switchType : Datatype := .boolean "on" "on"

/-- A tree with one such field. -/
def switchTree : Tree :=
  (Draft.after (.ofTree .empty) (.field "switch" (.constant switchType 0))).tree

/-- Of equal names the first counts, and a number other than 0 becomes 1. -/
theorem values_accepted_switchTree :
    switchType.Declared ∧
    switchType.lookup "on" = .ok 1 ∧ switchType.lookupValue 1 = .ok 1 ∧
    switchType.lookupValue 7 = .ok 1 ∧ switchType.lookupValue 1 = .ok 1 ∧
    switchTree.entry 1 = .field (.constant switchType 0) ∧
    CommandLine.parseValue switchTree 1 "7" = .ok 1 ∧ switchType.lookupValue 1 = .ok 1 := by
  have hd : switchType.Declared := .boolean "on" "on"
  obtain ⟨htoken, hnumber, htree⟩ := values_accepted hd
  have hlookup : switchType.lookup "on" = .ok 1 := rfl
  have hvalue : switchType.lookupValue 7 = .ok 1 := rfl
  have hfield : switchTree.entry 1 = .field (.constant switchType 0) := rfl
  have hparse : CommandLine.parseValue switchTree 1 "7" = .ok 1 := rfl
  exact ⟨hd, hlookup, htoken _ _ hlookup, hvalue, hnumber _ _ hvalue, hfield, hparse,
    (htree switchTree 1 _ hfield).1 _ _ hparse⟩

end RegisterAtlas
