import RegisterAtlas.Proofs.Access.Direct
import RegisterAtlas.Proofs.Resolve.Depth

/-!
# The accesses of indirect fields

An indirect field is accessed in three steps: the write of its index, the wait for its ready flag
and the access to its data, the last two in the other order for a write. `IndirectReads` and
`IndirectWrites` describe the accesses that this makes over direct fields, with one constructor for
each step that can be the last one. What is recorded of an access to the field is described so, on
every bus and from wherever the field is reached: `records_readProcedure` and
`records_writeProcedure` put it together from the steps.
-/

namespace RegisterAtlas.Tree

open Recorded Access

variable {σ : Type} {t : Tree} {scope : EntryId} {i : Indirect}

/-! ## The errors of paths -/

/-- The errors of texts that are no paths, of paths that cannot be walked, and of paths that lead
nowhere. -/
inductive PathError : Error → Prop where
  | invalidPath (text : String) (flaw : PathFlaw) : PathError (.invalidPath text flaw)
  | conversion (text : String) (misuse : Misuse) : PathError (.conversion text misuse)
  | notFound (missing : Missing) : PathError (.notFound missing)

theorem pathError_of_ofText {text : String} {e : Error} (h : Path.ofText text = .error e) :
    PathError e := by
  obtain ⟨flaw, rfl⟩ := Path.ofText_eq_error h
  exact .invalidPath text flaw

theorem pathError_of_walks {path : Path} {follow : Bool} {n : Nat} {id : EntryId}
    {es : List Element} {hops : Nat} {r : Outcome} (hw : t.Walks path follow n id es hops r)
    {e : Error} (he : r = .error e) : PathError e := by
  induction hw with
  | done => cases he
  | halt htakes hr =>
      subst he
      cases htakes <;> exact .conversion ..
  | step _ _ _ ih => exact ih he
  | malformed _ _ _ hp =>
      cases he
      exact pathError_of_ofText hp
  | stop _ _ _ _ _ _ ih => exact ih he
  | follow _ _ _ _ _ _ _ ih => exact ih he

theorem WellFormed.pathError_of_target (h : t.WellFormed) (hscope : scope < t.size) {path : String}
    {e : Error} (he : t.target scope path = .error e) : PathError e := by
  unfold target resolveTextFollow at he
  cases hp : Path.ofText path with
  | error err =>
      rw [hp] at he
      cases he
      exact pathError_of_ofText hp
  | ok p =>
      simp only [hp, bind, Except.bind] at he
      cases hr : t.resolveFollow scope p with
      | ok found =>
          rw [hr] at he
          cases found <;> cases he
          exact .notFound _
      | error err =>
          rw [hr] at he
          cases he
          have hwalked : t.walked scope p true = .error e := hr
          rcases h.walked_or_tooDeep p true hscope with ⟨hops, -, hm⟩ | ⟨⟨place, hdeep⟩, -⟩
          · exact pathError_of_walks hm hwalked
          · cases hwalked.symm.trans hdeep
            exact .conversion ..

/-! ## The steps -/

/-- The accesses of the wait for a ready flag, if there is one: it is polled until all bits of its
mask are set. -/
inductive Awaits (t : Tree) (scope : EntryId) (i : Indirect) :
    List Exchange → Except Halt Unit → Prop where
  | never (h : i.ready = none) : Awaits t scope i [] (.ok ())
  | polls {path : String} {mask : Value} {log : List Exchange} {r : Except Halt Value}
      (h : i.ready = some (path, mask))
      (hpoll : t.Through scope path (fun parts =>
        PollsBy (ReadsParts parts) mask mask (.timeout path t.pollLimit) t.pollLimit) log r) :
      Awaits t scope i log (r.map fun _ => ())

/-- The accesses of reading an indirect field: the index is written, the ready flag awaited, and the
data read. What fails first is the last step. -/
inductive IndirectReads (t : Tree) (scope : EntryId) (i : Indirect) :
    List Exchange → Except Halt Value → Prop where
  | noIndex {log : List Exchange} {e : Halt}
      (hindex : t.Through scope i.indexPath (WritesParts i.index) log (.error e)) :
      IndirectReads t scope i log (.error e)
  | notReady {log log' : List Exchange} {e : Halt}
      (hindex : t.Through scope i.indexPath (WritesParts i.index) log (.ok ()))
      (hready : t.Awaits scope i log' (.error e)) :
      IndirectReads t scope i (log ++ log') (.error e)
  | data {log log' log'' : List Exchange} {r : Except Halt Value}
      (hindex : t.Through scope i.indexPath (WritesParts i.index) log (.ok ()))
      (hready : t.Awaits scope i log' (.ok ()))
      (hdata : t.Through scope i.dataPath ReadsParts log'' r) :
      IndirectReads t scope i (log ++ (log' ++ log'')) r

/-- The accesses of writing an indirect field: the index is written, then the value to the data, and
then the ready flag awaited. What fails first is the last step. -/
inductive IndirectWrites (t : Tree) (scope : EntryId) (i : Indirect) (v : Value) :
    List Exchange → Except Halt Unit → Prop where
  | noIndex {log : List Exchange} {e : Halt}
      (hindex : t.Through scope i.indexPath (WritesParts i.index) log (.error e)) :
      IndirectWrites t scope i v log (.error e)
  | noData {log log' : List Exchange} {e : Halt}
      (hindex : t.Through scope i.indexPath (WritesParts i.index) log (.ok ()))
      (hdata : t.Through scope i.dataPath (WritesParts v) log' (.error e)) :
      IndirectWrites t scope i v (log ++ log') (.error e)
  | ready {log log' log'' : List Exchange} {r : Except Halt Unit}
      (hindex : t.Through scope i.indexPath (WritesParts i.index) log (.ok ()))
      (hdata : t.Through scope i.dataPath (WritesParts v) log' (.ok ()))
      (hready : t.Awaits scope i log'' r) :
      IndirectWrites t scope i v (log ++ (log' ++ log'')) r

/-! ## Timeouts -/

/-- Only polls time out. -/
theorem Through.ne_timeout {α : Type} (hw : t.WellFormed) (hscope : scope < t.size) {path : String}
    {step : List Bits → List Exchange → Except Fault α → Prop} {log : List Exchange} {p : String}
    {n : Nat}
    (h : t.Through scope path (fun parts => OfFault (step parts)) log
      (.error (.error (.timeout p n)))) : False := by
  cases h with
  | unresolved he => cases hw.pathError_of_target hscope he
  | resolved _ _ hr =>
      obtain ⟨fault, hfault, -⟩ := hr.of_error
      cases hfault

/-- All the reads of the field at a path that the poll limit admits, none of which finds the bits
of the mask set. -/
inductive NeverReady (t : Tree) (scope : EntryId) (path : String) (mask : Value) :
    List Exchange → Prop where
  | misses {id : EntryId} {parts : List Bits} {logs : Nat → List Exchange}
      (h : t.target scope path = .ok id) (hid : t.DirectAt id parts)
      (hreads : ∀ j < t.pollLimit, ∃ v, ReadsParts parts (logs j) (.ok v) ∧ v &&& mask ≠ mask) :
      NeverReady t scope path mask ((List.range t.pollLimit).flatMap logs)

theorem Awaits.of_timeout (hw : t.WellFormed) (hscope : scope < t.size) {log : List Exchange}
    {p : String} {n : Nat} (h : t.Awaits scope i log (.error (.error (.timeout p n)))) :
    n = t.pollLimit ∧ ∃ mask, i.ready = some (p, mask) ∧ t.NeverReady scope p mask log := by
  generalize hr : (.error (.error (.timeout p n)) : Except Halt Unit) = r at h
  cases h with
  | never => cases hr
  | @polls path mask log r hready hpoll =>
      cases r with
      | ok v => cases hr
      | error e =>
      cases hr
      cases hpoll with
      | unresolved he => cases hw.pathError_of_target hscope he
      | @resolved id parts _ _ htarget hid hreads =>
          obtain ⟨logs, outcomes, reads, honce, hpolls, rfl⟩ := hreads
          cases hpolls with
          -- reads of bits fail with faults, so a timeout is that of the poll itself
          | failed hk before hread =>
              have hlast := honce _ (Nat.lt_succ_self _)
              rw [hread] at hlast
              obtain ⟨fault, hfault, -⟩ := hlast.of_error
              cases hfault
          | timedOut before =>
              refine ⟨rfl, mask, hready, .misses htarget hid fun j hj => ?_⟩
              obtain ⟨v, hv, hmiss⟩ := before j hj
              exact ⟨v, hv ▸ honce j hj, hmiss⟩

theorem NeverReady.register_mem {path : String} {mask : Value} {log : List Exchange}
    (h : t.NeverReady scope path mask log) : ∀ x ∈ log, x.register ∈ t.registersAt scope path := by
  cases h with
  | misses htarget hid hreads =>
      intro x hx
      obtain ⟨j, hj, hx⟩ := List.mem_flatMap.1 hx
      obtain ⟨v, hread, -⟩ := hreads j (List.mem_range.1 hj)
      have hthrough : t.Through scope path ReadsParts _ _ := .resolved htarget hid hread
      exact hthrough.register_mem (fun _ _ _ h => h.register_mem) x hx

/-- A read that times out has written the index and read the ready flag, and nothing else. -/
theorem IndirectReads.of_timeout (hw : t.WellFormed) (hscope : scope < t.size)
    {log : List Exchange} {p : String} {n : Nat}
    (h : t.IndirectReads scope i log (.error (.error (.timeout p n)))) :
    n = t.pollLimit ∧ ∃ mask first rest, i.ready = some (p, mask) ∧ log = first ++ rest ∧
      t.Through scope i.indexPath (WritesParts i.index) first (.ok ()) ∧
      t.NeverReady scope p mask rest := by
  cases h with
  | noIndex hindex => exact (hindex.ne_timeout hw hscope).elim
  | @notReady first rest _ hindex hready =>
      obtain ⟨rfl, mask, hflag, hnever⟩ := hready.of_timeout hw hscope
      exact ⟨rfl, mask, first, rest, hflag, rfl, hindex, hnever⟩
  | data _ _ hdata => exact (hdata.ne_timeout hw hscope).elim

/-! ## The index -/

/-- The accesses of the write of an index come first, and others only if it has succeeded. -/
inductive IndexFirst (t : Tree) (scope : EntryId) (i : Indirect) : List Exchange → Prop where
  | alone {log : List Exchange} {e : Halt}
      (h : t.Through scope i.indexPath (WritesParts i.index) log (.error e)) :
      IndexFirst t scope i log
  | others {log log' : List Exchange}
      (h : t.Through scope i.indexPath (WritesParts i.index) log (.ok ())) :
      IndexFirst t scope i (log ++ log')

theorem IndirectReads.indexFirst {log : List Exchange} {r : Except Halt Value}
    (h : t.IndirectReads scope i log r) : t.IndexFirst scope i log := by
  cases h with
  | noIndex hindex => exact .alone hindex
  | notReady hindex | data hindex => exact .others hindex

theorem IndirectWrites.indexFirst {v : Value} {log : List Exchange} {r : Except Halt Unit}
    (h : t.IndirectWrites scope i v log r) : t.IndexFirst scope i log := by
  cases h with
  | noIndex hindex => exact .alone hindex
  | noData hindex | ready hindex => exact .others hindex

/-! ## What is recorded -/

/-- The paths of an indirect field lead to direct fields, or nowhere. -/
structure OverDirect (t : Tree) (scope : EntryId) (i : Indirect) : Prop where
  index : ∀ id, t.target scope i.indexPath = .ok id → ∃ parts, t.DirectAt id parts
  data : ∀ id, t.target scope i.dataPath = .ok id → ∃ parts, t.DirectAt id parts
  ready : ∀ path mask, i.ready = some (path, mask) →
    ∀ id, t.target scope path = .ok id → ∃ parts, t.DirectAt id parts

/-- Waits for the ready flag of an indirect field. -/
def await (t : Tree) (read : EntryId → Access σ Value) (scope : EntryId) (i : Indirect) :
    Access σ Unit :=
  match i.ready with
  | none => pure ()
  | some (path, mask) => do
      let _ ← t.pollAt read scope path mask mask
      pure ()

section

variable {read : EntryId → Access σ Value} {write : EntryId → Value → Access σ Unit}

theorem run_awaitReady (next : Procedure) :
    t.run scope read write (i.awaitReady next) =
      (do t.await read scope i; t.run scope read write next) := by
  unfold Indirect.awaitReady await
  cases i.ready with
  | none => rw [pure_bind]
  | some flag => rw [bind_assoc]; rfl

theorem run_readProcedure :
    t.run scope read write i.readProcedure =
      (do (Access.ofExcept (t.target scope i.indexPath) >>= fun id => write id i.index)
          t.await read scope i
          Access.ofExcept (t.target scope i.dataPath) >>= read) := by
  rw [Indirect.readProcedure, run, run_awaitReady]
  simp only [run, bind_assoc, bind_pure]

theorem run_writeProcedure (v : Value) :
    (do let _ ← t.run scope read write (i.writeProcedure v); pure ()) =
      (do (Access.ofExcept (t.target scope i.indexPath) >>= fun id => write id i.index)
          (Access.ofExcept (t.target scope i.dataPath) >>= fun id => write id v)
          t.await read scope i) := by
  rw [Indirect.writeProcedure, run, run, run_awaitReady]
  simp only [run, bind_assoc, pure_bind, bind_pure_unit]

end

variable [Bus σ]

section

variable (h : t.OverDirect scope i) (depth : Nat)

include h

theorem records_await :
    Records (t.await (t.readWithin (depth + 1)) scope i : Access (Recorded σ) Unit)
      (t.await (t.readWithin (depth + 1)) scope i) (t.Awaits scope i) := by
  unfold await
  cases hready : i.ready with
  | none => exact Records.pure (.never hready)
  | some flag =>
      obtain ⟨path, mask⟩ := flag
      refine (records_poll_through (h.ready path mask hready) depth mask mask).bind ?_ ?_
      · exact fun log e hpoll => .polls hready hpoll
      · refine fun log v hpoll => Records.pure ?_
        rw [List.append_nil]
        exact .polls hready hpoll

theorem records_readProcedure :
    Records (t.run scope (t.readWithin (depth + 1)) (t.writeWithin (depth + 1)) i.readProcedure :
        Access (Recorded σ) Value)
      (t.run scope (t.readWithin (depth + 1)) (t.writeWithin (depth + 1)) i.readProcedure)
      (t.IndirectReads scope i) := by
  rw [run_readProcedure, run_readProcedure]
  refine (records_write_through h.index depth i.index).bind (fun _ _ => .noIndex) ?_
  intro log _ hindex
  refine (records_await h depth).bind (fun _ _ => .notReady hindex) ?_
  intro log' _ hready
  exact (records_read_through h.data depth).mono fun _ _ => .data hindex hready

theorem records_writeProcedure (v : Value) :
    Records (do
        let _ ← t.run scope (t.readWithin (depth + 1)) (t.writeWithin (depth + 1))
          (i.writeProcedure v)
        pure () : Access (Recorded σ) Unit)
      (do
        let _ ← t.run scope (t.readWithin (depth + 1)) (t.writeWithin (depth + 1))
          (i.writeProcedure v)
        pure ())
      (t.IndirectWrites scope i v) := by
  rw [run_writeProcedure, run_writeProcedure]
  refine (records_write_through h.index depth i.index).bind (fun _ _ => .noIndex) ?_
  intro log _ hindex
  refine (records_write_through h.data depth v).bind (fun _ _ => .noData hindex) ?_
  intro log' _ hdata
  exact (records_await h depth).mono fun _ _ => .ready hindex hdata

end

/-- An access to an indirect field over direct fields makes the accesses of its steps, in their
order and up to the first step that fails, and has the result of the last one, wherever the field is
reached from. A read that times out has made no accesses but those of the write of the index and of
as many reads of the ready flag as the limit says, and no access but the write of the index is made
unless that has succeeded. -/
theorem indirect_in_order {t : Tree} (h : Reachable t) {id : EntryId} {f : Field} {i : Indirect}
    (hid : t.entry id = .field f) (hi : f.source = .indirect i)
    (hdirect : t.OverDirect (t.parent id) i) :
    (∀ (σ : Type) [Bus σ] depth, 2 ≤ depth →
      Records (t.readWithin depth id : Access (Recorded σ) Value) (t.readWithin depth id)
        (t.IndirectReads (t.parent id) i) ∧
      ∀ v, Records (t.writeWithin depth id v : Access (Recorded σ) Unit) (t.writeWithin depth id v)
        (t.IndirectWrites (t.parent id) i v)) ∧
    (∀ (σ : Type) [Bus σ] origin path, t.target origin path = .ok id →
      (t.readPath origin path : Access σ Value) = t.readWithin t.maxNesting id ∧
      ∀ v, (t.writePath origin path v : Access σ Unit) = t.writeWithin t.maxNesting id v) ∧
    (∀ log p n, t.IndirectReads (t.parent id) i log (.error (.error (.timeout p n))) →
      n = t.pollLimit ∧ ∃ mask first rest, i.ready = some (p, mask) ∧ log = first ++ rest ∧
        t.Through (t.parent id) i.indexPath (WritesParts i.index) first (.ok ()) ∧
        t.NeverReady (t.parent id) p mask rest ∧
        ∀ x ∈ log, x.register ∈ t.registersAt (t.parent id) i.indexPath ∨
          x.register ∈ t.registersAt (t.parent id) p) ∧
    (∀ log r, t.IndirectReads (t.parent id) i log r → t.IndexFirst (t.parent id) i log) ∧
    ∀ v log r, t.IndirectWrites (t.parent id) i v log r → t.IndexFirst (t.parent id) i log := by
  have hw := h.wellFormed
  have hscope : t.parent id < t.size :=
    hw.parent_lt_size (lt_size_of_entry_ne fun s hs => by rw [hid] at hs; cases hs)
  refine ⟨fun σ _ depth hdepth => ?_, fun σ _ origin path htarget => ?_,
    fun log p n hlog => ?_, fun _ _ hlog => hlog.indexFirst, fun _ _ _ hlog => hlog.indexFirst⟩
  · obtain ⟨depth, rfl⟩ := Nat.exists_eq_add_of_le' hdepth
    refine ⟨?_, fun v => ?_⟩
    · rw [readWithin_field hid, readWithin_field hid, hi]
      exact records_readProcedure hdirect depth
    · rw [writeWithin_field hid, writeWithin_field hid, hi]
      exact records_writeProcedure hdirect depth v
  · refine ⟨?_, fun v => ?_⟩
    · rw [readPath, htarget, ofExcept_ok, pure_bind, read]
    · rw [writePath, htarget, ofExcept_ok, pure_bind, write]
  · obtain ⟨rfl, mask, first, rest, hready, rfl, hindex, hnever⟩ := hlog.of_timeout hw hscope
    refine ⟨rfl, mask, first, rest, hready, rfl, hindex, hnever, fun x hx => ?_⟩
    rcases List.mem_append.1 hx with hx | hx
    · exact .inl (hindex.register_mem (fun _ _ _ hwrite => hwrite.register_mem) x hx)
    · exact .inr (hnever.register_mem x hx)

/-- A device with an index, a data and a status register, an indirect field over them, and an alias
of that field outside of the device. -/
def deviceTree : Tree :=
  ([.openScope "dev" (some (.simulated "dev")),
    .field "%index" (.direct (.int none) (Register.all ⟨.simulated "dev", 0, .w32⟩)),
    .field "%data" (.direct (.int none) (Register.all ⟨.simulated "dev", 4, .w32⟩)),
    .field "%status" (.direct (.int none) (Register.all ⟨.simulated "dev", 8, .w32⟩)),
    .field "indirect" ⟨.int none, .indirect
      { indexPath := "%index", index := 0x17, dataPath := "%data", ready := some ("%status", 1) }⟩,
    .closeScope, .alias "shortcut" "/dev/indirect", .pollLimit 2]
    |>.foldl Draft.after (.ofTree empty)).tree

/-- A read through the alias, of a device that never gets ready. -/
theorem indirect_in_order_deviceTree :
    Reachable deviceTree ∧
      deviceTree.target 0 "shortcut" = .ok 5 ∧
      (∃ f i, deviceTree.entry 5 = .field f ∧ f.source = .indirect i ∧
        deviceTree.OverDirect (deviceTree.parent 5) i ∧
        Records (deviceTree.read 5 : Access (Recorded Machine) Value) (deviceTree.read 5)
          (deviceTree.IndirectReads (deviceTree.parent 5) i)) ∧
      (deviceTree.readPath 0 "shortcut" : Access (Recorded Machine) Value) = deviceTree.read 5 ∧
      ((deviceTree.read 5 : Access (Recorded Machine) Value).runOn ⟨{}, []⟩).1 =
        .error (.error (.timeout "%status" 2)) ∧
      ((deviceTree.read 5 : Access (Recorded Machine) Value).runOn ⟨{}, []⟩).2.log =
        [.write ⟨.simulated "dev", 0, .w32⟩ 0x17 (.ok ()),
          .read ⟨.simulated "dev", 8, .w32⟩ (.ok 0),
          .read ⟨.simulated "dev", 8, .w32⟩ (.ok 0)] := by
  have hr : Reachable deviceTree := .pass .empty _
  have hpath : deviceTree.target 0 "shortcut" = .ok 5 := by decide +kernel
  have hindex : deviceTree.target 1 "%index" = .ok 2 := by decide +kernel
  have hdata : deviceTree.target 1 "%data" = .ok 3 := by decide +kernel
  have hready : deviceTree.target 1 "%status" = .ok 4 := by decide +kernel
  have hdirect : deviceTree.OverDirect 1
      { indexPath := "%index", index := 0x17, dataPath := "%data", ready := some ("%status", 1) } :=
    { index := by
        rintro id hid
        cases hindex.symm.trans hid
        exact ⟨_, _, rfl, rfl⟩
      data := by
        rintro id hid
        cases hdata.symm.trans hid
        exact ⟨_, _, rfl, rfl⟩
      ready := by
        rintro path mask ⟨⟩ id hid
        cases hready.symm.trans hid
        exact ⟨_, _, rfl, rfl⟩ }
  have hfield : deviceTree.entry 5 = .field _ := rfl
  have hroom : 2 ≤ deviceTree.maxNesting := Nat.le_trans (by decide) (Nat.le_add_left 4096 _)
  obtain ⟨hrecords, hreached, -⟩ := indirect_in_order hr hfield rfl hdirect
  exact ⟨hr, hpath, ⟨_, _, hfield, rfl, hdirect, (hrecords Machine _ hroom).1⟩,
    (hreached (Recorded Machine) 0 "shortcut" hpath).1, by decide +kernel, by rfl⟩

end RegisterAtlas.Tree
