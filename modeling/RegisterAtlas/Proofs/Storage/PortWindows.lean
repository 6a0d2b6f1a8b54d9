import RegisterAtlas.Description.System
import RegisterAtlas.Proofs.Storage.Views

/-!
# Windows of I/O ports

The driver for ports hands out windows of the I/O space, which has 65536 ports. A window is given by
its base and its size, and these are checked before anything is opened. All windows that are handed
out lie in the I/O space, and with them every port that is accessed.

The end of a window is added up with 64 bits though. Sizes next to 2⁶⁴, which are too large as any
other, are not refused: the addition overflows, and with that the run ends.
-/

namespace RegisterAtlas

namespace Port

/-! ## Arguments -/

theorem windowOf_of_length_ne {file : String} {args : List Value} (h : args.length ≠ 2) :
    windowOf file args = .error (.arguments (.wrongCount "port" ["base", "size"] args.length)) := by
  have hcheck : checkArguments "port" ["base", "size"] args =
      .error (.arguments (.wrongCount "port" ["base", "size"] args.length)) := if_neg h
  rw [windowOf, hcheck]
  rfl

theorem windowOf_pair (file : String) (base size : Value) :
    windowOf file [base, size] =
      if 2 ^ 16 ≤ base.toNat then .error (.arguments (.outOfRange "port" "base" base))
      else if 2 ^ 64 ≤ size.toNat then .error (.arguments (.outOfRange "port" "size" size))
      else if 2 ^ 64 ≤ base.toNat + size.toNat then .error (.access .overflow)
      else if 2 ^ 16 < base.toNat + size.toNat then
        .error (.arguments (.portWindow base.toNat size.toNat))
      else .ok ⟨file, base.toNat.toUInt64, size.toNat.toUInt64⟩ := by
  have hcheck : checkArguments "port" ["base", "size"] [base, size] = .ok () := rfl
  have hnarrow : ∀ name bits (v : Value), narrow "port" name bits v =
      if 2 ^ bits ≤ v.toNat then .error (.arguments (.outOfRange "port" name v))
      else .ok v.toNat := by
    intro name bits v
    simp only [← Nat.not_lt, ite_not]
    rfl
  simp only [windowOf, hcheck, hnarrow, List.getD_cons_zero, List.getD_cons_succ]
  by_cases hbase : 2 ^ 16 ≤ base.toNat
  · rw [if_pos hbase, if_pos hbase]
    rfl
  by_cases hsize : 2 ^ 64 ≤ size.toNat
  · rw [if_neg hbase, if_neg hbase, if_pos hsize, if_pos hsize]
    rfl
  have hlimit : wordCount 64 = 2 ^ 64 := rfl
  have hcount : portCount = 2 ^ 16 := rfl
  by_cases hstop : 2 ^ 64 ≤ base.toNat + size.toNat
  · rw [if_neg hbase, if_neg hbase, if_neg hsize, if_neg hsize, if_pos hstop]
    simp only [bind, Except.bind, hlimit, if_pos hstop]
    rfl
  rw [if_neg hbase, if_neg hbase, if_neg hsize, if_neg hsize, if_neg hstop]
  simp only [bind, Except.bind, hlimit, if_neg hstop, hcount]
  split <;> rfl

theorem runOn_attach_of_error {c : Config} {args : List Value} {e : Error}
    (h : windowOf (c.systemPath "/dev/port") args = .error e) (m : Machine) :
    ((fileDriver c).attach args).runOn m = (.error e, m) := by
  show (Action.ofExcept (windowOf (c.systemPath "/dev/port") args) >>= _).runOn m = _
  rw [h, Action.runOn_bind, Action.runOn_ofExcept]

/-- Once its arguments are let through, a window is handed out if its file can be opened. -/
theorem runOn_attach_of_ok {c : Config} {args : List Value} {w : Window}
    (h : windowOf (c.systemPath "/dev/port") args = .ok w) (m : Machine) :
    ((fileDriver c).attach args).runOn m =
      match openWindow w m.disk with
      | .ok _ => (.ok (.ports w), m)
      | .error fault => (.error (.access fault), m) := by
  show (Action.ofExcept (windowOf (c.systemPath "/dev/port") args) >>= _).runOn m = _
  rw [h, Action.runOn_bind, Action.runOn_ofExcept]
  simp only [Action.runOn_bind, Action.runOn_mapError]
  cases hopen : openWindow w m.disk with
  | ok place => simp only [Action.runOn, Machine.readingDisk, hopen]; rfl
  | error fault => simp only [Action.runOn, Machine.readingDisk, hopen]

/-- A window that is let through ends in the I/O space. -/
theorem stop_of_windowOf {file : String} {args : List Value} {w : Window}
    (h : windowOf file args = .ok w) : w.base.toNat + w.size.toNat ≤ 2 ^ 16 := by
  by_cases hlength : args.length = 2
  · obtain ⟨base, size, rfl⟩ := List.length_eq_two.1 hlength
    rw [windowOf_pair] at h
    split_ifs at h with hbase hsize hoverflow hstop
    cases h
    simp only [Nat.toUInt64, UInt64.toNat_ofNat']
    omega
  · rw [windowOf_of_length_ne hlength] at h
    cases h

end Port

open Port

/-- The driver for ports hands out a window only for a base of 16 bits and a size that lie in the
I/O space together, and then so do all the ports that are accessed through it. It refuses all other
arguments before it opens anything, but for the sizes that bring the end of the window to 2⁶⁴ or
beyond: the addition overflows. -/
theorem portWindows_inside (c : Config) :
    (∀ args (m : Machine), args.length ≠ 2 → ((fileDriver c).attach args).runOn m =
      (.error (.arguments (.wrongCount "port" ["base", "size"] args.length)), m)) ∧
    (∀ (base size : Value) (m : Machine), ((fileDriver c).attach [base, size]).runOn m =
      if 2 ^ 16 ≤ base.toNat then (.error (.arguments (.outOfRange "port" "base" base)), m)
      else if 2 ^ 64 ≤ size.toNat then (.error (.arguments (.outOfRange "port" "size" size)), m)
      else if 2 ^ 64 ≤ base.toNat + size.toNat then (.error (.access .overflow), m)
      else if 2 ^ 16 < base.toNat + size.toNat then
        (.error (.arguments (.portWindow base.toNat size.toNat)), m)
      else
        let w : Window :=
          ⟨c.systemPath "/dev/port", base.toNat.toUInt64, size.toNat.toUInt64⟩
        match openWindow w m.disk with
        | .ok _ => (.ok (.ports w), m)
        | .error fault => (.error (.access fault), m)) ∧
    ∀ args (m m' : Machine) space, ((fileDriver c).attach args).runOn m = (.ok space, m') →
      ∃ w, space = .ports w ∧ w.base.toNat + w.size.toNat ≤ 2 ^ 16 ∧
        ∀ address width port, space.check? address width = some (.ok port) →
          port + width.bytes ≤ 2 ^ 16 := by
  refine ⟨fun args m hlength => runOn_attach_of_error (windowOf_of_length_ne hlength) m, ?_, ?_⟩
  · intro base size m
    have hpair := windowOf_pair (c.systemPath "/dev/port") base size
    split_ifs at hpair ⊢ with hbase hsize hoverflow hstop
    · exact runOn_attach_of_error hpair m
    · exact runOn_attach_of_error hpair m
    · exact runOn_attach_of_error hpair m
    · exact runOn_attach_of_error hpair m
    · exact runOn_attach_of_ok hpair m
  · intro args m m' space hrun
    cases hwindow : windowOf (c.systemPath "/dev/port") args with
    | error e =>
        rw [runOn_attach_of_error hwindow] at hrun
        cases hrun
    | ok w =>
        rw [runOn_attach_of_ok hwindow] at hrun
        cases hopen : openWindow w m.disk with
        | error fault =>
            rw [hopen] at hrun
            cases hrun
        | ok place =>
            rw [hopen] at hrun
            cases hrun
            have hstop := stop_of_windowOf hwindow
            refine ⟨w, rfl, hstop, fun address width port hport => ?_⟩
            cases Space.accepts_ports_iff.2 (Option.some.inj hport) with
            | ports hwidth hwidth' hend hplace => omega

/-- A machine with a file of 65792 bytes for its ports. -/
def portMachine : Machine := { disk := Disk.empty.addFile ["dev", "port"] (Image.zeros 0x10100) }

/-- The last two ports are a window of their own; no window goes beyond them. -/
theorem portWindows_inside_lastPorts :
    ((fileDriver {}).attach [0xFFFE, 2]).runOn portMachine =
        (.ok (.ports ⟨"/dev/port", 0xFFFE, 2⟩), portMachine) ∧
      (Space.ports ⟨"/dev/port", 0xFFFE, 2⟩).check? 1 .w8 = some (.ok 0xFFFF) ∧
      0xFFFF + Width.w8.bytes ≤ 2 ^ 16 ∧
      ((fileDriver {}).attach [0xFFFE, 3]).runOn portMachine =
        (.error (.arguments (.portWindow 0xFFFE 3)), portMachine) ∧
      ((fileDriver {}).attach [0xFFFE]).runOn portMachine =
        (.error (.arguments (.wrongCount "port" ["base", "size"] 1)), portMachine) := by
  obtain ⟨hlength, hpair, hinside⟩ := portWindows_inside {}
  have hrun : ((fileDriver {}).attach [0xFFFE, 2]).runOn portMachine =
      (.ok (.ports ⟨"/dev/port", 0xFFFE, 2⟩), portMachine) := (hpair 0xFFFE 2 portMachine).trans rfl
  have hcheck : (Space.ports ⟨"/dev/port", 0xFFFE, 2⟩).check? 1 .w8 = some (.ok 0xFFFF) := by decide
  obtain ⟨w, hspace, hw⟩ := hinside _ _ _ _ hrun
  cases hspace
  exact ⟨hrun, hcheck, hw.2 1 .w8 0xFFFF hcheck, hpair 0xFFFE 3 portMachine,
    hlength [0xFFFE] portMachine (by decide)⟩

/-- A window of nearly 2⁶⁴ ports does not lie in the I/O space, and is not refused as one that does
not: the run ends with the addition of its base and its size. -/
theorem portWindow_beyond :
    2 ^ 16 < 0x70 + 0xFFFFFFFFFFFFFFFF ∧ (0xFFFFFFFFFFFFFFFF : Value).toNat < 2 ^ 64 ∧
      ((fileDriver {}).attach [0x70, 0xFFFFFFFFFFFFFFFF]).runOn portMachine =
        (.error (.access .overflow), portMachine) ∧
      ∀ e, Error.access .overflow ≠ .arguments e :=
  ⟨by decide, by decide, runOn_attach_of_error rfl portMachine, nofun⟩

end RegisterAtlas
