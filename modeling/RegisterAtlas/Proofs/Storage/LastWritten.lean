import RegisterAtlas.Proofs.Storage.Views

/-!
# Bytes written last

Writes through the register spaces of files are requests, made one after the other. One that is
accepted changes the bytes of its number, and one that is not accepted changes nothing. So after any
requests each place of a file has the byte that was written there last, through whichever space of
the file, or else the byte that it had from the start (`image_after`), and this is what any space of
the file shows of it.
-/

namespace RegisterAtlas

/-- A write of a value, through a register space. -/
structure Request where
  space : Space
  address : Value
  width : Width
  value : Value

namespace Request

open Space

variable {d d' : Disk} {r : Request} {place place' : Location} {start i : Nat}

/-- The machine that a request leaves, whether it fails or not. -/
def after (m : Machine) (r : Request) : Machine :=
  ((Bus.write r.space r.address r.width r.value).runOn m).2

/-- The number that a request is to write stands at a place of a file. -/
structure Hits (d : Disk) (r : Request) (place : Location) (start : Nat) : Prop where
  opens : Opens d r.space place
  accepts : r.space.Accepts r.address r.width start

/-- A byte of a file is one of the number that a request is to write. -/
def Covers (d : Disk) (r : Request) (place : Location) (i : Nat) : Prop :=
  ∃ start, r.Hits d place start ∧ start ≤ i ∧ i < start + r.width.bytes

/-- A request is not accepted, or what it is to write lies within a file. -/
inductive Regular (d : Disk) (r : Request) : Prop where
  | rejected (hfile : r.space.IsFile) (h : ∀ start, ¬ r.space.Accepts r.address r.width start)
  | within {place : Location} {image : Image} {start : Nat} (hviews : r.space.Views d place image)
      (haccepts : r.space.Accepts r.address r.width start)
      (hend : start + r.width.bytes ≤ image.size)

/-- A byte is the one that was written last at its place, or else the one that was there. -/
inductive LastWritten (d : Disk) (place : Location) (image : Image) (requests : List Request)
    (i : Nat) : UInt8 → Prop where
  | original (h : ∀ r ∈ requests, ¬ r.Covers d place i) :
      LastWritten d place image requests i (image.byte i)
  | written {front back : List Request} {r : Request} {start : Nat}
      (h : requests = front ++ r :: back) (hhits : r.Hits d place start) (hle : start ≤ i)
      (hlt : i < start + r.width.bytes) (hback : ∀ r' ∈ back, ¬ r'.Covers d place i) :
      LastWritten d place image requests i (byteOf r.width r.value (i - start))

variable {image : Image} {requests : List Request} {b : UInt8}

/-- A request that does not cover a byte does not change which one was written last. -/
theorem LastWritten.concat (h : LastWritten d place image requests i b)
    (hr : ¬ r.Covers d place i) : LastWritten d place image (requests ++ [r]) i b := by
  cases h with
  | original h =>
      refine .original fun r' hr' => ?_
      rcases List.mem_append.1 hr' with hr' | hr'
      · exact h r' hr'
      · rwa [List.mem_singleton.1 hr']
  | @written front back last start h hhits hle hlt hback =>
      have hsplit : requests ++ [r] = front ++ last :: (back ++ [r]) := by
        rw [h, List.append_assoc, List.cons_append]
      refine .written hsplit hhits hle hlt fun r' hr' => ?_
      rcases List.mem_append.1 hr' with hr' | hr'
      · exact hback r' hr'
      · rwa [List.mem_singleton.1 hr']

/-! ## Single requests -/

/-- What a disk has become by requests: the same files of the same sizes are there, with the bytes
that were written last. -/
structure Tracks (d d' : Disk) (requests : List Request) : Prop where
  sameNames : d.SameNames d'
  image_eq : ∀ place image, d.image? place = some image →
    ∃ image', d'.image? place = some image' ∧ image'.size = image.size ∧
      ∀ i, LastWritten d place image requests i (image'.byte i)

theorem Tracks.nil (d : Disk) : Tracks d d [] where
  sameNames := .refl d
  image_eq _ image himage := ⟨image, himage, rfl, fun i => .original (by simp)⟩

theorem Tracks.concat_of_rejected (h : Tracks d d' requests)
    (hr : ∀ start, ¬ r.space.Accepts r.address r.width start) :
    Tracks d d' (requests ++ [r]) where
  sameNames := h.sameNames
  image_eq place image himage := by
    obtain ⟨image', himage', hsize, hbyte⟩ := h.image_eq place image himage
    refine ⟨image', himage', hsize, fun i => (hbyte i).concat ?_⟩
    rintro ⟨start, hhits, -⟩
    exact hr start hhits.accepts

theorem Tracks.concat_of_stores {d'' : Disk} (h : Tracks d d' requests)
    (hhits : r.Hits d place start) (hstores : d'.Stores d'' place start r.width r.value) :
    Tracks d d'' (requests ++ [r]) where
  sameNames := h.sameNames.trans hstores.sameNames
  image_eq other image himage := by
    obtain ⟨image', himage', hsize, hbyte⟩ := h.image_eq other image himage
    by_cases hother : other = place
    · subst hother
      obtain ⟨before, image'', hbefore, himage'', hsize'', hbyte''⟩ := hstores.image_eq
      cases himage'.symm.trans hbefore
      refine ⟨image'', himage'', hsize''.trans hsize, fun i => ?_⟩
      rw [hbyte'' i]
      split
      · next hi => exact .written rfl hhits hi.1 hi.2 (by simp)
      · next hi =>
          refine (hbyte i).concat ?_
          rintro ⟨start', hhits', hcovers⟩
          exact hi (hhits.accepts.unique hhits'.accepts ▸ hcovers)
    · refine ⟨image', ?_, hsize, fun i => (hbyte i).concat ?_⟩
      · rw [Disk.image?, hstores.content_eq other hother, ← Disk.image?]
        exact himage'
      · rintro ⟨start', hhits', -⟩
        exact hother (hhits'.opens.unique hhits.opens)

theorem Views.of_tracks {space : Space} (hviews : space.Views d place image)
    (h : Tracks d d' requests) :
    ∃ image', space.Views d' place image' ∧ image'.size = image.size ∧
      ∀ i, LastWritten d place image requests i (image'.byte i) := by
  obtain ⟨image', himage', hsize, hbyte⟩ := h.image_eq place image hviews.image_eq
  refine ⟨image', ⟨(opens_iff h.sameNames).2 hviews.opens, himage', ?_⟩, hsize, hbyte⟩
  rw [hsize]
  exact hviews.size_lt

variable {m m' : Machine}

/-- One more request is made on what the requests before have left. -/
theorem Tracks.concat (h : Tracks m.disk m'.disk requests) (hr : r.Regular m.disk) :
    Tracks m.disk (after m' r).disk (requests ++ [r]) := by
  cases hr with
  | rejected hfile hrejected =>
      obtain ⟨-, hwrite⟩ := Machine.runOn_of_not_accepts (m := m') hfile hrejected
      obtain ⟨fault, hrun⟩ := hwrite r.value
      have hafter : after m' r = m' := congrArg Prod.snd hrun
      rw [hafter]
      exact h.concat_of_rejected hrejected
  | within hviews haccepts hend =>
      obtain ⟨image', hviews', hsize, -⟩ := Views.of_tracks hviews h
      rw [← hsize] at hend
      obtain ⟨m'', hrun, hstores, -⟩ := Machine.runOn_write_within hviews' haccepts hend r.value
      have hafter : after m' r = m'' := congrArg Prod.snd hrun
      rw [hafter]
      exact h.concat_of_stores ⟨hviews.opens, haccepts⟩ hstores.disk

/-! ## Sequences of requests -/

theorem tracks_foldl (hregular : ∀ r ∈ requests, r.Regular m.disk) :
    Tracks m.disk (requests.foldl after m).disk requests := by
  induction requests using List.reverseRecOn with
  | nil => exact .nil _
  | append_singleton requests r ih =>
      rw [List.foldl_append]
      refine (ih fun r' hr' => hregular r' (List.mem_append_left _ hr')).concat ?_
      exact hregular r (List.mem_append_right _ (List.mem_singleton.2 rfl))

end Request

open Space Request

/-- The register spaces of files are views of the bytes of their files. An access that is accepted
and lies within the file reads the little-endian number there, or writes the bytes of the value
there and nothing else; one that is not accepted fails and changes nothing. After any writes through
spaces of files, any space shows the bytes that were written last. -/
theorem littleEndian_views (m : Machine) :
    (∀ space place image address width start, Views m.disk space place image →
      space.Accepts address width start → start + width.bytes ≤ image.size →
      (∃ v, (Bus.read space address width).runOn m = (.ok v, m) ∧
        v.toNat = ∑ i ∈ Finset.range width.bytes, (image.byte (start + i)).toNat * 256 ^ i ∧
        ∀ size, space.Buffers size → m.disk.readBuffered size place start width = .ok v) ∧
      (∀ v, ∃ m', (Bus.write space address width v).runOn m = (.ok (), m') ∧
        m.Stores m' place start width v ∧
        ∀ size, space.Buffers size →
          m.disk.writeBuffered size place start width v = .ok m'.disk) ∧
      ∀ w, space = .memory w → ∃ mapping,
        Memory.mapWindow w m.disk = .ok (place, mapping) ∧
        Memory.mapping? Memory.pageSize w = some mapping ∧
        mapping.start.toNat + (mapping.skew.toNat + address.toNat) = start ∧
        mapping.skew.toNat + address.toNat + width.bytes ≤ mapping.length.toNat) ∧
    (∀ space address width, space.IsFile → (∀ start, ¬ space.Accepts address width start) →
      (∃ fault, (Bus.read space address width).runOn m = (.error fault, m)) ∧
        ∀ v, ∃ fault, (Bus.write space address width v).runOn m = (.error fault, m)) ∧
    ∀ requests : List Request, (∀ r ∈ requests, r.Regular m.disk) →
      ∀ space place image address width start, Views m.disk space place image →
        space.Accepts address width start → start + width.bytes ≤ image.size →
        ∃ bytes : Nat → UInt8, ∃ v,
          (∀ i < width.bytes, LastWritten m.disk place image requests (start + i) (bytes i)) ∧
          (Bus.read space address width).runOn (requests.foldl after m) =
            (.ok v, requests.foldl after m) ∧
          v.toNat = ∑ i ∈ Finset.range width.bytes, (bytes i).toNat * 256 ^ i := by
  refine ⟨?_, fun space address width hfile h => Machine.runOn_of_not_accepts hfile h, ?_⟩
  · intro space place image address width start hviews haccepts hend
    refine ⟨Machine.runOn_read_within hviews haccepts hend,
      Machine.runOn_write_within hviews haccepts hend, ?_⟩
    rintro w rfl
    exact mapped_of_accepts hviews.opens haccepts
  · intro requests hregular space place image address width start hviews haccepts hend
    obtain ⟨image', hviews', hsize, hbyte⟩ := Views.of_tracks hviews (tracks_foldl hregular)
    rw [← hsize] at hend
    obtain ⟨v, hrun, hv, -⟩ := Machine.runOn_read_within hviews' haccepts hend
    exact ⟨fun i => image'.byte (start + i), v, fun i _ => hbyte (start + i), hrun, hv⟩

/-- A machine with one file of 32 bytes. -/
def oneFile : Machine := { disk := Disk.empty.addFile ["dev", "mem"] (Image.zeros 32) }

/-- Here two writes overlap, through different spaces of the file, and one in between is not
aligned. -/
def overlappingRequests : List Request :=
  [⟨.memory ⟨"/dev/mem", 4, 16⟩, 4, .w32, 0x44332211⟩,
    ⟨.memory ⟨"/dev/mem", 4, 16⟩, 1, .w16, 0xFFFF⟩,
    ⟨.ports ⟨"/dev/mem", 6, 8⟩, 3, .w16, 0x77BBAA⟩]

theorem views_oneFile {space : Space} (h : Opens oneFile.disk space ["dev", "mem"]) :
    Views oneFile.disk space ["dev", "mem"] (Image.zeros 32) :=
  ⟨h, by rfl, by decide⟩

theorem littleEndian_views_oneFile :
    (∀ r ∈ overlappingRequests, r.Regular oneFile.disk) ∧
      Views oneFile.disk (.msr 0 "/dev/mem") ["dev", "mem"] (Image.zeros 32) ∧
      ∃ bytes : Nat → UInt8,
        (∀ i < 8, LastWritten oneFile.disk ["dev", "mem"] (Image.zeros 32) overlappingRequests
          (8 + i) (bytes i)) ∧
        (Bus.read (.msr 0 "/dev/mem") 8 .w64).runOn (overlappingRequests.foldl after oneFile) =
          (.ok 0x44BBAA11, overlappingRequests.foldl after oneFile) ∧
        ∑ i ∈ Finset.range 8, (bytes i).toNat * 256 ^ i = 0x44BBAA11 := by
  have hfile : oneFile.disk.openFile "/dev/mem" = .ok ["dev", "mem"] := by decide +kernel
  have hwindow : Memory.openWindow ⟨"/dev/mem", 4, 16⟩ oneFile.disk = .ok ["dev", "mem"] := by
    decide +kernel
  have hregular : ∀ r ∈ overlappingRequests, r.Regular oneFile.disk := by
    intro r hr
    rcases hr with _ | ⟨_, _ | ⟨_, _ | ⟨_, ⟨⟩⟩⟩⟩
    · refine .within (views_oneFile hwindow) (.memory ?_ ?_ ?_ ?_) ?_ <;> decide
    · refine .rejected (.memory _) fun start h => ?_
      cases h with
      | memory hwidth hend hlt haligned =>
          revert haligned
          decide
    · refine .within (views_oneFile hfile) (.ports ?_ ?_ ?_ ?_) ?_ <;> decide
  have hviews : Views oneFile.disk (.msr 0 "/dev/mem") ["dev", "mem"] (Image.zeros 32) :=
    views_oneFile hfile
  obtain ⟨-, -, hsequence⟩ := littleEndian_views oneFile
  obtain ⟨bytes, v, hbytes, hrun, hv⟩ := hsequence overlappingRequests hregular (.msr 0 "/dev/mem")
    _ _ 8 .w64 8 hviews (.msr (by decide)) (by decide)
  have hfound : ((Bus.read (.msr 0 "/dev/mem") 8 .w64).runOn
      (overlappingRequests.foldl after oneFile)).1 = .ok 0x44BBAA11 := by decide +kernel
  rw [hrun] at hfound
  cases hfound
  exact ⟨hregular, hviews, bytes, hbytes, hrun, hv.symm⟩

end RegisterAtlas
