import NellDB.LogStore.Replay

namespace NellDB

open Data

structure FitsFrame (zstd : Zstd) (r : Record) : Prop where
  binary : r.FitsBinary
  compressed : (zstd.encodeAll r.marshalBinary).length < 2 ^ 32

def frames (zstd : Zstd) (records : List Record) : Bytes :=
  (records.map (frame zstd)).flatten

/-- The stored frame of the record has a length that fits its field. -/
def Record.FitsStored (r : Record) : Prop :=
  r.FitsBinary ∧ 4 * (30 + r.collection.length + r.id.length + r.type.length +
    r.updatedBy.length + 4 * r.vector.length + r.payload.length) + 9 < 2 ^ 32

instance (r : Record) : Decidable r.FitsStored := inferInstanceAs (Decidable (_ ∧ _))

theorem Record.FitsStored.fitsFrame {r : Record} (fits : r.FitsStored) :
    FitsFrame .stored r where
  binary := fits.1
  compressed := by
    rw [Zstd.length_stored, Record.length_marshalBinary]
    exact fits.2

theorem fitsFrame_of_entries {records : RecordMap}
    (sizes : ∀ entry ∈ records.entries, entry.2.FitsStored) {position : GoString}
    {r : Record} (found : records.lookup position = some r) : FitsFrame .stored r :=
  (sizes ⟨position, r⟩ (Finmap.lookup_eq_some_iff.mp found)).fitsFrame

theorem length_frame (zstd : Zstd) (r : Record) :
    (frame zstd r).length = 8 + (zstd.encodeAll r.marshalBinary).length := by
  simp only [frame, List.length_append, length_bigEndian]

theorem drop_frame (zstd : Zstd) (r : Record) (rest : Bytes) :
    (frame zstd r ++ rest).drop 8 = zstd.encodeAll r.marshalBinary ++ rest := by
  have header : (bigEndian 4 r.marshalBinary.length ++
      bigEndian 4 (zstd.encodeAll r.marshalBinary).length).length = 8 := by
    simp only [List.length_append, length_bigEndian]
  rw [frame, List.append_assoc, List.drop_left' header]

/-! The header scan finds the whole frames of a log and stops at a torn one. -/

private theorem compLen_frame {zstd : Zstd} {r : Record}
    (compressed : (zstd.encodeAll r.marshalBinary).length < 2 ^ 32) (rest : Bytes) :
    fieldValue (((frame zstd r ++ rest).drop 4).take 4) =
      (zstd.encodeAll r.marshalBinary).length := by
  have field : ((frame zstd r ++ rest).drop 4).take 4 =
      bigEndian 4 (zstd.encodeAll r.marshalBinary).length := by
    simp [frame]
  rw [field, fieldValue_bigEndian compressed]

theorem scanFrames_frame {zstd : Zstd} {r : Record}
    (compressed : (zstd.encodeAll r.marshalBinary).length < 2 ^ 32)
    (fuel offset : Nat) (rest : Bytes) :
    ∃ uncompLen, scanFrames (fuel + 1) offset (frame zstd r ++ rest) =
      ⟨offset + 8, (zstd.encodeAll r.marshalBinary).length, uncompLen⟩ ::
        scanFrames fuel (offset + (frame zstd r).length) rest := by
  have long : ¬ (frame zstd r ++ rest).length < 8 := by
    rw [List.length_append, length_frame]
    omega
  have whole : ¬ (zstd.encodeAll r.marshalBinary ++ rest).length <
      (zstd.encodeAll r.marshalBinary).length := by
    rw [List.length_append]
    omega
  refine ⟨fieldValue ((frame zstd r ++ rest).take 4), ?_⟩
  rw [scanFrames]
  simp only [long, compLen_frame compressed, drop_frame, whole, if_false, List.drop_left,
    length_frame, Nat.add_assoc]

theorem scanFrames_torn {zstd : Zstd} {r : Record} {torn : Bytes}
    (compressed : (zstd.encodeAll r.marshalBinary).length < 2 ^ 32)
    (begins : torn <+: frame zstd r) (proper : torn ≠ frame zstd r)
    (fuel offset : Nat) : scanFrames fuel offset torn = [] := by
  obtain ⟨missing, whole⟩ := begins
  have lengths : torn.length + missing.length =
      8 + (zstd.encodeAll r.marshalBinary).length := by
    rw [← length_frame, ← whole, List.length_append]
  have lacking : 0 < missing.length := by
    apply List.length_pos_of_ne_nil
    rintro rfl
    exact proper (by simpa using whole)
  cases fuel with
  | zero => rfl
  | succ fuel =>
      rw [scanFrames]
      split
      next => rfl
      next header =>
          have compLen : fieldValue ((torn.drop 4).take 4) =
              (zstd.encodeAll r.marshalBinary).length := by
            rw [← compLen_frame compressed [], List.append_nil, ← whole,
              List.drop_append_of_le_length (by omega),
              List.take_append_of_le_length (by rw [List.length_drop]; omega)]
          have short : (torn.drop 8).length <
              (zstd.encodeAll r.marshalBinary).length := by
            rw [List.length_drop]
            omega
          simp only [compLen, short, if_true]

theorem scanFrames_nil (fuel offset : Nat) : scanFrames fuel offset [] = [] := by
  cases fuel <;> rfl

theorem scanFrames_of_torn {zstd : Zstd} {written : List Record} {torn : Bytes}
    (compressed : ∀ r ∈ written, (zstd.encodeAll r.marshalBinary).length < 2 ^ 32)
    (isTorn : Framing.Torn (written.map (frame zstd)) torn) (fuel offset : Nat) :
    scanFrames fuel offset torn = [] := by
  rcases isTorn with rfl | ⟨_, member, begins, proper⟩
  · exact scanFrames_nil fuel offset
  · obtain ⟨r, inWritten, rfl⟩ := List.mem_map.mp member
    exact scanFrames_torn (compressed r inWritten) begins proper fuel offset

theorem loadFrame_frame (zstd : Zstd) {r : Record} (fits : r.FitsBinary)
    (before after : Bytes) (uncompLen : Nat) :
    loadFrame zstd (readFile (before ++ frame zstd r ++ after))
      ⟨before.length + 8, (zstd.encodeAll r.marshalBinary).length, uncompLen⟩ = .ok r := by
  have inside : before.length + 8 + (zstd.encodeAll r.marshalBinary).length ≤
      (before ++ frame zstd r ++ after).length := by
    simp only [List.length_append, length_frame]
    omega
  have found : ((before ++ frame zstd r ++ after).drop (before.length + 8)).take
      (zstd.encodeAll r.marshalBinary).length = zstd.encodeAll r.marshalBinary := by
    rw [List.append_assoc, ← List.drop_drop, List.drop_left, drop_frame, List.take_left]
  have decoded := Record.unmarshalBinary_marshalBinary fits []
  rw [List.append_nil] at decoded
  simp only [loadFrame, readFile, inside, if_true, found, zstd.decodeAll_encodeAll, decoded]

theorem map_loadFrame_scanFrames {zstd : Zstd} {records : List Record} {torn : Bytes}
    (fits : ∀ r ∈ records, FitsFrame zstd r)
    (stops : ∀ fuel offset, scanFrames fuel offset torn = [])
    (before : Bytes) {fuel : Nat} (enough : records.length ≤ fuel) :
    (scanFrames fuel before.length (frames zstd records ++ torn)).map
        (loadFrame zstd (readFile (before ++ (frames zstd records ++ torn)))) =
      records.map .ok := by
  induction records generalizing before fuel with
  | nil => simp [frames, stops]
  | cons r rest ih =>
      cases fuel with
      | zero => simp at enough
      | succ fuel =>
          have fitsHead := fits r List.mem_cons_self
          have fitsRest := fun other member =>
            fits other (List.mem_cons_of_mem r member)
          have stream : frames zstd (r :: rest) ++ torn =
              frame zstd r ++ (frames zstd rest ++ torn) := by
            simp [frames]
          obtain ⟨uncompLen, scanned⟩ := scanFrames_frame fitsHead.compressed fuel
            before.length (frames zstd rest ++ torn)
          have onward := ih fitsRest (before ++ frame zstd r)
            (Nat.le_of_succ_le_succ enough)
          rw [List.length_append, List.append_assoc] at onward
          have head := loadFrame_frame zstd fitsHead.binary before
            (frames zstd rest ++ torn) uncompLen
          rw [List.append_assoc] at head
          rw [stream, scanned, List.map_cons, List.map_cons, head, onward]

theorem length_le_length_frames (zstd : Zstd) (records : List Record) :
    records.length ≤ (frames zstd records).length := by
  induction records with
  | nil => exact Nat.le_refl 0
  | cons r rest ih =>
      simp only [frames, List.map_cons, List.flatten_cons, List.length_append,
        List.length_cons, length_frame] at ih ⊢
      omega

theorem map_loadFrame_findFrames {zstd : Zstd} {records : List Record} {torn : Bytes}
    (fits : ∀ r ∈ records, FitsFrame zstd r)
    (stops : ∀ fuel offset, scanFrames fuel offset torn = []) :
    (findFrames (frames zstd records ++ torn)).map
        (loadFrame zstd (readFile (frames zstd records ++ torn))) =
      records.map .ok := by
  have enough : records.length ≤ (frames zstd records ++ torn).length := by
    have framed := length_le_length_frames zstd records
    rw [List.length_append]
    omega
  exact map_loadFrame_scanFrames fits stops [] enough

/-- Opening a log of whole frames and a torn rest succeeds, and merges the
frames' records in some order. -/
theorem openLog_outcomes {zstd : Zstd} {records : List Record} {torn : Bytes}
    (fits : ∀ r ∈ records, FitsFrame zstd r)
    (stops : ∀ fuel offset, scanFrames fuel offset torn = []) (opening : Opening) :
    (∃ outcome, OpenLog zstd opening (frames zstd records ++ torn) outcome) ∧
      ∀ outcome, OpenLog zstd opening (frames zstd records ++ torn) outcome →
        ∃ merged, merged.Perm records ∧ outcome = .ok
          (opening.store (frames zstd records ++ torn)
            (mergeAll opening.fresh merged)) := by
  have loaded := map_loadFrame_findFrames fits stops
  generalize frames zstd records ++ torn = file at loaded ⊢
  have loads : ∀ fr ∈ findFrames file, ∃ r, loadFrame zstd (readFile file) fr = .ok r := by
    intro fr member
    have image := List.mem_map_of_mem (f := loadFrame zstd (readFile file)) member
    rw [loaded] at image
    obtain ⟨r, _, ok⟩ := List.mem_map.mp image
    exact ⟨r, ok.symm⟩
  constructor
  · by_cases noFrames : findFrames file = []
    · exact ⟨_, .empty noFrames⟩
    · obtain ⟨s, replays, returned⟩ := exists_replays_nil zstd (readFile file)
        (replayPlan opening.numWorkers opening.positive (findFrames file))
      exact ⟨_, .replayed noFrames replays returned⟩
  · intro outcome opened
    cases opened with
    | empty noFrames =>
        rw [noFrames, List.map_nil] at loaded
        have none : records = [] := List.map_eq_nil_iff.mp loaded.symm
        exact ⟨[], by rw [none], rfl⟩
    | replayed _ replays returned =>
        have perm := replays.merged_perm loads returned
        rw [loaded] at perm
        exact ⟨_, (List.map_perm_map_iff fun _ _ => Except.ok.inj).mp perm, rfl⟩
    | failed _ replays returned =>
        exact absurd returned (replays.returned_ne_error loads _)

end NellDB
